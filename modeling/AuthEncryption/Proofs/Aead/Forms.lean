import AuthEncryption.Proofs.Aead.Inverse

/-!
# The forms agree

Every form of sealing runs the one that masks a buffer, and every form of opening runs one of
the two that check a tag. What a form adds is said once for strings of any length: where the
tag is cut off or put behind, and which buffer is handed on. Within the limits of an algorithm
both ways of opening come to the same result, so all forms of sealing give one ciphertext and
one tag, and all forms of opening give one plaintext or report one cause.
-/
namespace AuthEncryption.Aead

variable (a : Aead) (nonce : Nonce a.nonceSize) (ad : Bytes)

/-! ## What a form of opening adds -/

/-- A buffer that is long enough is handed on. -/
theorem runOn_openDetachedInto (body : Bytes) (t : Tag 16) (buffer : Bytes) :
    (a.openDetachedInto nonce body t ad).runOn buffer =
      if buffer.length < body.length then
        (.error (.error (.bufferTooShort a.name body.length buffer.length)), buffer)
      else ((a.suite nonce).openTo body t ad a.name).runOn buffer := by
  by_cases hshort : buffer.length < body.length <;>
    simp [openDetachedInto, Check.bufferLength, hshort]

theorem runOn_openInto_append (body : Bytes) (t : Tag 16) (buffer : Bytes) :
    (a.openInto nonce (body ++ t.toList) ad).runOn buffer =
      (((a.openDetachedInto nonce body t ad).runOn buffer).1.map fun _ => body.length,
        ((a.openDetachedInto nonce body t ad).runOn buffer).2) := by
  simp [openInto, splitTag_append]

/-- The body is opened in front of its tag, which a success cuts off. -/
theorem runOn_openInPlace_append (body : Bytes) (t : Tag 16) :
    (a.openInPlace nonce ad).runOn (body ++ t.toList) =
      match (a.openInPlaceDetached nonce t ad).runOn body with
      | (.ok _, after) => (.ok (), (after ++ t.toList).take body.length)
      | (.error f, after) => (.error f, after ++ t.toList) := by
  have hrange : (OnBuffer.onFront body.length (a.openInPlaceDetached nonce t ad)).runOn
      (body ++ t.toList) = _ := OnBuffer.runOn_onFront _ rfl
  rcases hopen : (a.openInPlaceDetached nonce t ad).runOn body with ⟨result, after⟩
  rw [hopen] at hrange
  cases result <;> simp [openInPlace, splitTag_append, hrange]

theorem openMessage_eq_openDetached (body : Bytes) (t : Tag 16) :
    a.openMessage nonce (body ++ t.toList) ad = a.openDetached nonce body t ad := by
  have hlong : ¬ body.length + 16 < 16 := by omega
  have hbody : subSizes (body.length + 16) 16 = .ok body.length := by simp [subSizes]
  simp only [openMessage, Check.ciphertextLength, List.length_append, FixedBytes.length_toList,
    tagSize, if_neg hlong, hbody, Failure.liftM_ofError, Failure.liftM_ofFault,
    Failure.mapError_ok, Failure.ok_bind, runOn_openInto_append, openDetached]
  cases ((a.openDetachedInto nonce body t ad).runOn (Bytes.zeros body.length)).1 <;> rfl

/-- The cause that is reported of a string without room for a tag. -/
def tooShort (x : Bytes) : Failure := .error (.cipherTooShort a.name tagSize x.length)

theorem splitTag_of_short {x : Bytes} (h : x.length < tagSize) :
    a.splitTag x = .error (a.tooShort x) := by
  simp [splitTag, Check.ciphertextLength, h, tooShort]

theorem runOn_openInto_of_short {x : Bytes} (h : x.length < tagSize) (buffer : Bytes) :
    (a.openInto nonce x ad).runOn buffer = (.error (a.tooShort x), buffer) := by
  simp [openInto, a.splitTag_of_short h]

theorem runOn_openInPlace_of_short {x : Bytes} (h : x.length < tagSize) :
    (a.openInPlace nonce ad).runOn x = (.error (a.tooShort x), x) := by
  simp [openInPlace, a.splitTag_of_short h]

/-! ## Sealing -/

/-- All forms of sealing give `body` and `t` for a message. -/
structure SealsTo (m body : Bytes) (t : Tag 16) : Prop where
  inPlaceDetached : (a.sealInPlaceDetached nonce ad).runOn m = (.ok t, body)
  detached : a.sealDetached nonce m ad = .ok (body, t)
  message : a.sealMessage nonce m ad = .ok (body ++ t.toList)
  inPlace : (a.sealInPlace nonce ad).runOn m = (.ok (), body ++ t.toList)
  into : ∀ buffer : Bytes, m.length + tagSize ≤ buffer.length →
    (a.sealInto nonce m ad).runOn buffer =
      (.ok (m.length + tagSize), body ++ t.toList ++ buffer.drop (m.length + tagSize))
  intoShort : ∀ buffer : Bytes, buffer.length < m.length + tagSize →
    (a.sealInto nonce m ad).runOn buffer =
      (.error (.error (.bufferTooShort a.name (m.length + tagSize) buffer.length)), buffer)

variable {m : Bytes}

theorem addSizes_tagSize (h : m.length ≤ a.messageMax) :
    addSizes m.length tagSize = .ok (m.length + tagSize) :=
  if_pos (Nat.lt_of_le_of_lt (Nat.add_le_add_right h tagSize) a.messageMax_add_tagSize_lt)

theorem runOn_sealInto_of_short {buffer : Bytes} (h : m.length ≤ a.messageMax)
    (hshort : buffer.length < m.length + tagSize) :
    (a.sealInto nonce m ad).runOn buffer =
      (.error (.error (.bufferTooShort a.name (m.length + tagSize) buffer.length)), buffer) := by
  simp [sealInto, a.addSizes_tagSize h, Check.bufferLength, hshort]

/-- The message is sealed where it was put, and its tag goes behind it. -/
theorem runOn_sealInto {body : Bytes} {t : Tag 16} (h : m.length ≤ a.messageMax)
    (hseal : (a.sealInPlaceDetached nonce ad).runOn m = (.ok t, body)) (hbody : body.length = m.length)
    {buffer : Bytes} (hroom : m.length + tagSize ≤ buffer.length) :
    (a.sealInto nonce m ad).runOn buffer =
      (.ok (m.length + tagSize), body ++ t.toList ++ buffer.drop (m.length + tagSize)) := by
  have hfits : ¬ buffer.length < m.length + tagSize := Nat.not_lt_of_le hroom
  have hplace : tagSize ≤ (buffer.drop m.length).length := by
    rw [List.length_drop]
    omega
  have hmask : (OnBuffer.onFront m.length do
      OnBuffer.copy m
      a.sealInPlaceDetached nonce ad).runOn buffer = (.ok t, body ++ buffer.drop m.length) := by
    rw [OnBuffer.runOn_onFront_copy _ rfl (Nat.le_trans (Nat.le_add_right ..) hroom), hseal]
  have htag : (OnBuffer.onBack m.length (OnBuffer.onFront tagSize (OnBuffer.copy t.toList))).runOn
      (body ++ buffer.drop m.length) =
        (.ok (), body ++ t.toList ++ buffer.drop (m.length + tagSize)) := by
    have hlen : t.toList.length = ((buffer.drop m.length).take tagSize).length := by
      rw [List.length_take_of_le hplace, FixedBytes.length_toList, tagSize]
    rw [OnBuffer.runOn_onBack _ hbody.symm, OnBuffer.runOn_onFront_take _ hplace,
      OnBuffer.runOn_copy hlen, List.drop_drop, List.append_assoc]
  simp [sealInto, a.addSizes_tagSize h, Check.bufferLength, hfits, hmask, htag]

theorem sealsTo_of_le (h : m.length ≤ a.messageMax) :
    a.SealsTo nonce ad m ((a.suite nonce).mask m)
      ((a.suite nonce).tag ad ((a.suite nonce).mask m)) := by
  have hseal := a.runOn_sealInPlaceDetached nonce ad h
  refine ⟨hseal, ?_, a.sealMessage_of_le nonce ad h, ?_, fun buffer hroom => ?_, fun buffer hshort => ?_⟩
  · simp [sealDetached, hseal]
  · simp [sealInPlace, hseal]
  · exact a.runOn_sealInto nonce ad h hseal (by simp) hroom
  · exact a.runOn_sealInto_of_short nonce ad h hshort

/-! ## Opening -/

/-- How an opening ends: a plaintext goes to its place, and a cause leaves the buffer as it
was. -/
def delivered {α : Type} (result : Except Error Bytes) (value : α) (place : Bytes → Bytes)
    (buffer : Bytes) : Except Failure α × Bytes :=
  match result with
  | .ok m => (.ok value, place m)
  | .error cause => (.error (.error cause), buffer)

/-- All forms of opening give `result` for a body and its tag. -/
structure OpensTo (body : Bytes) (t : Tag 16) (result : Except Error Bytes) : Prop where
  message : a.openMessage nonce (body ++ t.toList) ad = result.mapError .error
  detached : a.openDetached nonce body t ad = result.mapError .error
  inPlace : (a.openInPlace nonce ad).runOn (body ++ t.toList) =
    delivered result () id (body ++ t.toList)
  inPlaceDetached : (a.openInPlaceDetached nonce t ad).runOn body = delivered result () id body
  into : ∀ buffer : Bytes, body.length ≤ buffer.length →
    (a.openInto nonce (body ++ t.toList) ad).runOn buffer =
      delivered result body.length (· ++ buffer.drop body.length) buffer
  detachedInto : ∀ buffer : Bytes, body.length ≤ buffer.length →
    (a.openDetachedInto nonce body t ad).runOn buffer =
      delivered result () (· ++ buffer.drop body.length) buffer

variable {body : Bytes}

/-- What a body opens to under a tag. -/
def opened (body : Bytes) (t : Tag 16) : Except Error Bytes :=
  if (a.suite nonce).tag ad body = t then .ok ((a.suite nonce).mask body)
  else .error (.forgedOrCorrupted a.name)

theorem length_of_opened {t : Tag 16} {m : Bytes} (h : a.opened nonce ad body t = .ok m) :
    m.length = body.length := by
  rw [opened] at h
  split at h
  · cases h
    exact Suite.length_mask ..
  · cases h

theorem opensTo_of_le (h : body.length ≤ a.messageMax) (t : Tag 16) :
    a.OpensTo nonce ad body t (a.opened nonce ad body t) := by
  have hcovers := a.covers_suite nonce h
  have hinto : ∀ buffer : Bytes, body.length ≤ buffer.length →
      (a.openDetachedInto nonce body t ad).runOn buffer =
        delivered (a.opened nonce ad body t) () (· ++ buffer.drop body.length) buffer := by
    intro buffer hroom
    rw [runOn_openDetachedInto, if_neg (Nat.not_lt_of_le hroom), Suite.runOn_openTo hcovers ad hroom,
      opened]
    split <;> rfl
  -- A new buffer has the length of the body, so nothing stands behind the plaintext.
  have hdetached : a.openDetached nonce body t ad = (a.opened nonce ad body t).mapError .error := by
    simp only [openDetached, hinto _ (Nat.le_of_eq (Bytes.length_zeros body.length).symm),
      Bytes.drop_zeros]
    cases a.opened nonce ad body t <;> simp [delivered]
  have hinPlace : (a.openInPlaceDetached nonce t ad).runOn body =
      delivered (a.opened nonce ad body t) () id body := by
    rw [openInPlaceDetached, Suite.runOn_openInPlace hcovers, opened]
    split <;> rfl
  refine ⟨?_, hdetached, ?_, hinPlace, fun buffer hroom => ?_, hinto⟩
  · rw [openMessage_eq_openDetached, hdetached]
  · rw [runOn_openInPlace_append, hinPlace]
    cases hopened : a.opened nonce ad body t with
    | ok m => simp [delivered, ← a.length_of_opened nonce ad hopened]
    | error cause => rfl
  · rw [runOn_openInto_append, hinto buffer hroom]
    cases a.opened nonce ad body t <;> rfl

/-- What all forms of sealing give opens to the message. -/
theorem opened_of_sealsTo {m : Bytes} {t : Tag 16} (h : a.SealsTo nonce ad m body t) :
    a.opened nonce ad body t = .ok m := by
  obtain ⟨-, hsent⟩ := (sealMessage_eq_ok_iff a nonce ad).mp h.message
  obtain ⟨rfl, htag⟩ := List.append_inj' hsent (by simp)
  rw [opened, if_pos (FixedBytes.ext htag.symm), Suite.mask_mask]

/-- All forms of the interface agree. For a message within the limit all forms of sealing give
one body and one tag, in a buffer that is long enough if they are given one, and all forms of
opening give the message again. A string without room for a tag is reported as such by all
forms that take it. Any other string up to the limit is a body and a tag, and all forms of
opening give one plaintext of the length of the body, or report one cause and leave the buffer
that they are given as it was. -/
theorem forms_agree :
    (∀ m : Bytes, m.length ≤ a.messageMax → ∃ body t, body.length = m.length ∧
      a.SealsTo nonce ad m body t ∧ a.OpensTo nonce ad body t (.ok m)) ∧
    (∀ x : Bytes, x.length < tagSize →
      a.openMessage nonce x ad = .error (a.tooShort x) ∧
      (∀ buffer, (a.openInto nonce x ad).runOn buffer = (.error (a.tooShort x), buffer)) ∧
      (a.openInPlace nonce ad).runOn x = (.error (a.tooShort x), x)) ∧
    (∀ x : Bytes, tagSize ≤ x.length → x.length ≤ a.messageMax + tagSize →
      ∃ body t result, x = body ++ t.toList ∧ (∀ m, result = .ok m → m.length = body.length) ∧
        a.OpensTo nonce ad body t result) := by
  refine ⟨fun m hm => ?_, fun x hx => ?_, fun x hlong hx => ?_⟩
  · have hseals := a.sealsTo_of_le nonce ad hm
    have hlen : ((a.suite nonce).mask m).length = m.length := Suite.length_mask ..
    refine ⟨_, _, hlen, hseals, ?_⟩
    rw [← a.opened_of_sealsTo nonce ad hseals]
    exact a.opensTo_of_le nonce ad (hlen ▸ hm) _
  · exact ⟨a.openMessage_of_short nonce ad hx, a.runOn_openInto_of_short nonce ad hx,
      a.runOn_openInPlace_of_short nonce ad hx⟩
  · obtain ⟨body, t, rfl⟩ := FixedBytes.exists_append (show 16 ≤ x.length from hlong)
    have hbody : body.length ≤ a.messageMax := by
      simp only [List.length_append, t.length_toList, tagSize] at hx
      omega
    exact ⟨body, t, a.opened nonce ad body t, rfl, fun m => a.length_of_opened nonce ad,
      a.opensTo_of_le nonce ad hbody t⟩

/-- Three bytes are sealed and opened, no bytes are too short, and sixteen are a tag. -/
theorem forms_agree_on_short_strings :
    let a := chacha20Poly1305Ietf (.zero 32)
    let nonce : Nonce a.nonceSize := .zero 12
    (∃ body t, body.length = 3 ∧ a.SealsTo nonce [5] [1, 2, 3] body t ∧
      a.OpensTo nonce [5] body t (.ok [1, 2, 3])) ∧
    a.openMessage nonce [] [5] = .error (a.tooShort []) ∧
    ∃ body t result, Bytes.zeros 16 = body ++ t.toList ∧ a.OpensTo nonce [5] body t result := by
  intro a nonce
  obtain ⟨hsealing, hshort, hopening⟩ := forms_agree a nonce [5]
  obtain ⟨hempty, -, -⟩ := hshort [] (by decide)
  obtain ⟨body, t, result, hsplit, -, hopens⟩ := hopening (Bytes.zeros 16) (by decide) (by decide)
  exact ⟨hsealing [1, 2, 3] (by decide), hempty, body, t, result, hsplit, hopens⟩

end AuthEncryption.Aead
