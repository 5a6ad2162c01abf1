import AuthEncryption.Proofs.Aead.Openings

/-!
# Boxes

A box is a suite without associated data whose keystream does not run out. Its combined form
has the tag in front, so the body is sealed behind sixteen bytes of the buffer and found again
behind them. All forms of sealing give one body and one tag; all forms of opening give one
plaintext, or all report a forgery; and a string opens to a message exactly if the message is
sealed to that string. Nothing depends on how the key of a box was made.
-/
namespace AuthEncryption.SecretBox

variable (box : SecretBox) (nonce : Nonce 24)

/-! ## Sealing -/

/-- The body of a message, or the message of a body. -/
def maskBody (text : Bytes) : Bytes := (box.suite nonce).mask text

/-- The tag that belongs to a body. -/
def bodyTag (body : Bytes) : Tag 16 := (box.suite nonce).tag [] body

@[simp] theorem length_maskBody (text : Bytes) : (box.maskBody nonce text).length = text.length :=
  Suite.length_mask ..

theorem maskBody_maskBody (text : Bytes) :
    box.maskBody nonce (box.maskBody nonce text) = text :=
  Suite.mask_mask ..

variable {m : Bytes}

theorem runOn_sealInPlaceDetached (h : m.length ≤ messageMax) :
    (box.sealInPlaceDetached nonce).runOn m =
      (.ok (box.bodyTag nonce (box.maskBody nonce m)), box.maskBody nonce m) := by
  have hlimit : ¬ messageMax < m.length := Nat.not_lt_of_le h
  have hseal : (Composition.secretBox.sealInPlace (box.keystream nonce) []).runOn m =
      (.ok (box.bodyTag nonce (box.maskBody nonce m)), box.maskBody nonce m) :=
    Suite.runOn_sealInPlace (box.covers_suite nonce m.length) []
  simp [sealInPlaceDetached, Check.messageLength, Check.maxLength, hlimit, hseal]

/-- A message within the limit leaves room for a tag in a size. -/
theorem addSizes_tagSize (h : m.length ≤ messageMax) :
    addSizes m.length tagSize = .ok (m.length + tagSize) := by
  have hlimit : messageMax + tagSize < sizeLimit := by decide
  exact if_pos (Nat.lt_of_le_of_lt (Nat.add_le_add_right h tagSize) hlimit)

/-- All forms of sealing give `body` and `t` for a message. -/
structure SealsTo (m body : Bytes) (t : Tag 16) : Prop where
  inPlaceDetached : (box.sealInPlaceDetached nonce).runOn m = (.ok t, body)
  detached : box.sealDetached nonce m = .ok (body, t)
  message : box.sealMessage nonce m = .ok (t.toList ++ body)
  into : ∀ buffer : Bytes, m.length + tagSize ≤ buffer.length →
    (box.sealInto nonce m).runOn buffer =
      (.ok (m.length + tagSize), t.toList ++ body ++ buffer.drop (m.length + tagSize))
  intoShort : ∀ buffer : Bytes, buffer.length < m.length + tagSize →
    (box.sealInto nonce m).runOn buffer =
      (.error (.error (.bufferTooShort box.name (m.length + tagSize) buffer.length)), buffer)

/-- A buffer with room for a sealed message has a place for the tag and one for the body. -/
theorem exists_places {buffer : Bytes} {n : Nat} (h : n + tagSize ≤ buffer.length) :
    ∃ x y z : Bytes, buffer = x ++ y ++ z ∧ x.length = tagSize ∧ y.length = n := by
  refine ⟨buffer.take tagSize, (buffer.drop tagSize).take n, (buffer.drop tagSize).drop n,
    ?_, ?_, ?_⟩
  · rw [List.append_assoc, List.take_append_drop, List.take_append_drop]
  · rw [List.length_take]
    omega
  · rw [List.length_take, List.length_drop]
    omega

/-- The message is sealed behind the place of the tag, which is filled last. -/
theorem runOn_sealInto {body : Bytes} {t : Tag 16} (h : m.length ≤ messageMax)
    (hseal : (box.sealInPlaceDetached nonce).runOn m = (.ok t, body)) {buffer : Bytes}
    (hroom : m.length + tagSize ≤ buffer.length) :
    (box.sealInto nonce m).runOn buffer =
      (.ok (m.length + tagSize), t.toList ++ body ++ buffer.drop (m.length + tagSize)) := by
  have hfits : ¬ buffer.length < m.length + tagSize := Nat.not_lt_of_le hroom
  obtain ⟨x, y, z, rfl, hx, hy⟩ := exists_places hroom
  have hrest : (x ++ y ++ z).drop (m.length + tagSize) = z :=
    List.drop_left' (by rw [List.length_append]; omega)
  have htotal : m.length + tagSize = (x ++ y).length := by
    rw [List.length_append, hx, hy, Nat.add_comm]
  have hmask : (OnBuffer.onBack tagSize do
      OnBuffer.copy m
      box.sealInPlaceDetached nonce).runOn (x ++ y) = (.ok t, x ++ body) := by
    rw [OnBuffer.runOn_onBack _ hx.symm, OnBuffer.runOn_copy_then _ hy.symm, hseal]
  have htag : (OnBuffer.onFront tagSize (OnBuffer.copy t.toList)).runOn (x ++ body) =
      (.ok (), t.toList ++ body) := by
    have hlen : t.toList.length = x.length := by rw [FixedBytes.length_toList, hx, tagSize]
    rw [OnBuffer.runOn_onFront _ hx.symm, OnBuffer.runOn_copy hlen]
  simp only [sealInto, addSizes_tagSize h, Check.bufferLength, hrest, OnBuffer.runOn_bind,
    OnBuffer.runOn_liftFault, Failure.mapError_ok, OnBuffer.runOn_length,
    OnBuffer.runOn_liftError, if_neg hfits, OnBuffer.runOn_onFront _ htotal, hmask, htag,
    OnBuffer.runOn_pure]

theorem sealsTo_of_le (h : m.length ≤ messageMax) :
    box.SealsTo nonce m (box.maskBody nonce m) (box.bodyTag nonce (box.maskBody nonce m)) := by
  have hseal := box.runOn_sealInPlaceDetached nonce h
  have hroom : m.length + tagSize ≤ (Bytes.zeros (m.length + tagSize)).length := by simp
  refine ⟨hseal, ?_, ?_, fun buffer => box.runOn_sealInto nonce h hseal, fun buffer hshort => ?_⟩
  · simp [sealDetached, hseal]
  · simp [sealMessage, addSizes_tagSize h, box.runOn_sealInto nonce h hseal hroom]
  · simp [sealInto, addSizes_tagSize h, Check.bufferLength, hshort]

theorem sealMessage_of_gt (h : messageMax < m.length) :
    ∃ f, box.sealMessage nonce m = .error f := by
  have hsize : ¬ m.length + tagSize < sizeLimit := by
    have hlimit : messageMax + tagSize + 1 = sizeLimit := by decide
    omega
  exact ⟨.fault .sizeOverflow, by simp [sealMessage, addSizes, hsize]⟩

/-- What a successful sealing says about its output. -/
theorem sealMessage_eq_ok_iff {x : Bytes} :
    box.sealMessage nonce m = .ok x ↔ m.length ≤ messageMax ∧
      x = (box.bodyTag nonce (box.maskBody nonce m)).toList ++ box.maskBody nonce m := by
  by_cases h : m.length ≤ messageMax
  · rw [(box.sealsTo_of_le nonce h).message, and_iff_right h, Except.ok.injEq]
    exact eq_comm
  · obtain ⟨f, hf⟩ := box.sealMessage_of_gt nonce (Nat.lt_of_not_le h)
    simp [hf, h]

/-! ## Opening -/

/-- All forms of opening give `result` for a body and its tag. -/
structure OpensTo (body : Bytes) (t : Tag 16) (result : Except Error Bytes) : Prop where
  message : box.openMessage nonce (t.toList ++ body) = result.mapError .error
  detached : box.openDetached nonce body t = result.mapError .error
  inPlaceDetached : (box.openInPlaceDetached nonce t).runOn body =
    Aead.delivered result () id body
  into : ∀ buffer : Bytes, body.length ≤ buffer.length →
    (box.openInto nonce (t.toList ++ body)).runOn buffer =
      Aead.delivered result body.length (· ++ buffer.drop body.length) buffer

/-- What a body opens to under a tag. -/
def opened (body : Bytes) (t : Tag 16) : Except Error Bytes :=
  if box.bodyTag nonce body = t then .ok (box.maskBody nonce body)
  else .error (.forgedOrCorrupted box.name)

variable {body : Bytes} {t : Tag 16}

theorem opened_eq_ok_iff :
    box.opened nonce body t = .ok m ↔ t = box.bodyTag nonce body ∧ m = box.maskBody nonce body := by
  rw [opened]
  split
  · next htag => simp [htag, eq_comm]
  · next htag => simp [Ne.symm htag]

theorem opened_eq_error {cause : Error} (h : box.opened nonce body t = .error cause) :
    cause = .forgedOrCorrupted box.name := by
  rw [opened] at h
  split at h <;> cases h
  rfl

theorem runOn_openTo {buffer : Bytes} (hroom : body.length ≤ buffer.length) :
    ((box.suite nonce).openTo body t [] box.name).runOn buffer =
      Aead.delivered (box.opened nonce body t) () (· ++ buffer.drop body.length) buffer := by
  rw [Suite.runOn_openTo (box.covers_suite nonce _) [] hroom, opened, bodyTag]
  split <;> rfl

theorem opensTo_opened (body : Bytes) (t : Tag 16) :
    box.OpensTo nonce body t (box.opened nonce body t) := by
  have hinto : ∀ buffer : Bytes, body.length ≤ buffer.length →
      (box.openInto nonce (t.toList ++ body)).runOn buffer =
        Aead.delivered (box.opened nonce body t) body.length (· ++ buffer.drop body.length)
          buffer := by
    intro buffer hroom
    rw [runOn_openInto_prepend, if_neg (Nat.not_lt_of_le hroom), box.runOn_openTo nonce hroom]
    cases box.opened nonce body t <;> rfl
  -- A new buffer has the length of the body, so nothing stands behind the plaintext.
  have hnew : body.length ≤ (Bytes.zeros body.length).length := by simp
  refine ⟨?_, ?_, ?_, hinto⟩
  · have hlong : ¬ 16 + body.length < 16 := by omega
    have hrun := hinto _ hnew
    simp only [Bytes.drop_zeros] at hrun
    have hbody : subSizes (16 + body.length) 16 = .ok body.length := by simp [subSizes]
    simp only [openMessage, Check.ciphertextLength, List.length_append, FixedBytes.length_toList,
      tagSize, if_neg hlong, hbody, Failure.liftM_ofError, Failure.liftM_ofFault,
      Failure.mapError_ok, Failure.ok_bind, hrun]
    cases box.opened nonce body t <;> simp [Aead.delivered]
  · have hrun : (Composition.secretBox.openTo (box.keystream nonce) body t.toList [] box.name).runOn
        (Bytes.zeros body.length) = _ := box.runOn_openTo nonce hnew
    rw [Bytes.drop_zeros] at hrun
    simp only [openDetached, hrun]
    cases box.opened nonce body t <;> simp [Aead.delivered]
  · have hrun : (box.openInPlaceDetached nonce t).runOn body = _ :=
      Suite.runOn_openInPlace (box.covers_suite nonce _) [] t box.name
    rw [hrun, opened, bodyTag]
    split <;> rfl

theorem openMessage_of_short {x : Bytes} (h : x.length < tagSize) :
    box.openMessage nonce x = .error (.error (.cipherTooShort box.name tagSize x.length)) := by
  simp only [openMessage, Check.ciphertextLength, if_pos h]
  rfl

/-- What a successful opening says about its input. -/
theorem openMessage_eq_ok_iff {x : Bytes} :
    box.openMessage nonce x = .ok m ↔
      ∃ body, x = (box.bodyTag nonce body).toList ++ body ∧ m = box.maskBody nonce body := by
  by_cases hlong : tagSize ≤ x.length
  · obtain ⟨t, body, rfl⟩ := FixedBytes.exists_prepend (show 16 ≤ x.length from hlong)
    have hopened : (box.opened nonce body t).mapError Failure.error = .ok m ↔
        box.opened nonce body t = .ok m := by
      cases box.opened nonce body t <;> simp
    rw [(box.opensTo_opened nonce body t).message, hopened, opened_eq_ok_iff]
    constructor
    · rintro ⟨rfl, rfl⟩
      exact ⟨body, rfl, rfl⟩
    · rintro ⟨body', heq, rfl⟩
      obtain ⟨htag, rfl⟩ := List.append_inj heq (by simp)
      exact ⟨FixedBytes.ext htag, rfl⟩
  · rw [box.openMessage_of_short nonce (Nat.lt_of_not_le hlong)]
    constructor
    · intro hopen
      cases hopen
    · rintro ⟨body, rfl, -⟩
      exact absurd (by simp [tagSize]) hlong

/-! ## One inverts the other -/

/-- Opening inverts sealing in every form of a box. A string opens to a message exactly if the
message is sealed to that string. A message within the limit has one body and one tag, which
all forms of sealing give and all forms of opening turn into the message again. Any body opens
under any tag to one plaintext of its length in all forms, or all forms report a forgery and
leave the buffer that they are given as it was. -/
theorem open_inverts_seal_in_every_form :
    (∀ x m : Bytes, x.length ≤ messageMax + tagSize →
      (box.openMessage nonce x = .ok m ↔ box.sealMessage nonce m = .ok x)) ∧
    (∀ m : Bytes, m.length ≤ messageMax → ∃ body t, body.length = m.length ∧
      box.SealsTo nonce m body t ∧ box.OpensTo nonce body t (.ok m)) ∧
    (∀ (body : Bytes) (t : Tag 16), ∃ result, box.OpensTo nonce body t result ∧
      match result with
      | .ok m => m.length = body.length
      | .error cause => cause = .forgedOrCorrupted box.name) := by
  refine ⟨fun x m hx => ?_, fun m hm => ?_, fun body t => ?_⟩
  · rw [openMessage_eq_ok_iff, sealMessage_eq_ok_iff]
    constructor
    · rintro ⟨body, rfl, rfl⟩
      rw [List.length_append, FixedBytes.length_toList, tagSize] at hx
      rw [length_maskBody, maskBody_maskBody]
      exact ⟨by omega, rfl⟩
    · rintro ⟨-, rfl⟩
      exact ⟨box.maskBody nonce m, rfl, (box.maskBody_maskBody nonce m).symm⟩
  · have hopened : box.opened nonce (box.maskBody nonce m)
        (box.bodyTag nonce (box.maskBody nonce m)) = .ok m :=
      (box.opened_eq_ok_iff nonce).mpr ⟨rfl, (box.maskBody_maskBody nonce m).symm⟩
    refine ⟨_, _, box.length_maskBody nonce m, box.sealsTo_of_le nonce hm, ?_⟩
    rw [← hopened]
    exact box.opensTo_opened nonce _ _
  · refine ⟨_, box.opensTo_opened nonce body t, ?_⟩
    cases hopened : box.opened nonce body t with
    | ok m =>
      obtain ⟨-, rfl⟩ := (box.opened_eq_ok_iff nonce).mp hopened
      exact box.length_maskBody nonce body
    | error cause => exact box.opened_eq_error nonce hopened

/-- Forty bytes, which reach beyond the block of the one-time key, are sealed and opened in the
box of a shared secret. -/
theorem open_inverts_seal_of_shared_secret :
    let box := ofSharedSecret (.zero 32)
    (Bytes.zeros 40).length ≤ messageMax ∧
    (∃ x, x.length ≤ messageMax + tagSize ∧ box.sealMessage (.zero 24) (Bytes.zeros 40) = .ok x ∧
      box.openMessage (.zero 24) x = .ok (Bytes.zeros 40)) ∧
    ∃ body t, box.SealsTo (.zero 24) (Bytes.zeros 40) body t ∧
      box.OpensTo (.zero 24) body t (.ok (Bytes.zeros 40)) := by
  intro box
  have hm : (Bytes.zeros 40).length ≤ messageMax := by decide
  obtain ⟨hinverse, hforms, -⟩ := open_inverts_seal_in_every_form box (.zero 24)
  obtain ⟨body, t, hlen, hseals, hopens⟩ := hforms _ hm
  have hx : (t.toList ++ body).length ≤ messageMax + tagSize := by
    rw [List.length_append, FixedBytes.length_toList, hlen]
    decide
  exact ⟨hm, ⟨_, hx, hseals.message, (hinverse _ _ hx).mpr hseals.message⟩, body, t, hseals, hopens⟩

end AuthEncryption.SecretBox
