import AuthEncryption.Proofs.Aead.Suite
import AuthEncryption.Aead.Forms
import Mathlib.Logic.ExistsUnique

/-!
# Opening is the inverse of sealing

For a message within the limit of its algorithm the keystream suffices, so sealing gives
the masked text with its tag behind it. A combined string opens if and only if it ends in
the tag of its body. Together: a string opens to a message exactly if sealing this message
gives that string, and a body is accepted with one tag only.
-/
namespace AuthEncryption.Aead

variable (a : Aead) (nonce : Nonce a.nonceSize) (ad : Bytes)

/-- The largest message of an algorithm ends before its block numbers do. -/
theorem covers_suite {n : Nat} (h : n ≤ a.messageMax) : (a.suite nonce).Covers n := by
  cases a with
  | chacha20Poly1305 key => exact ⟨rfl, rfl, fun hnarrow => by cases hnarrow⟩
  | chacha20Poly1305Ietf key =>
    refine ⟨rfl, rfl, fun _ => ?_⟩
    simp only [messageMax, UInt32.size] at h
    show 64 + n ≤ 64 * 4294967296
    omega
  | xchacha20Poly1305Ietf key =>
    refine ⟨rfl, rfl, fun _ => ?_⟩
    simp only [messageMax, UInt32.size] at h
    show 64 + n ≤ 64 * 4294967296
    omega
  | aes256Gcm key => trivial

/-- A combined length is a size. -/
theorem messageMax_add_tagSize_lt : a.messageMax + tagSize < sizeLimit := by
  cases a <;> simp only [messageMax, tagSize, sizeLimit, UInt32.size, UInt64.size] <;> decide

/-! ## Sealing -/

theorem runOn_sealInPlaceDetached {m : Bytes} (h : m.length ≤ a.messageMax) :
    (a.sealInPlaceDetached nonce ad).runOn m =
      (.ok ((a.suite nonce).tag ad ((a.suite nonce).mask m)), (a.suite nonce).mask m) := by
  have hlimit : ¬ a.messageMax < m.length := Nat.not_lt_of_le h
  simp [sealInPlaceDetached, Check.messageLength, Check.maxLength, hlimit, Except.mapError,
    Suite.runOn_sealInPlace (a.covers_suite nonce h)]

theorem sealMessage_of_le {m : Bytes} (h : m.length ≤ a.messageMax) :
    a.sealMessage nonce m ad =
      .ok ((a.suite nonce).mask m ++ ((a.suite nonce).tag ad ((a.suite nonce).mask m)).toList) := by
  have hsize : m.length + tagSize < sizeLimit :=
    Nat.lt_of_le_of_lt (Nat.add_le_add_right h tagSize) a.messageMax_add_tagSize_lt
  simp [sealMessage, addSizes, hsize, sealInPlace, a.runOn_sealInPlaceDetached nonce ad h]

theorem sealMessage_of_gt {m : Bytes} (h : a.messageMax < m.length) :
    ∃ f, a.sealMessage nonce m ad = .error f := by
  by_cases hsize : m.length + tagSize < sizeLimit
  · simp [sealMessage, addSizes, hsize, sealInPlace, sealInPlaceDetached, Check.messageLength,
      Check.maxLength, h]
  · simp [sealMessage, addSizes, hsize]

/-! ## Opening -/

theorem splitTag_append (body : Bytes) (t : Tag 16) :
    a.splitTag (body ++ t.toList) = .ok (body, t) := by
  have hlong : ¬ body.length + 16 < 16 := by omega
  simp [splitTag, Check.ciphertextLength, hlong, subSizes, splitBytes, tagSize, Tag.ofBytes,
    Check.fixed]

theorem openMessage_append {body : Bytes} (h : body.length ≤ a.messageMax) (t : Tag 16) :
    a.openMessage nonce (body ++ t.toList) ad =
      if (a.suite nonce).tag ad body = t then .ok ((a.suite nonce).mask body)
      else .error (.error (.forgedOrCorrupted a.name)) := by
  have hlong : ¬ body.length + 16 < 16 := by omega
  have hroom : body.length ≤ (Bytes.zeros body.length).length := by simp
  have hopen := Suite.runOn_openTo (a.covers_suite nonce h) ad hroom t a.name
  by_cases ht : (a.suite nonce).tag ad body = t
  · simp [openMessage, Check.ciphertextLength, tagSize, hlong, subSizes, openInto,
      splitTag_append, openDetachedInto, Check.bufferLength, hopen, ht]
  · simp [openMessage, Check.ciphertextLength, tagSize, hlong, subSizes, openInto,
      splitTag_append, openDetachedInto, Check.bufferLength, hopen, ht]

theorem openMessage_of_short {x : Bytes} (h : x.length < tagSize) :
    a.openMessage nonce x ad = .error (.error (.cipherTooShort a.name tagSize x.length)) := by
  simp only [openMessage, Check.ciphertextLength, if_pos h]
  rfl

/-! ## One inverts the other -/

/-- What a successful opening says about its input. -/
theorem openMessage_eq_ok_iff {x m : Bytes} (hx : x.length ≤ a.messageMax + tagSize) :
    a.openMessage nonce x ad = .ok m ↔
      ∃ body, x = body ++ ((a.suite nonce).tag ad body).toList ∧ m = (a.suite nonce).mask body := by
  by_cases hlong : tagSize ≤ x.length
  · obtain ⟨body, t, rfl⟩ := FixedBytes.exists_append (show 16 ≤ x.length from hlong)
    have hbody : body.length ≤ a.messageMax := by
      simp only [List.length_append, t.length_toList, tagSize] at hx
      omega
    rw [openMessage_append a nonce ad hbody t]
    constructor
    · intro hopen
      split at hopen
      · cases hopen
        exact ⟨body, by rw [‹(a.suite nonce).tag ad body = t›], rfl⟩
      · cases hopen
    · rintro ⟨body', heq, rfl⟩
      obtain ⟨rfl, htag⟩ := List.append_inj' heq (by simp)
      rw [if_pos (FixedBytes.ext htag.symm)]
  · rw [openMessage_of_short a nonce ad (Nat.lt_of_not_le hlong)]
    constructor
    · intro hopen
      cases hopen
    · rintro ⟨body, rfl, -⟩
      exact absurd (by simp [tagSize]) hlong

/-- What a successful sealing says about its output. -/
theorem sealMessage_eq_ok_iff {x m : Bytes} :
    a.sealMessage nonce m ad = .ok x ↔
      m.length ≤ a.messageMax ∧ x = (a.suite nonce).mask m ++
        ((a.suite nonce).tag ad ((a.suite nonce).mask m)).toList := by
  by_cases h : m.length ≤ a.messageMax
  · rw [sealMessage_of_le a nonce ad h, and_iff_right h, Except.ok.injEq]
    exact eq_comm
  · obtain ⟨f, hf⟩ := sealMessage_of_gt a nonce ad (Nat.lt_of_not_le h)
    simp [hf, h]

/-- Opening inverts sealing and accepts nothing else. Messages within the limit seal, what
they seal to opens to them, and each body of such a message has one accepted tag. -/
theorem open_inverts_seal :
    (∀ x m : Bytes, x.length ≤ a.messageMax + tagSize →
      (a.openMessage nonce x ad = .ok m ↔ a.sealMessage nonce m ad = .ok x)) ∧
    (∀ m : Bytes, m.length ≤ a.messageMax →
      ∃ x, a.sealMessage nonce m ad = .ok x ∧ x.length = m.length + tagSize ∧
        a.openMessage nonce x ad = .ok m) ∧
    (∀ body : Bytes, body.length ≤ a.messageMax →
      ∃! t : Tag 16, ∃ m, a.openMessage nonce (body ++ t.toList) ad = .ok m) := by
  refine ⟨fun x m hx => ?_, fun m hm => ?_, fun body hbody => ?_⟩
  · rw [openMessage_eq_ok_iff a nonce ad hx, sealMessage_eq_ok_iff]
    constructor
    · rintro ⟨body, rfl, rfl⟩
      have hbody : body.length ≤ a.messageMax := by
        simpa only [List.length_append, FixedBytes.length_toList, tagSize,
          Nat.add_le_add_iff_right] using hx
      rw [Suite.length_mask, Suite.mask_mask]
      exact ⟨hbody, rfl⟩
    · rintro ⟨-, rfl⟩
      exact ⟨(a.suite nonce).mask m, rfl, (Suite.mask_mask _ m).symm⟩
  · refine ⟨_, sealMessage_of_le a nonce ad hm, by simp [tagSize], ?_⟩
    rw [openMessage_append a nonce ad (by simpa using hm), if_pos rfl, Suite.mask_mask]
  · refine ⟨(a.suite nonce).tag ad body, ⟨(a.suite nonce).mask body, ?_⟩, ?_⟩
    · rw [openMessage_append a nonce ad hbody, if_pos rfl]
    · rintro t ⟨m, hopen⟩
      rw [openMessage_append a nonce ad hbody] at hopen
      by_contra hne
      rw [if_neg (Ne.symm hne)] at hopen
      cases hopen

/-- Three bytes are sealed to nineteen and opened again. -/
theorem open_inverts_seal_of_three_bytes :
    ∃ x, (chacha20Poly1305Ietf (.zero 32)).sealMessage (.zero 12) [1, 2, 3] [] = .ok x ∧
      x.length = 19 ∧
        (chacha20Poly1305Ietf (.zero 32)).openMessage (.zero 12) x [] = .ok [1, 2, 3] :=
  (open_inverts_seal (chacha20Poly1305Ietf (.zero 32)) (.zero 12) []).2.1 [1, 2, 3] (by decide)

end AuthEncryption.Aead
