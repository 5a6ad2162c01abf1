import AuthEncryption.Proofs.Aead.Forms
import AuthEncryption.SecretBox

/-!
# What an opening discloses

An opening works on a buffer of the caller, which may have any length and hold anything. It
ends in one of three ways: it reports a cause and the buffer is as it was; it succeeds, and
then the buffer holds the plaintext and behind it what was there before; or the ciphertext is
longer than the keystream of its algorithm, which no sealing gives. The two openings of a suite
check the tag before they write, and every form checks what it adds before it runs one of them.
-/
namespace AuthEncryption

/-- How an opening ends that works on `buffer` and puts a plaintext to its `place`. -/
inductive Disclosed {α : Type} (buffer : Bytes) (Plaintext : α → Bytes → Prop)
    (place : Bytes → Bytes) (Beyond : Prop) : Except Failure α × Bytes → Prop
  | refused (cause : Error) : Disclosed buffer Plaintext place Beyond (.error (.error cause), buffer)
  | opened {a : α} {m : Bytes} (hroom : m.length ≤ buffer.length) (hplain : Plaintext a m) :
    Disclosed buffer Plaintext place Beyond (.ok a, place m)
  | stopped (f : Fault) (after : Bytes) (hbeyond : Beyond) :
    Disclosed buffer Plaintext place Beyond (.error (.fault f), after)

/-- A plaintext at the front of a buffer. -/
def atFront (buffer m : Bytes) : Bytes := m ++ buffer.drop m.length

namespace Disclosed

variable {α β : Type} {buffer after : Bytes} {P : α → Bytes → Prop} {Q : β → Bytes → Prop}
  {place : Bytes → Bytes} {Beyond Beyond' : Prop} {result : Except Failure α}

theorem of_refused_or_stopped {outcome : Except Failure α × Bytes} {cause : Error} {f : Fault}
    (h : outcome = (.error (.error cause), buffer) ∨ outcome.1 = .error (.fault f))
    (hbeyond : Beyond) : Disclosed buffer P place Beyond outcome := by
  obtain ⟨result, after⟩ := outcome
  obtain hrefused | hstopped := h
  · cases hrefused
    exact refused cause
  · cases hstopped
    exact stopped f after hbeyond

theorem mono {outcome : Except Failure α × Bytes} (h : Disclosed buffer P place Beyond outcome)
    (hbeyond : Beyond → Beyond') : Disclosed buffer P place Beyond' outcome := by
  cases h with
  | refused cause => exact refused cause
  | opened hroom hplain => exact opened hroom hplain
  | stopped f after hstop => exact stopped f after (hbeyond hstop)

/-- A form may give another value and know more of the plaintext. -/
theorem map (h : Disclosed buffer P place Beyond (result, after)) (f : α → β)
    (hplain : ∀ a m, P a m → Q (f a) m) :
    Disclosed buffer Q place Beyond (result.map f, after) := by
  cases h with
  | refused cause => exact refused cause
  | opened hroom ha => exact opened hroom (hplain _ _ ha)
  | stopped g _ hstop => exact stopped g after hstop

end Disclosed

/-! ## Where the keystream ends -/

namespace Cipher

variable {c : Cipher} {first : UInt64} {used : Nat}
  (hfirst : c.narrow = true → first.toNat ≤ UInt32.size) (hused : c.Within first used)
include hfirst hused

theorem runOn_maskBuffer_beyond {data : Bytes} (h : ¬ c.Within first (used + data.length)) :
    ((c.positioned first used).maskBuffer.runOn data).1 = .error (.fault .counterExhausted) := by
  simp [maskBuffer, complete_mask_beyond hfirst hused h]

end Cipher

namespace Composition

variable (k : Composition) {c : Cipher} {first : UInt64} {used : Nat}
  (hfirst : c.narrow = true → first.toNat ≤ UInt32.size)
  (hkey : c.Within first (used + k.payloadOffset)) {text : Bytes}
  (h : ¬ c.Within first (used + k.payloadOffset + text.length)) (tag ad : Bytes) (context : String)
include hfirst hkey h

/-- The tag is checked first, also where the keystream does not reach the end. -/
theorem openInPlace_beyond :
    (k.openInPlace (c.positioned first used) tag ad context).runOn text =
        (.error (.error (.forgedOrCorrupted context)), text) ∨
      ((k.openInPlace (c.positioned first used) tag ad context).runOn text).1 =
        .error (.fault .counterExhausted) := by
  rw [k.runOn_openInPlace_checked hfirst hkey]
  split
  · right
    simp only [Cipher.runOn_maskBuffer_beyond hfirst hkey h, Failure.map_error]
  · exact Or.inl rfl

theorem openTo_beyond {buffer : Bytes} (hroom : text.length ≤ buffer.length) :
    (k.openTo (c.positioned first used) text tag ad context).runOn buffer =
        (.error (.error (.forgedOrCorrupted context)), buffer) ∨
      ((k.openTo (c.positioned first used) text tag ad context).runOn buffer).1 =
        .error (.fault .counterExhausted) := by
  rw [k.runOn_openTo_checked hfirst hkey]
  split
  · right
    simp only [Cipher.runOn_maskInto_beyond hfirst hkey hroom h, Failure.map_error]
  · exact Or.inl rfl

end Composition

/-! ## The openings of a suite -/

namespace Suite

/-- What a body and a tag were sealed from. -/
structure IsPlaintext (suite : Suite) (ad body : Bytes) (t : Tag 16) (m : Bytes) : Prop where
  length_eq : m.length = body.length
  sealed : (suite.sealInPlace ad).runOn m = (.ok t, body)

variable {suite : Suite} {text : Bytes} {ad : Bytes} {t : Tag 16}

theorem isPlaintext_mask (h : suite.Covers text.length) (ht : suite.tag ad text = t) :
    suite.IsPlaintext ad text t (suite.mask text) where
  length_eq := suite.length_mask text
  sealed := by
    have hmask : suite.Covers (suite.mask text).length := by rwa [length_mask]
    rw [runOn_sealInPlace hmask, mask_mask, ht]

/-- A cipher before its first block has keystream for the key at least. -/
theorem within_of_covers {k : Composition} {c : Cipher} {n : Nat}
    (hstart : (keystream k c).Covers 0) (h : ¬ (keystream k c).Covers n) :
    c.positioned 0 0 = c ∧ c.Within 0 (0 + k.payloadOffset) ∧
      ¬ c.Within 0 (0 + k.payloadOffset + n) := by
  obtain ⟨hnext, hpending, hkey⟩ := hstart
  refine ⟨Cipher.positioned_zero hnext hpending, by rwa [Nat.zero_add], fun hwithin => ?_⟩
  exact h ⟨hnext, hpending, by rwa [Nat.zero_add] at hwithin⟩

variable (hstart : suite.Covers 0) (text ad : Bytes) (t : Tag 16) (context : String)
include hstart

theorem disclosed_openInPlace :
    Disclosed text (fun _ m => suite.IsPlaintext ad text t m) id (¬ suite.Covers text.length)
      ((suite.openInPlace t ad context).runOn text) := by
  by_cases h : suite.Covers text.length
  · rw [runOn_openInPlace h]
    split
    · next ht => exact .opened (Nat.le_of_eq (suite.length_mask text)) (isPlaintext_mask h ht)
    · exact .refused _
  · cases suite with
    | keystream k c =>
      obtain ⟨hpositioned, hkey, hbeyond⟩ := within_of_covers hstart h
      have hopen := k.openInPlace_beyond (fun _ => by decide) hkey hbeyond t.toList ad context
      rw [hpositioned] at hopen
      exact .of_refused_or_stopped hopen h
    | counterMode key nonce => exact absurd trivial h

theorem disclosed_openTo {buffer : Bytes} (hroom : text.length ≤ buffer.length) :
    Disclosed buffer (fun _ m => suite.IsPlaintext ad text t m) (atFront buffer)
      (¬ suite.Covers text.length) ((suite.openTo text t ad context).runOn buffer) := by
  by_cases h : suite.Covers text.length
  · rw [runOn_openTo h ad hroom]
    split
    · next ht =>
      have hlen := suite.length_mask text
      rw [← hlen] at hroom ⊢
      exact .opened hroom (isPlaintext_mask h ht)
    · exact .refused _
  · cases suite with
    | keystream k c =>
      obtain ⟨hpositioned, hkey, hbeyond⟩ := within_of_covers hstart h
      have hopen := k.openTo_beyond (fun _ => by decide) hkey hbeyond t.toList ad context hroom
      rw [hpositioned] at hopen
      exact .of_refused_or_stopped hopen h
    | counterMode key nonce => exact absurd trivial h

end Suite

/-! ## The forms of an algorithm -/

namespace Aead

variable (a : Aead) (nonce : Nonce a.nonceSize) (ad buffer : Bytes)

/-- Only a body that no message seals to is longer than the keystream. -/
theorem lt_of_not_covers {n : Nat} (h : ¬ (a.suite nonce).Covers n) : a.messageMax < n :=
  Nat.lt_of_not_le fun hle => h (a.covers_suite nonce hle)

theorem disclosed_openInPlaceDetached (t : Tag 16) :
    Disclosed buffer (fun _ m => (a.suite nonce).IsPlaintext ad buffer t m) id
      (a.messageMax < buffer.length) ((a.openInPlaceDetached nonce t ad).runOn buffer) := by
  have hstart := a.covers_suite nonce (Nat.zero_le a.messageMax)
  exact (Suite.disclosed_openInPlace hstart buffer ad t a.name).mono (a.lt_of_not_covers nonce)

theorem disclosed_openDetachedInto (body : Bytes) (t : Tag 16) :
    Disclosed buffer (fun _ m => (a.suite nonce).IsPlaintext ad body t m) (atFront buffer)
      (a.messageMax < body.length) ((a.openDetachedInto nonce body t ad).runOn buffer) := by
  rw [runOn_openDetachedInto]
  split
  · exact .refused _
  · next hroom =>
    have hstart := a.covers_suite nonce (Nat.zero_le a.messageMax)
    have hopen := Suite.disclosed_openTo hstart body ad t a.name (Nat.le_of_not_lt hroom)
    exact hopen.mono (a.lt_of_not_covers nonce)

/-- What a combined string was sealed from. -/
def IsPlaintext (x m : Bytes) : Prop :=
  ∃ body t, x = body ++ t.toList ∧ (a.suite nonce).IsPlaintext ad body t m

theorem disclosed_openInto (x : Bytes) :
    Disclosed buffer (fun n m => n = m.length ∧ a.IsPlaintext nonce ad x m) (atFront buffer)
      (a.messageMax + tagSize < x.length) ((a.openInto nonce x ad).runOn buffer) := by
  by_cases hlong : tagSize ≤ x.length
  · obtain ⟨body, t, rfl⟩ := FixedBytes.exists_append (show 16 ≤ x.length from hlong)
    have hopen := a.disclosed_openDetachedInto nonce ad buffer body t
    rw [runOn_openInto_append, List.length_append, FixedBytes.length_toList]
    refine (hopen.map (fun _ => body.length) fun _ m hm => ?_).mono (Nat.add_lt_add_right · 16)
    exact ⟨hm.length_eq.symm, body, t, rfl, hm⟩
  · rw [a.runOn_openInto_of_short nonce ad (Nat.lt_of_not_le hlong)]
    exact .refused _

theorem disclosed_openInPlace :
    Disclosed buffer (fun _ m => a.IsPlaintext nonce ad buffer m) id
      (a.messageMax + tagSize < buffer.length) ((a.openInPlace nonce ad).runOn buffer) := by
  by_cases hlong : tagSize ≤ buffer.length
  · obtain ⟨body, t, rfl⟩ := FixedBytes.exists_append (show 16 ≤ buffer.length from hlong)
    have hopen := a.disclosed_openInPlaceDetached nonce ad body t
    rw [runOn_openInPlace_append, List.length_append, FixedBytes.length_toList]
    generalize (a.openInPlaceDetached nonce t ad).runOn body = outcome at hopen
    cases hopen with
    | refused cause => exact .refused cause
    | @opened _ m hroom hm =>
      have hcut : (id m ++ t.toList).take body.length = id m := List.take_left' hm.length_eq
      simp only [hcut]
      exact .opened (by rw [List.length_append]; omega) ⟨body, t, rfl, hm⟩
    | stopped f after hbeyond => exact .stopped f _ (Nat.add_lt_add_right hbeyond 16)
  · rw [a.runOn_openInPlace_of_short nonce ad (Nat.lt_of_not_le hlong)]
    exact .refused _

end Aead

/-! ## The forms of a box -/

namespace SecretBox

variable (box : SecretBox) (nonce : Nonce 24) (buffer : Bytes)

def suite : Suite := .keystream .secretBox (box.keystream nonce)

/-- The block numbers of a box do not run out. -/
theorem covers_suite (n : Nat) : (box.suite nonce).Covers n := by
  obtain ⟨cipher, key⟩ := box
  cases cipher with
  | xsalsa20 => exact ⟨rfl, rfl, fun hnarrow => by cases hnarrow⟩
  | xchacha20 => exact ⟨rfl, rfl, fun hnarrow => by cases hnarrow⟩

theorem disclosed_openInPlaceDetached (t : Tag 16) :
    Disclosed buffer (fun _ m => (box.suite nonce).IsPlaintext [] buffer t m) id False
      ((box.openInPlaceDetached nonce t).runOn buffer) :=
  (Suite.disclosed_openInPlace (box.covers_suite nonce 0) buffer [] t box.name).mono
    fun hbeyond => hbeyond (box.covers_suite nonce _)

/-- What a combined string was sealed from. -/
def IsPlaintext (x m : Bytes) : Prop :=
  ∃ body t, x = t.toList ++ body ∧ (box.suite nonce).IsPlaintext [] body t m

theorem runOn_openInto_prepend (t : Tag 16) (body : Bytes) :
    (box.openInto nonce (t.toList ++ body)).runOn buffer =
      if buffer.length < body.length then
        (.error (.error (.bufferTooShort box.name body.length buffer.length)), buffer)
      else
        ((((box.suite nonce).openTo body t [] box.name).runOn buffer).1.map fun _ => body.length,
          (((box.suite nonce).openTo body t [] box.name).runOn buffer).2) := by
  have hlong : ¬ 16 + body.length < 16 := by omega
  have hsplit : splitBytes (t.toList ++ body) 16 = .ok (t.toList, body) := by
    simp [splitBytes]
  have hopen : (box.suite nonce).openTo body t [] box.name =
      Composition.secretBox.openTo (box.keystream nonce) body t.toList [] box.name := rfl
  by_cases hshort : buffer.length < body.length <;>
    simp [openInto, Check.ciphertextLength, tagSize, hlong, hsplit, Check.bufferLength, hshort,
      hopen]

theorem disclosed_openInto (x : Bytes) :
    Disclosed buffer (fun n m => n = m.length ∧ box.IsPlaintext nonce x m) (atFront buffer) False
      ((box.openInto nonce x).runOn buffer) := by
  by_cases hlong : tagSize ≤ x.length
  · obtain ⟨t, body, rfl⟩ := FixedBytes.exists_prepend (show 16 ≤ x.length from hlong)
    rw [runOn_openInto_prepend]
    split
    · exact .refused _
    · next hroom =>
      have hopen := Suite.disclosed_openTo (box.covers_suite nonce 0) body [] t box.name
        (Nat.le_of_not_lt hroom)
      refine (hopen.map (fun _ => body.length) fun _ m hm => ?_).mono
        fun hbeyond => hbeyond (box.covers_suite nonce _)
      exact ⟨hm.length_eq.symm, body, t, rfl, hm⟩
  · have hshort : x.length < tagSize := Nat.lt_of_not_le hlong
    have hrun : (box.openInto nonce x).runOn buffer =
        (.error (.error (.cipherTooShort box.name tagSize x.length)), buffer) := by
      simp [openInto, Check.ciphertextLength, hshort]
    rw [hrun]
    exact .refused _

end SecretBox

/-- No opening of an algorithm or a box releases a plaintext that was not verified. Whatever
buffer the caller gives, an opening that reports a cause leaves every byte of it as it was. One
that succeeds puts a string to the front of the buffer, or in its place, which seals to the
body and the tag that were given, and leaves the bytes behind it; a form that returns a length
returns that of this string. Only a body longer than any message stops an opening otherwise,
and none does so for a box. -/
theorem openings_disclose_only_plaintext :
    (∀ (a : Aead) (nonce : Nonce a.nonceSize) (ad buffer : Bytes),
      (∀ x, Disclosed buffer (fun n m => n = m.length ∧ a.IsPlaintext nonce ad x m)
        (atFront buffer) (a.messageMax + Aead.tagSize < x.length)
        ((a.openInto nonce x ad).runOn buffer)) ∧
      (∀ body t, Disclosed buffer (fun _ m => (a.suite nonce).IsPlaintext ad body t m)
        (atFront buffer) (a.messageMax < body.length)
        ((a.openDetachedInto nonce body t ad).runOn buffer)) ∧
      Disclosed buffer (fun _ m => a.IsPlaintext nonce ad buffer m) id
        (a.messageMax + Aead.tagSize < buffer.length) ((a.openInPlace nonce ad).runOn buffer) ∧
      ∀ t, Disclosed buffer (fun _ m => (a.suite nonce).IsPlaintext ad buffer t m) id
        (a.messageMax < buffer.length) ((a.openInPlaceDetached nonce t ad).runOn buffer)) ∧
    ∀ (box : SecretBox) (nonce : Nonce 24) (buffer : Bytes),
      (∀ x, Disclosed buffer (fun n m => n = m.length ∧ box.IsPlaintext nonce x m)
        (atFront buffer) False ((box.openInto nonce x).runOn buffer)) ∧
      ∀ t, Disclosed buffer (fun _ m => (box.suite nonce).IsPlaintext [] buffer t m) id False
        ((box.openInPlaceDetached nonce t).runOn buffer) := by
  refine ⟨fun a nonce ad buffer => ⟨fun x => ?_, fun body t => ?_, ?_, fun t => ?_⟩,
    fun box nonce buffer => ⟨fun x => ?_, fun t => ?_⟩⟩
  · exact a.disclosed_openInto nonce ad buffer x
  · exact a.disclosed_openDetachedInto nonce ad buffer body t
  · exact a.disclosed_openInPlace nonce ad buffer
  · exact a.disclosed_openInPlaceDetached nonce ad buffer t
  · exact box.disclosed_openInto nonce buffer x
  · exact box.disclosed_openInPlaceDetached nonce buffer t

end AuthEncryption
