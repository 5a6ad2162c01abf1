import AuthEncryption.Proofs.Effects
import AuthEncryption.Proofs.Keystream.Position
import AuthEncryption.Composition

/-!
# What a composition does with its keystream

A composition whose cipher is positioned takes the one-time key from the bytes that
come next and masks the payload with those behind its offset, as long as the keystream
reaches that far. Sealing and opening use the same key and the same payload keystream,
so opening accepts exactly the tag that sealing gives and undoes the mask.
-/
namespace AuthEncryption

namespace Cipher

/-- A stretch of the keystream as a string of known length. -/
def stretchFixed (c : Cipher) (first : UInt64) (offset n : Nat) : FixedBytes n :=
  ⟨c.stretch first offset n, length_stretch ..⟩

theorem front_stretchFixed (c : Cipher) (first : UInt64) (offset : Nat) {m n : Nat} (h : m ≤ n) :
    (c.stretchFixed first offset n).front m = c.stretchFixed first offset m := by
  apply FixedBytes.ext
  rw [FixedBytes.toList_front _ h]
  exact take_stretch _ _ _ h

theorem back_stretchFixed (c : Cipher) (first : UInt64) (offset : Nat) {m n : Nat} (h : m ≤ n) :
    (c.stretchFixed first offset n).back m = c.stretchFixed first (offset + (n - m)) m := by
  apply FixedBytes.ext
  rw [FixedBytes.toList_back _ h]
  show (c.stretch first offset n).drop (n - m) = c.stretch first (offset + (n - m)) m
  rw [drop_stretch _ _ _ (Nat.sub_le ..), Nat.sub_sub_self h]

variable {c : Cipher} {first : UInt64} {used : Nat}
  (hfirst : c.narrow = true → first.toNat ≤ UInt32.size)
include hfirst

theorem draw_within {n : Nat} (h : c.Within first (used + n)) :
    (c.positioned first used).draw n = (c.stretch first used n, c.positioned first (used + n)) := by
  rw [draw_positioned hfirst (h.mono (Nat.le_add_right ..)), reached_of_within h,
    Nat.add_sub_cancel_left]

theorem drawFixed_within {n : Nat} (h : c.Within first (used + n)) :
    (c.positioned first used).drawFixed n =
      .ok (c.stretchFixed first used n, c.positioned first (used + n)) := by
  simp [drawFixed, draw_within hfirst h, stretchFixed]

theorem runOn_maskBuffer {data : Bytes} (h : c.Within first (used + data.length)) :
    (c.positioned first used).maskBuffer.runOn data =
      (.ok (c.positioned first (used + data.length)),
        Bytes.xor data (c.stretch first used data.length)) := by
  simp [maskBuffer, mask_within hfirst h, Except.map]

theorem runOn_maskInto {source buffer : Bytes} (hroom : source.length ≤ buffer.length)
    (h : c.Within first (used + source.length)) :
    ((c.positioned first used).maskInto source).runOn buffer =
      (.ok (c.positioned first (used + source.length)),
        Bytes.xor source (c.stretch first used source.length) ++ buffer.drop source.length) := by
  simp [maskInto, hroom, OnBuffer.runOn_onFront_copy _ rfl hroom, runOn_maskBuffer hfirst h]

/-- A string that asks for more keystream than there is cannot be masked. -/
theorem runOn_maskInto_beyond (hused : c.Within first used) {source buffer : Bytes}
    (hroom : source.length ≤ buffer.length) (h : ¬ c.Within first (used + source.length)) :
    (((c.positioned first used).maskInto source).runOn buffer).1 =
      .error (.fault .counterExhausted) := by
  have hstuck := complete_mask_beyond hfirst hused h
  simp [maskInto, hroom, OnBuffer.runOn_onFront_copy _ rfl hroom, maskBuffer, hstuck]

end Cipher

namespace Composition

variable (k : Composition) {c : Cipher} {first : UInt64} {used : Nat}
  (hfirst : c.narrow = true → first.toNat ≤ UInt32.size)

/-- The one-time key of a composition: the bytes of the keystream that come next. -/
def oneTimeMac (c : Cipher) (first : UInt64) (used : Nat) : Poly1305 :=
  .new (c.stretchFixed first used 32)

include hfirst

theorem authenticator_positioned (h : c.Within first (used + k.payloadOffset)) :
    k.authenticator (c.positioned first used) =
      .ok (oneTimeMac c first used, c.positioned first (used + k.payloadOffset)) := by
  have hkey : (c.stretchFixed first used k.payloadOffset).front 32 =
      c.stretchFixed first used 32 :=
    c.front_stretchFixed first used k.keySize_le_payloadOffset
  simp only [authenticator, Cipher.drawFixed_within hfirst h, oneTimeMac, ← hkey]
  rfl

/-! ## The tag comes first -/

theorem runOn_openInPlace_checked (hkey : c.Within first (used + k.payloadOffset))
    (tag ad : Bytes) (context : String) (text : Bytes) :
    (k.openInPlace (c.positioned first used) tag ad context).runOn text =
      if (k.tag (oneTimeMac c first used) ad text).toList = tag then
        let masked := (c.positioned first (used + k.payloadOffset)).maskBuffer.runOn text
        (masked.1.map fun _ => (), masked.2)
      else (.error (.error (.forgedOrCorrupted context)), text) := by
  have hmac := k.authenticator_positioned hfirst hkey
  rcases hmask : (c.positioned first (used + k.payloadOffset)).maskBuffer.runOn text with
    ⟨result, after⟩
  by_cases htag : (k.tag (oneTimeMac c first used) ad text).toList = tag
  · cases result <;> simp [openInPlace, hmac, Check.authentication, htag, hmask]
  · simp [openInPlace, hmac, Check.authentication, htag]

theorem runOn_openTo_checked (hkey : c.Within first (used + k.payloadOffset))
    (text tag ad : Bytes) (context : String) (buffer : Bytes) :
    (k.openTo (c.positioned first used) text tag ad context).runOn buffer =
      if (k.tag (oneTimeMac c first used) ad text).toList = tag then
        let masked := ((c.positioned first (used + k.payloadOffset)).maskInto text).runOn buffer
        (masked.1.map fun _ => (), masked.2)
      else (.error (.error (.forgedOrCorrupted context)), buffer) := by
  have hmac := k.authenticator_positioned hfirst hkey
  rcases hmask : ((c.positioned first (used + k.payloadOffset)).maskInto text).runOn buffer with
    ⟨result, after⟩
  by_cases htag : (k.tag (oneTimeMac c first used) ad text).toList = tag
  · cases result <;> simp [openTo, hmac, Check.authentication, htag, hmask]
  · simp [openTo, hmac, Check.authentication, htag]

section Payload

variable {text : Bytes} (h : c.Within first (used + k.payloadOffset + text.length)) (ad : Bytes)
include h

theorem runOn_sealInPlace :
    (k.sealInPlace (c.positioned first used) ad).runOn text =
      (let body := Bytes.xor text (c.stretch first (used + k.payloadOffset) text.length)
      (.ok (k.tag (oneTimeMac c first used) ad body), body)) := by
  have hkey := k.authenticator_positioned hfirst (h.mono (Nat.le_add_right ..))
  simp [sealInPlace, hkey, Except.map, Except.mapError, Cipher.runOn_maskBuffer hfirst h]

theorem runOn_openInPlace (tag : Bytes) (context : String) :
    (k.openInPlace (c.positioned first used) tag ad context).runOn text =
      if (k.tag (oneTimeMac c first used) ad text).toList = tag then
        (.ok (), Bytes.xor text (c.stretch first (used + k.payloadOffset) text.length))
      else (.error (.error (.forgedOrCorrupted context)), text) := by
  rw [k.runOn_openInPlace_checked hfirst (h.mono (Nat.le_add_right ..)),
    Cipher.runOn_maskBuffer hfirst h]
  rfl

theorem runOn_openTo {buffer : Bytes} (hroom : text.length ≤ buffer.length) (tag : Bytes)
    (context : String) :
    (k.openTo (c.positioned first used) text tag ad context).runOn buffer =
      if (k.tag (oneTimeMac c first used) ad text).toList = tag then
        (.ok (), Bytes.xor text (c.stretch first (used + k.payloadOffset) text.length) ++
          buffer.drop text.length)
      else (.error (.error (.forgedOrCorrupted context)), buffer) := by
  rw [k.runOn_openTo_checked hfirst (h.mono (Nat.le_add_right ..)),
    Cipher.runOn_maskInto hfirst hroom h]
  rfl

end Payload

end Composition

end AuthEncryption
