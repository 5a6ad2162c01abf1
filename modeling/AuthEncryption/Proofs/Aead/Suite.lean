import AuthEncryption.Proofs.Composition
import AuthEncryption.Aead.Basic

/-!
# Suites

What one key and one nonce do to a message has two parts: a mask, which is its own
inverse, and a tag of the masked text. The three operations on buffers are described
by these two functions, for the compositions and for counter mode alike, as long as
the suite has keystream for the whole message.
-/
namespace AuthEncryption

namespace Gcm

variable (key : Key) (nonce : FixedBytes 12)

/-- The encrypted counter blocks behind `count`. -/
def keystream : UInt32 → Nat → Bytes
  | _, 0 => []
  | count, blocks + 1 =>
    (key.schedule.encrypt (counterBlock nonce (count + 1))).toList ++ keystream (count + 1) blocks

@[simp] theorem length_keystream (count : UInt32) (blocks : Nat) :
    (keystream key nonce count blocks).length = 16 * blocks := by
  induction blocks generalizing count with
  | zero => rfl
  | succ blocks ih => simp [keystream, ih, Nat.mul_succ, Nat.add_comm]

/-- Piece by piece is the exclusive or with the whole keystream. -/
theorem maskPieces_eq_xor (count : UInt32) {blocks : Nat} {data : Bytes}
    (h : data.length ≤ 16 * blocks) :
    maskPieces key nonce count (Bytes.takePieces 16 blocks data) =
      Bytes.xor data (keystream key nonce count blocks) := by
  induction blocks generalizing count data with
  | zero => simp [Bytes.takePieces, maskPieces, keystream, Bytes.xor]
  | succ blocks ih =>
    have hrest : (data.drop 16).length ≤ 16 * blocks := by
      rw [List.length_drop]
      omega
    rw [Bytes.takePieces, maskPieces, ih (count + 1) hrest, keystream, Bytes.xor_append_right,
      FixedBytes.length_toList]

theorem mask_eq_xor (data : Bytes) :
    mask key nonce data = Bytes.xor data (keystream key nonce 1 ((data.length + 15) / 16)) :=
  maskPieces_eq_xor key nonce 1 (by show data.length ≤ 16 * ((data.length + 15) / 16); omega)

@[simp] theorem length_mask (data : Bytes) : (mask key nonce data).length = data.length := by
  rw [mask_eq_xor, Bytes.length_xor, length_keystream]
  omega

theorem mask_mask (data : Bytes) : mask key nonce (mask key nonce data) = data := by
  rw [mask_eq_xor, length_mask, mask_eq_xor,
    Bytes.xor_xor_cancel (by rw [length_keystream]; omega)]

end Gcm

namespace Suite

/-- The suite has keystream for a message of `n` bytes. -/
def Covers : Suite → Nat → Prop
  | keystream k c, n => c.nextBlock = 0 ∧ c.pending = [] ∧ c.Within 0 (k.payloadOffset + n)
  | counterMode _ _, _ => True

/-- The masked text of a message, and the message of a masked text. -/
def mask : Suite → Bytes → Bytes
  | keystream k c, text => Bytes.xor text (c.stretch 0 k.payloadOffset text.length)
  | counterMode key nonce, text => Gcm.mask key nonce text

/-- The tag of associated data and a masked text. -/
def tag : Suite → Bytes → Bytes → Tag 16
  | keystream k c, ad, body => k.tag (Composition.oneTimeMac c 0 0) ad body
  | counterMode key nonce, ad, body => Gcm.tag key nonce ad body

@[simp] theorem length_mask (suite : Suite) (text : Bytes) :
    (suite.mask text).length = text.length := by
  cases suite <;> simp [mask]

theorem mask_mask (suite : Suite) (text : Bytes) : suite.mask (suite.mask text) = text := by
  cases suite with
  | keystream k c =>
    simp only [mask, Bytes.length_xor, Cipher.length_stretch, Nat.min_self]
    exact Bytes.xor_xor_cancel (by simp)
  | counterMode key nonce => exact Gcm.mask_mask key nonce text

variable {suite : Suite} {text : Bytes} (h : suite.Covers text.length) (ad : Bytes)
include h

theorem runOn_sealInPlace :
    (suite.sealInPlace ad).runOn text =
      (.ok (suite.tag ad (suite.mask text)), suite.mask text) := by
  cases suite with
  | keystream k c =>
    obtain ⟨hnext, hpending, hwithin⟩ := h
    have hall : c.Within 0 (0 + k.payloadOffset + text.length) := by rwa [Nat.zero_add]
    have hseal := k.runOn_sealInPlace (fun _ => by decide) hall ad
    rwa [Cipher.positioned_zero hnext hpending, Nat.zero_add] at hseal
  | counterMode key nonce =>
    simp [sealInPlace, Gcm.sealInPlace, Gcm.maskBuffer, mask, tag, Except.map]

theorem runOn_openInPlace (t : Tag 16) (context : String) :
    (suite.openInPlace t ad context).runOn text =
      if suite.tag ad text = t then (.ok (), suite.mask text)
      else (.error (.error (.forgedOrCorrupted context)), text) := by
  cases suite with
  | keystream k c =>
    obtain ⟨hnext, hpending, hwithin⟩ := h
    have hall : c.Within 0 (0 + k.payloadOffset + text.length) := by rwa [Nat.zero_add]
    have hopen := k.runOn_openInPlace (fun _ => by decide) hall ad t.toList context
    rw [Cipher.positioned_zero hnext hpending, Nat.zero_add] at hopen
    simpa only [FixedBytes.ext_iff, openInPlace, mask, tag] using hopen
  | counterMode key nonce =>
    by_cases ht : Gcm.tag key nonce ad text = t <;>
      simp [openInPlace, Gcm.openInPlace, Gcm.maskBuffer, Check.authentication, mask, tag, ht,
        ← FixedBytes.ext_iff, Except.mapError]

theorem runOn_openTo {buffer : Bytes} (hroom : text.length ≤ buffer.length) (t : Tag 16)
    (context : String) :
    (suite.openTo text t ad context).runOn buffer =
      if suite.tag ad text = t then (.ok (), suite.mask text ++ buffer.drop text.length)
      else (.error (.error (.forgedOrCorrupted context)), buffer) := by
  cases suite with
  | keystream k c =>
    obtain ⟨hnext, hpending, hwithin⟩ := h
    have hall : c.Within 0 (0 + k.payloadOffset + text.length) := by rwa [Nat.zero_add]
    have hopen := k.runOn_openTo (fun _ => by decide) hall ad hroom t.toList context
    rw [Cipher.positioned_zero hnext hpending, Nat.zero_add] at hopen
    simpa only [FixedBytes.ext_iff, openTo, mask, tag] using hopen
  | counterMode key nonce =>
    by_cases ht : Gcm.tag key nonce ad text = t <;>
      simp [openTo, Gcm.openTo, Gcm.maskBuffer, Check.authentication, mask, tag, ht,
        ← FixedBytes.ext_iff, Except.mapError, OnBuffer.runOn_onFront_copy _ rfl hroom]

end Suite

end AuthEncryption
