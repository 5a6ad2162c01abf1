import AuthEncryption.Aead.Basic

/-!
# The forms of sealing and opening

Combined forms carry the tag behind the ciphertext; `Into` forms write to the
front of a caller's buffer; the others return new strings. All of them run one
of the three operations of `AuthEncryption.Aead.Basic`, so they agree.
-/
namespace AuthEncryption.Aead

variable (a : Aead) (nonce : Nonce a.nonceSize)

/-- Encrypts into the front of the buffer, the tag behind the ciphertext, and
returns how many bytes that took. -/
def sealInto (plaintext ad : Bytes) : OnBuffer Nat := do
  let total ← addSizes plaintext.length tagSize
  Check.bufferLength a.name (← OnBuffer.length) total
  let tag ← OnBuffer.onFront plaintext.length do
    OnBuffer.copy plaintext
    a.sealInPlaceDetached nonce ad
  OnBuffer.onBack plaintext.length (OnBuffer.onFront tagSize (OnBuffer.copy tag.toList))
  return total

/-- Replaces the plaintext in the buffer by the ciphertext and its tag. -/
def sealInPlace (ad : Bytes) : OnBuffer Unit := do
  let tag ← a.sealInPlaceDetached nonce ad
  modify (· ++ tag.toList)

/-- Encrypts, giving the ciphertext and its tag. -/
def sealDetached (plaintext ad : Bytes) : Except Failure (Bytes × Tag 16) :=
  let (result, ciphertext) := (a.sealInPlaceDetached nonce ad).runOn plaintext
  result.map fun tag => (ciphertext, tag)

/-- Encrypts, giving the ciphertext with its tag behind it. -/
def sealMessage (plaintext ad : Bytes) : Except Failure Bytes := do
  let _ ← addSizes plaintext.length tagSize
  let (result, sealed) := (a.sealInPlace nonce ad).runOn plaintext
  result.map fun _ => sealed

/-- The ciphertext and the tag of a combined string. -/
def splitTag (combined : Bytes) : Except Failure (Bytes × Tag 16) := do
  Check.ciphertextLength a.name combined.length tagSize
  let (body, tag) ← splitBytes combined (← subSizes combined.length tagSize)
  return (body, ← Tag.ofBytes 16 tag)

/-- Decrypts a combined string into the front of the buffer and returns the
length of the plaintext. -/
def openInto (combined ad : Bytes) : OnBuffer Nat := do
  let (body, tag) ← a.splitTag combined
  a.openDetachedInto nonce body tag ad
  return body.length

/-- Replaces the combined string in the buffer by its plaintext. -/
def openInPlace (ad : Bytes) : OnBuffer Unit := do
  let (body, tag) ← a.splitTag (← get)
  OnBuffer.onFront body.length (a.openInPlaceDetached nonce tag ad)
  modify (·.take body.length)

def openDetached (ciphertext : Bytes) (tag : Tag 16) (ad : Bytes) : Except Failure Bytes :=
  let (result, plaintext) :=
    (a.openDetachedInto nonce ciphertext tag ad).runOn (Bytes.zeros ciphertext.length)
  result.map fun _ => plaintext

def openMessage (combined ad : Bytes) : Except Failure Bytes := do
  Check.ciphertextLength a.name combined.length tagSize
  let size ← subSizes combined.length tagSize
  let (result, plaintext) := (a.openInto nonce combined ad).runOn (Bytes.zeros size)
  result.map fun _ => plaintext

end AuthEncryption.Aead
