import AuthEncryption.Aead.Forms
import AuthEncryption.SecretBox
import AuthEncryption.SecretStream.Chunk

/-!
# Forms that make a string

A form that returns a new string asks for its memory first, and a string that is sealed in place
grows by its tag. No string is longer than `capacityLimit`; to ask for a longer one is a broken
rule. How much memory a string asks for when it grows is its own affair, so that it is a parameter
here.
-/
namespace AuthEncryption

namespace Allocating

variable {α : Type}

/-- Runs a form that returns a new string of `n` bytes. -/
def ofLength (n : Nat) (form : Except Failure α) : Except Failure α := do
  checkCapacity n
  form

/-- Runs a form that returns `more` bytes than it is given. -/
def ofSum (given more : Nat) (form : Except Failure α) : Except Failure α := do
  ofLength (← addSizes given more) form

/-- Runs a form that returns `fewer` bytes than it is given, and refuses what has not so many. -/
def ofDifference (context : String) (given fewer : Nat) (form : Except Failure α) :
    Except Failure α := do
  Check.ciphertextLength context given fewer
  ofLength (← subSizes given fewer) form

end Allocating

namespace Aead

variable (a : Aead) (nonce : Nonce a.nonceSize)

/-- `sealMessage`, with a new string for the ciphertext and the tag. -/
def sealAllocating (plaintext ad : Bytes) : Except Failure Bytes :=
  Allocating.ofSum plaintext.length tagSize (a.sealMessage nonce plaintext ad)

/-- `sealDetached`, with a new string for the ciphertext. -/
def sealDetachedAllocating (plaintext ad : Bytes) : Except Failure (Bytes × Tag 16) :=
  Allocating.ofLength plaintext.length (a.sealDetached nonce plaintext ad)

/-- `sealInPlace`, where the string asks for `capacity` bytes to take the tag. -/
def sealInPlaceGrowing (capacity : Nat) (ad : Bytes) : OnBuffer Unit := do
  let tag ← a.sealInPlaceDetached nonce ad
  checkCapacity capacity
  modify (· ++ tag.toList)

/-- `openMessage`, with a new string for the plaintext. -/
def openAllocating (combined ad : Bytes) : Except Failure Bytes :=
  Allocating.ofDifference a.name combined.length tagSize (a.openMessage nonce combined ad)

/-- `openDetached`, with a new string for the plaintext. -/
def openDetachedAllocating (ciphertext : Bytes) (tag : Tag 16) (ad : Bytes) :
    Except Failure Bytes :=
  Allocating.ofLength ciphertext.length (a.openDetached nonce ciphertext tag ad)

end Aead

namespace SecretBox

variable (box : SecretBox) (nonce : Nonce 24)

/-- `sealMessage`, with a new string for the tag and the ciphertext. -/
def sealAllocating (plaintext : Bytes) : Except Failure Bytes :=
  Allocating.ofSum plaintext.length tagSize (box.sealMessage nonce plaintext)

/-- `sealDetached`, with a new string for the ciphertext. -/
def sealDetachedAllocating (plaintext : Bytes) : Except Failure (Bytes × Tag 16) :=
  Allocating.ofLength plaintext.length (box.sealDetached nonce plaintext)

/-- `openMessage`, with a new string for the plaintext. -/
def openAllocating (boxed : Bytes) : Except Failure Bytes :=
  Allocating.ofDifference box.name boxed.length tagSize (box.openMessage nonce boxed)

/-- `openDetached`, with a new string for the plaintext. -/
def openDetachedAllocating (ciphertext : Bytes) (tag : Tag 16) : Except Failure Bytes :=
  Allocating.ofLength ciphertext.length (box.openDetached nonce ciphertext tag)

end SecretBox

namespace SecretStream

/-- `push`, with a new string for the chunk. -/
def pushAllocating (plaintext ad : Bytes) (tag : ChunkTag) : Session SecretStream Bytes := do
  checkCapacity (← addSizes plaintext.length overhead)
  push plaintext ad tag

/-- `pull`, with a new string for the plaintext. A chunk that is too short gets an empty one. -/
def pullAllocating (chunk ad : Bytes) : Session SecretStream (Bytes × ChunkTag) := do
  checkCapacity (chunk.length - overhead)
  pull chunk ad

end SecretStream

end AuthEncryption
