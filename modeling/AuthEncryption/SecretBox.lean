import AuthEncryption.Composition
import AuthEncryption.Secret

/-!
# Secret boxes

Authenticated encryption without associated data, under a 24-byte nonce. The
combined form carries the tag in front of the ciphertext.
-/
namespace AuthEncryption

inductive BoxCipher where
  | xsalsa20
  | xchacha20
deriving DecidableEq, Repr

structure SecretBox where
  cipher : BoxCipher
  key : FixedBytes 32

namespace SecretBox

def keySize : Nat := 32

def nonceSize : Nat := 24

def tagSize : Nat := 16

/-- The longest message: a size less the tag. -/
def messageMax : Nat := UInt64.size - 1 - 16

def randomKey : Random (Secret keySize) := Secret.random keySize

def randomNonce : Random (Nonce nonceSize) := Nonce.random nonceSize

/-- The box of a raw shared secret, which is never used as a key itself. -/
def ofSharedSecret (shared : FixedBytes 32) : SecretBox :=
  { cipher := .xsalsa20, key := Family.salsa.subkey shared (FixedBytes.zero 16) }

/-- The name under which a box reports its causes. -/
def name (box : SecretBox) : String :=
  match box.cipher with
  | .xsalsa20 => "XSalsa20Poly1305"
  | .xchacha20 => "XChaCha20Poly1305"

def keystream (box : SecretBox) (nonce : Nonce 24) : Cipher :=
  match box.cipher with
  | .xsalsa20 => .xsalsa box.key nonce
  | .xchacha20 => .xchacha box.key nonce

def wipe (box : SecretBox) : SecretBox := { box with key := FixedBytes.zero 32 }

variable (box : SecretBox) (nonce : Nonce 24)

/-- Encrypts the buffer and returns its tag. -/
def sealInPlaceDetached : OnBuffer (Tag 16) := do
  Check.messageLength box.name (← OnBuffer.length) messageMax
  Composition.secretBox.sealInPlace (box.keystream nonce) []

/-- Checks the tag of the buffer, then decrypts it. -/
def openInPlaceDetached (tag : Tag 16) : OnBuffer Unit :=
  Composition.secretBox.openInPlace (box.keystream nonce) tag.toList [] box.name

/-- Encrypts into the front of the buffer, the tag before the ciphertext, and
returns how many bytes that took. -/
def sealInto (plaintext : Bytes) : OnBuffer Nat := do
  let total ← addSizes plaintext.length tagSize
  Check.bufferLength box.name (← OnBuffer.length) total
  OnBuffer.onFront total do
    let tag ← OnBuffer.onBack tagSize do
      OnBuffer.copy plaintext
      box.sealInPlaceDetached nonce
    OnBuffer.onFront tagSize (OnBuffer.copy tag.toList)
  return total

/-- Decrypts a combined string into the front of the buffer and returns the
length of the plaintext. -/
def openInto (boxed : Bytes) : OnBuffer Nat := do
  Check.ciphertextLength box.name boxed.length tagSize
  let (tag, ciphertext) ← splitBytes boxed tagSize
  Check.bufferLength box.name (← OnBuffer.length) ciphertext.length
  Composition.secretBox.openTo (box.keystream nonce) ciphertext tag [] box.name
  return ciphertext.length

/-- Encrypts, giving the ciphertext and its tag. -/
def sealDetached (plaintext : Bytes) : Except Failure (Bytes × Tag 16) :=
  let (result, ciphertext) := (box.sealInPlaceDetached nonce).runOn plaintext
  result.map fun tag => (ciphertext, tag)

/-- Encrypts, giving the tag and the ciphertext behind it. -/
def sealMessage (plaintext : Bytes) : Except Failure Bytes := do
  let total ← addSizes plaintext.length tagSize
  let (result, boxed) := (box.sealInto nonce plaintext).runOn (Bytes.zeros total)
  result.map fun _ => boxed

def openDetached (ciphertext : Bytes) (tag : Tag 16) : Except Failure Bytes :=
  let (result, plaintext) :=
    (Composition.secretBox.openTo (box.keystream nonce) ciphertext tag.toList [] box.name).runOn
      (Bytes.zeros ciphertext.length)
  result.map fun _ => plaintext

def openMessage (boxed : Bytes) : Except Failure Bytes := do
  Check.ciphertextLength box.name boxed.length tagSize
  let size ← subSizes boxed.length tagSize
  let (result, plaintext) := (box.openInto nonce boxed).runOn (Bytes.zeros size)
  result.map fun _ => plaintext

end SecretBox

end AuthEncryption
