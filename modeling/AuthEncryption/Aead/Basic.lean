import AuthEncryption.Composition
import AuthEncryption.Gcm
import AuthEncryption.Secret

/-!
# Authenticated encryption with associated data

Four algorithms, each a key with a nonce length and a largest message. A nonce
turns a key into a suite, on which sealing and opening in place are defined; the
other forms are built from these in `AuthEncryption.Aead.Forms`.
-/
namespace AuthEncryption

inductive Aead where
  /-- ChaCha20-Poly1305 with an 8-byte nonce. -/
  | chacha20Poly1305 (key : FixedBytes 32)
  /-- ChaCha20-Poly1305 with a 12-byte nonce. -/
  | chacha20Poly1305Ietf (key : FixedBytes 32)
  /-- The same under the subkey of a 24-byte nonce. -/
  | xchacha20Poly1305Ietf (key : FixedBytes 32)
  /-- AES-256 in counter mode with the field hash. -/
  | aes256Gcm (key : Gcm.Key)

/-- What a key and a nonce make: all that sealing one message needs. -/
inductive Suite where
  | keystream (composition : Composition) (cipher : Cipher)
  | counterMode (key : Gcm.Key) (nonce : FixedBytes 12)

namespace Suite

/-- Masks the buffer and returns its tag. -/
def sealInPlace (suite : Suite) (ad : Bytes) : OnBuffer (Tag 16) :=
  match suite with
  | keystream composition cipher => composition.sealInPlace cipher ad
  | counterMode key nonce => Gcm.sealInPlace key nonce ad

/-- Unmasks the buffer if the tag belongs to it. -/
def openInPlace (suite : Suite) (tag : Tag 16) (ad : Bytes) (context : String) : OnBuffer Unit :=
  match suite with
  | keystream composition cipher => composition.openInPlace cipher tag.toList ad context
  | counterMode key nonce => Gcm.openInPlace key nonce tag.toList ad context

/-- Unmasks a ciphertext into the front of the buffer if the tag belongs to it. -/
def openTo (suite : Suite) (ciphertext : Bytes) (tag : Tag 16) (ad : Bytes) (context : String) :
    OnBuffer Unit :=
  match suite with
  | keystream composition cipher => composition.openTo cipher ciphertext tag.toList ad context
  | counterMode key nonce => Gcm.openTo key nonce ciphertext tag.toList ad context

end Suite

namespace Aead

def keySize : Nat := 32

def tagSize : Nat := 16

/-- A random key, for any of the algorithms. -/
def randomKey : Random (Secret keySize) := Secret.random keySize

def randomExtendedNonce : Random (Nonce 24) := Nonce.random 24

/-- The name of an algorithm, under which it reports its causes. -/
def name : Aead → String
  | chacha20Poly1305 _ => "ChaCha20Poly1305"
  | chacha20Poly1305Ietf _ => "ChaCha20Poly1305Ietf"
  | xchacha20Poly1305Ietf _ => "XChaCha20Poly1305Ietf"
  | aes256Gcm _ => "Aes256Gcm"

def nonceSize : Aead → Nat
  | chacha20Poly1305 _ => 8
  | chacha20Poly1305Ietf _ => 12
  | xchacha20Poly1305Ietf _ => 24
  | aes256Gcm _ => 12

/-- The longest plaintext: what the block counter leaves after the blocks that
are not payload, or a size less the tag. -/
def messageMax : Aead → Nat
  | chacha20Poly1305 _ => UInt64.size - 1 - 16
  | chacha20Poly1305Ietf _ => 64 * (UInt32.size - 1)
  | xchacha20Poly1305Ietf _ => 64 * (UInt32.size - 1)
  | aes256Gcm _ => 16 * (UInt32.size - 2)

/-- The cipher of an extended nonce: the subkey of its first sixteen bytes, and
the others behind four zero bytes. -/
def extendedCipher (key : FixedBytes 32) (nonce : Nonce 24) : Cipher :=
  .ietf (Family.chacha.subkey key (nonce.front 16)) ((FixedBytes.zero 4).append (nonce.back 8))

def suite : (a : Aead) → Nonce a.nonceSize → Suite
  | chacha20Poly1305 key, nonce => .keystream .unpadded (.chacha key nonce)
  | chacha20Poly1305Ietf key, nonce => .keystream .ietf (.ietf key nonce)
  | xchacha20Poly1305Ietf key, nonce => .keystream .ietf (extendedCipher key nonce)
  | aes256Gcm key, nonce => .counterMode key nonce

/-- The algorithm without its key; it goes on with zeros in its place. -/
def wipe : Aead → Aead
  | chacha20Poly1305 _ => chacha20Poly1305 (FixedBytes.zero 32)
  | chacha20Poly1305Ietf _ => chacha20Poly1305Ietf (FixedBytes.zero 32)
  | xchacha20Poly1305Ietf _ => xchacha20Poly1305Ietf (FixedBytes.zero 32)
  | aes256Gcm _ => aes256Gcm .wiped

/-- Encrypts the buffer and returns its tag. -/
def sealInPlaceDetached (a : Aead) (nonce : Nonce a.nonceSize) (ad : Bytes) :
    OnBuffer (Tag 16) := do
  Check.messageLength a.name (← OnBuffer.length) a.messageMax
  (a.suite nonce).sealInPlace ad

/-- Checks the tag of the buffer, then decrypts it. -/
def openInPlaceDetached (a : Aead) (nonce : Nonce a.nonceSize) (tag : Tag 16) (ad : Bytes) :
    OnBuffer Unit :=
  (a.suite nonce).openInPlace tag ad a.name

/-- Checks the tag of a ciphertext, then decrypts it into the front of the buffer. -/
def openDetachedInto (a : Aead) (nonce : Nonce a.nonceSize) (ciphertext : Bytes) (tag : Tag 16)
    (ad : Bytes) : OnBuffer Unit := do
  Check.bufferLength a.name (← OnBuffer.length) ciphertext.length
  (a.suite nonce).openTo ciphertext tag ad a.name

end Aead

end AuthEncryption
