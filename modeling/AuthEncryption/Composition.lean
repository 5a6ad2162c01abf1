import AuthEncryption.Cipher.Keystream
import AuthEncryption.Poly1305.Authenticator
import AuthEncryption.Nonce

/-!
# Cipher and authenticator together

A composition says how much keystream goes to the one-time key before the
payload is masked, and which string is authenticated. Opening checks the tag
of the received ciphertext first and unmasks only what was accepted.
-/
namespace AuthEncryption

/-- A way to put a cipher and the one-time authenticator together. -/
inductive Composition where
  /-- Payload from the second block; lengths follow their fields, nothing is padded. -/
  | unpadded
  /-- Payload from the second block; fields are padded, both lengths come at the end. -/
  | ietf
  /-- Payload right after the one-time key; the ciphertext alone is authenticated. -/
  | secretBox
deriving DecidableEq, Repr

namespace Composition

/-- The keystream bytes before the payload. -/
def payloadOffset : Composition → Nat
  | unpadded | ietf => 64
  | secretBox => 32

theorem keySize_le_payloadOffset (k : Composition) : 32 ≤ k.payloadOffset := by
  cases k <;> decide

/-- The parts of the authenticated string, in order. -/
def macParts (k : Composition) (ad ciphertext : Bytes) : List Bytes :=
  match k with
  | unpadded => [ad, Bytes.le64 ad.length, ciphertext, Bytes.le64 ciphertext.length]
  | ietf =>
    [ad, Bytes.zeros (Bytes.pad16 ad.length),
      ciphertext, Bytes.zeros (Bytes.pad16 ciphertext.length),
      Bytes.le64 ad.length, Bytes.le64 ciphertext.length]
  | secretBox => [ciphertext]

def macInput (k : Composition) (ad ciphertext : Bytes) : Bytes := (k.macParts ad ciphertext).flatten

/-- The tag of associated data and a ciphertext, from an authenticator that has
taken nothing yet. -/
def tag (k : Composition) (mac : Poly1305) (ad ciphertext : Bytes) : Tag 16 :=
  ((k.macParts ad ciphertext).foldl Poly1305.update mac).finalize

/-- The authenticator under the one-time key at the front of the keystream, and
the cipher at the first byte of the payload. -/
def authenticator (k : Composition) (c : Cipher) : Except Fault (Poly1305 × Cipher) := do
  let (keystream, payload) ← c.drawFixed k.payloadOffset
  return (.new (keystream.front 32), payload)

/-- Masks the buffer and returns the tag of what it then holds. -/
def sealInPlace (k : Composition) (c : Cipher) (ad : Bytes) : OnBuffer (Tag 16) := do
  let (mac, payload) ← k.authenticator c
  let _ ← payload.maskBuffer
  return k.tag mac ad (← get)

/-- Unmasks the buffer if `tag` belongs to it. -/
def openInPlace (k : Composition) (c : Cipher) (tag ad : Bytes) (context : String) :
    OnBuffer Unit := do
  let (mac, payload) ← k.authenticator c
  let expected := k.tag mac ad (← get)
  Check.authentication (Bytes.sameBytes expected.toList tag) context
  let _ ← payload.maskBuffer

/-- Unmasks `ciphertext` into the front of the buffer if `tag` belongs to it. -/
def openTo (k : Composition) (c : Cipher) (ciphertext tag ad : Bytes) (context : String) :
    OnBuffer Unit := do
  let (mac, payload) ← k.authenticator c
  let expected := k.tag mac ad ciphertext
  Check.authentication (Bytes.sameBytes expected.toList tag) context
  let _ ← payload.maskInto ciphertext

end Composition

end AuthEncryption
