import AuthEncryption.Cipher.Keystream

/-!
# Ciphers selected at run time

A selected cipher remembers its variant, which no operation changes: a new key
is accepted only with a nonce length of the same variant.
-/
namespace AuthEncryption

inductive Variant where
  | chacha20
  | chacha20Ietf
  | xchacha20
  | salsa20
  | xsalsa20
deriving DecidableEq, Repr

namespace Variant

def name : Variant → String
  | chacha20 => "ChaCha20"
  | chacha20Ietf => "ChaCha20Ietf"
  | xchacha20 => "XChaCha20"
  | salsa20 => "Salsa20"
  | xsalsa20 => "XSalsa20"

def family : Variant → Family
  | chacha20 | chacha20Ietf | xchacha20 => .chacha
  | salsa20 | xsalsa20 => .salsa

def nonceLengths : Variant → List Nat
  | chacha20 => [8]
  | chacha20Ietf => [12]
  | xchacha20 | xsalsa20 => [24]
  | salsa20 => [8, 16]

/-- The nonce length of a variant that does not name its first block. -/
def nonceSize : Variant → Nat
  | chacha20 | salsa20 => 8
  | chacha20Ietf => 12
  | xchacha20 | xsalsa20 => 24

/-- The variant that a nonce length selects where none is named. -/
def ofNonceLength? : Nat → Option Variant
  | 8 => some chacha20
  | 12 => some chacha20Ietf
  | 16 => some salsa20
  | 24 => some xchacha20
  | _ => none

end Variant

/-- A cipher of a variant chosen at run time. -/
structure SelectedCipher where
  variant : Variant
  cipher : Cipher

namespace SelectedCipher

/-- The cipher of a named variant. -/
def keyed (variant : Variant) (key nonce : Bytes) : Except Fault SelectedCipher :=
  return ⟨variant, ← Cipher.keyed variant.family key nonce⟩

/-- The cipher that the length of the nonce selects. -/
def select (key nonce : Bytes) : Except Fault SelectedCipher :=
  match Variant.ofNonceLength? nonce.length with
  | some variant => keyed variant key nonce
  | none => .error (.nonceLength "Stream" nonce.length)

/-- Runs a step of the cipher itself. -/
def runOn {α : Type} (step : Cipher.Step α) (s : SelectedCipher) :
    Except Fault α × SelectedCipher :=
  let (result, cipher) := step.runOn s.cipher
  (result, { s with cipher })

/-- Starts afresh with another key, within the variant. -/
def rekey (key nonce : Bytes) (s : SelectedCipher) : Except Fault Unit × SelectedCipher :=
  if s.variant.nonceLengths.contains nonce.length then
    match Cipher.keyed s.variant.family key nonce with
    | .ok cipher => (.ok (), { s with cipher })
    | .error rule => (.error rule, s)
  else
    (.error (.variantNonce nonce.length), s)

def wipe (s : SelectedCipher) : SelectedCipher := { s with cipher := s.cipher.wipe }

end SelectedCipher

end AuthEncryption
