import AuthEncryption.Cipher.Rounds
import AuthEncryption.Check

/-!
# Deriving subkeys

The checked forms of `Family.subkey`: with an explicit constant, of which only
`sigma` is accepted, and from the start of an input of any length.
-/
namespace AuthEncryption.Family

def subkeySize : Nat := 32

/-- The size of the input a subkey is derived from. -/
def subkeyInputSize : Nat := 16

/-- The name under which subkey derivation reports its causes. -/
def derivationName : Family → String
  | chacha => "hchacha20"
  | salsa => "hsalsa20"

/-- A subkey under an explicit constant, if it is the one for 32-byte keys. -/
def subkeyUnder (family : Family) (constant : Option (FixedBytes 16)) (key : FixedBytes 32)
    (input : FixedBytes 16) : Except Error (FixedBytes 32) := do
  match constant with
  | none => pure ()
  | some c =>
    Check.parameter (c.toList == sigma) family.derivationName
      "only the \"expand 32-byte k\" constant is supported"
  return family.subkey key input

/-- A subkey from the first sixteen bytes of an input. -/
def subkeyFrom (family : Family) (key : FixedBytes 32) (input : Bytes) :
    Except Error (FixedBytes 32) :=
  if subkeyInputSize ≤ input.length then .ok (family.subkey key (.ofPadded 16 input))
  else .error (.bufferTooShort (family.derivationName ++ " input") subkeyInputSize input.length)

end AuthEncryption.Family
