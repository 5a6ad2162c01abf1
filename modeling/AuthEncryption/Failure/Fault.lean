import AuthEncryption.Failure.Error

/-!
# Broken preconditions

A `Fault` says that a caller, or this library itself, broke a rule that no
input can excuse: a key of the wrong length given to an untyped constructor, a
counter run past its end, a range outside its buffer. It stops the operation.
Operations that can meet either return a `Failure`.
-/
namespace AuthEncryption

/-- A broken precondition. -/
inductive Fault where
  | keyLength (cipher : String)
  /-- A cipher has no layout for a nonce of this length. -/
  | nonceLength (cipher : String) (length : Nat)
  /-- The nonce of a rekeying belongs to another variant than the cipher. -/
  | variantNonce (length : Nat)
  /-- A 32-bit block counter has no block left. -/
  | counterExhausted
  | shortDestination (operation : String)
  | indexOutOfBounds (length index : Nat)
  | rangeOutOfBounds (length stop : Nat)
  /-- A copy between strings of different lengths. -/
  | copyLength (source destination : Nat)
  | sizeOverflow
  | sizeUnderflow
  | capacityOverflow
deriving DecidableEq, Repr

def Fault.message : Fault → String
  | keyLength cipher => s!"{cipher}: key must be 32 bytes"
  | nonceLength cipher length => s!"{cipher}: unsupported nonce length {length}"
  | variantNonce length => s!"Stream: nonce length {length} does not match the variant"
  | counterExhausted => "ChaCha20-IETF: block counter exhausted"
  | shortDestination operation => s!"{operation}: destination shorter than source"
  | indexOutOfBounds length index =>
    s!"index out of bounds: the len is {length} and the index is {index}"
  | rangeOutOfBounds length stop =>
    s!"range end index {stop} out of range for slice of length {length}"
  | copyLength source destination =>
    s!"copy_from_slice: source slice length ({source}) does not match " ++
      s!"destination slice length ({destination})"
  | sizeOverflow => "attempt to add with overflow"
  | sizeUnderflow => "attempt to subtract with overflow"
  | capacityOverflow => "capacity overflow"

/-- Why an operation stopped. -/
inductive Failure where
  | error (cause : Error)
  | fault (rule : Fault)
deriving DecidableEq, Repr

/-- A step that can only report a cause, used where faults are possible too. -/
instance : MonadLift (Except Error) (Except Failure) := ⟨Except.mapError Failure.error⟩

/-- A step that can only break a rule, used where causes are possible too. -/
instance : MonadLift (Except Fault) (Except Failure) := ⟨Except.mapError Failure.fault⟩

end AuthEncryption
