import AuthEncryption.Failure.Error
import AuthEncryption.Bytes.Fixed

/-!
# Checks

Each check either passes or reports one cause with the caller's context. The
main one is `Check.messageLength`, the largest plaintext of an algorithm.
-/
namespace AuthEncryption.Check

def parameter (condition : Bool) (context message : String) : Except Error Unit :=
  if condition then .ok () else .error (.invalidParameter context message)

def length (context : String) (actual expected : Nat) : Except Error Unit :=
  if actual = expected then .ok () else .error (.invalidLength context expected actual)

def minLength (context : String) (actual minimum : Nat) : Except Error Unit :=
  if actual < minimum then .error (.bufferTooShort context minimum actual) else .ok ()

def maxLength (context : String) (actual maximum : Nat) : Except Error Unit :=
  if maximum < actual then .error (.invalidLength context maximum actual) else .ok ()

def ciphertextLength (context : String) (actual minimum : Nat) : Except Error Unit :=
  if actual < minimum then .error (.cipherTooShort context minimum actual) else .ok ()

def bufferLength (context : String) (actual needed : Nat) : Except Error Unit :=
  if actual < needed then .error (.bufferTooShort context needed actual) else .ok ()

/-- A plaintext must not be longer than the algorithm allows. -/
def messageLength (context : String) (actual maximum : Nat) : Except Error Unit :=
  maxLength context actual maximum

def authentication (accepted : Bool) (context : String) : Except Error Unit :=
  if accepted then .ok () else .error (.forgedOrCorrupted context)

def streamState (condition : Bool) (operation : String) : Except Error Unit :=
  if condition then .ok () else .error (.invalidState operation)

/-- The string, if it has `n` bytes. -/
def fixed (context : String) (n : Nat) (bs : Bytes) : Except Error (FixedBytes n) :=
  if h : bs.length = n then .ok ⟨bs, h⟩ else .error (.invalidLength context n bs.length)

end AuthEncryption.Check
