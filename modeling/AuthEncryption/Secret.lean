import AuthEncryption.Buffer
import AuthEncryption.Check
import AuthEncryption.Random

/-!
# Secrets

Secrets compare without an early exit, can be wiped in place and never show
their bytes as text. A scoped secret exists only while an operation runs on it.
-/
namespace AuthEncryption

/-- The bytes left of a wiped string. -/
def Bytes.wipe (bs : Bytes) : Bytes := Bytes.zeros bs.length

/-- A secret of `n` bytes. -/
structure Secret (n : Nat) where
  bytes : FixedBytes n

namespace Secret

variable {n : Nat}

/-- The secret with these bytes, if there are `n`. -/
def ofBytes (n : Nat) (bs : Bytes) : Except Error (Secret n) :=
  return ⟨← Check.fixed "SecretBuffer::from_slice" n bs⟩

def zeroed (n : Nat) : Secret n := ⟨FixedBytes.zero n⟩

def random (n : Nat) : Random (Secret n) := return ⟨← Random.fixed n⟩

def wipe (_secret : Secret n) : Secret n := zeroed n

def isZero (secret : Secret n) : Bool := Bytes.isZero secret.bytes.toList

/-- Whether two secrets hold the same bytes. -/
def same (a b : Secret n) : Bool := Bytes.sameBytes a.bytes.toList b.bytes.toList

def setByte (secret : Secret n) (index : Nat) (value : UInt8) : Except Fault (Secret n) :=
  if index < n then .ok ⟨secret.bytes.mapList (·.set index value) (by simp)⟩
  else .error (.indexOutOfBounds n index)

/-- What a secret shows of itself: its size. -/
def text (_secret : Secret n) : String := s!"SecretBuffer<{n}>([REDACTED])"

end Secret

/-- A secret whose length can change. -/
structure SecretBytes where
  bytes : Bytes

namespace SecretBytes

/-- A secret of `n` zero bytes, if memory can hold one. -/
def zeroed (n : Nat) : Except Fault SecretBytes := do
  checkCapacity n
  return ⟨Bytes.zeros n⟩

/-- The draw of a random secret of `n` bytes, if memory can hold one. -/
def random (n : Nat) : Except Fault (Random SecretBytes) := do
  checkCapacity n
  return do return ⟨← Random.fill n⟩

def extend (secret : SecretBytes) (more : Bytes) : SecretBytes := ⟨secret.bytes ++ more⟩

def truncate (secret : SecretBytes) (n : Nat) : SecretBytes := ⟨secret.bytes.take n⟩

/-- What a secret shows of itself: its length. -/
def text (secret : SecretBytes) : String := s!"SecretVec(len={secret.bytes.length}, [REDACTED])"

end SecretBytes

/-- What a scoped secret shows of itself: nothing. -/
def scopedSecretText : String := "EphemeralSecret([REDACTED])"

/-- What an operation on a guarded buffer leaves behind. -/
structure Guarded (α : Type) where
  result : Except Failure α
  /-- The buffer at the end of the operation. -/
  inside : Bytes
  /-- The buffer once the guard is gone. -/
  after : Bytes

/-- Runs `op` on a buffer that is wiped afterwards, however `op` ends. -/
def OnBuffer.guarded {α : Type} (op : OnBuffer α) (buffer : Bytes) : Guarded α :=
  let (result, inside) := op.runOn buffer
  { result, inside, after := inside.wipe }

end AuthEncryption
