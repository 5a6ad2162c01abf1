import AuthEncryption.Failure.Fault
import AuthEncryption.Bytes.Basic

/-!
# Operations on a caller's buffer

An `OnBuffer` operation reads and writes one byte buffer and may stop part way;
the buffer then keeps what had been written to it. A buffer is split into its front
and what stands behind, and an operation runs on either part. A part that is not
there is a fault, and so is a copy from a string of another length.
-/
namespace AuthEncryption

abbrev OnBuffer (α : Type) := ExceptT Failure (StateM Bytes) α

namespace OnBuffer

/-- The result of an operation and the buffer it leaves. -/
def runOn {α : Type} (op : OnBuffer α) (buffer : Bytes) : Except Failure α × Bytes :=
  op.run.run buffer

def length : OnBuffer Nat := do return (← get).length

/-- Sets one byte. -/
def put (index : Nat) (b : UInt8) : OnBuffer Unit := do
  let buffer ← get
  if index < buffer.length then
    set (buffer.set index b)
  else
    throw (.fault (.indexOutOfBounds buffer.length index))

/-- Overwrites the whole buffer. -/
def copy (source : Bytes) : OnBuffer Unit := do
  let buffer ← get
  if source.length = buffer.length then
    set source
  else
    throw (.fault (.copyLength source.length buffer.length))

/-- Runs `op` on the first `len` bytes as if they were the whole buffer. The bytes
behind them stay, and `op` is expected to keep the length. -/
def onFront {α : Type} (len : Nat) (op : OnBuffer α) : OnBuffer α := do
  let buffer ← get
  if len ≤ buffer.length then
    let (result, part) := op.runOn (buffer.take len)
    set (part ++ buffer.drop len)
    liftExcept result
  else
    throw (.fault (.rangeOutOfBounds buffer.length len))

/-- Runs `op` on the bytes from `offset` on as if they were the whole buffer. -/
def onBack {α : Type} (offset : Nat) (op : OnBuffer α) : OnBuffer α := do
  let buffer ← get
  if offset ≤ buffer.length then
    let (result, part) := op.runOn (buffer.drop offset)
    set (buffer.take offset ++ part)
    liftExcept result
  else
    throw (.fault (.rangeOutOfBounds buffer.length offset))

end OnBuffer

/-- No memory region has more bytes. -/
def capacityLimit : Nat := UInt64.size / 2 - 1

/-- A memory region of `n` bytes must be possible. -/
def checkCapacity (n : Nat) : Except Fault Unit :=
  if n ≤ capacityLimit then .ok () else .error .capacityOverflow

/-- One more than the largest size or sum of sizes. -/
def sizeLimit : Nat := UInt64.size

/-- The sum of two sizes, if it is a size. -/
def addSizes (a b : Nat) : Except Fault Nat :=
  if a + b < sizeLimit then .ok (a + b) else .error .sizeOverflow

/-- The difference of two sizes, if it is a size. -/
def subSizes (a b : Nat) : Except Fault Nat :=
  if b ≤ a then .ok (a - b) else .error .sizeUnderflow

/-- The two parts of `bs` at `index`, if it lies inside. -/
def splitBytes (bs : Bytes) (index : Nat) : Except Fault (Bytes × Bytes) :=
  if index ≤ bs.length then .ok (bs.splitAt index)
  else .error (.rangeOutOfBounds bs.length index)

/-- Exclusive or of `dst` with `src` over the length of `src`. -/
def xorInPlace (src : Bytes) : OnBuffer Unit := do
  let dst ← get
  if src.length ≤ dst.length then
    set (Bytes.xorFront dst src)
  else
    throw (.fault (.shortDestination "xor_in_place"))

end AuthEncryption
