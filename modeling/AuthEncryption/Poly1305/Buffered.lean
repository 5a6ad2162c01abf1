import AuthEncryption.Poly1305.Authenticator

/-!
# The authenticator and its buffer

A running authenticator has room for one block. Bytes that wait are the front of this buffer, and
a count says how many; what stands behind them is left from earlier blocks. An update fills the
block that has begun, takes the full blocks behind it from the data as they are, and puts what is
left over to the front of the buffer.
-/
namespace AuthEncryption.Poly1305

/-- A running authenticator with its buffer. -/
structure Buffered where
  /-- The point of evaluation. -/
  r : Limbs
  /-- The value of the blocks so far. -/
  h : Limbs
  /-- The words added at the end. -/
  pad : Vector UInt32 4
  buffer : FixedBytes 16
  /-- How many bytes at the front of the buffer wait. -/
  leftover : Nat

namespace Buffered

/-- An authenticator before its first byte. -/
def new (key : FixedBytes 32) : Buffered :=
  let mac := Poly1305.new key
  { r := mac.r, h := mac.h, pad := mac.pad, buffer := .zero 16, leftover := 0 }

/-- Drops the whole state and starts over with another key. -/
def rekey (_mac : Buffered) (key : FixedBytes 32) : Buffered := new key

/-- Takes a full block. -/
def block (mac : Buffered) (data : Bytes) : Buffered :=
  { mac with h := mac.r.step mac.h data fullBlockBit }

/-- Takes the full blocks of a string; the rest waits at the front of the buffer. -/
def absorb (mac : Buffered) (data : Bytes) : Buffered :=
  let mac := (Bytes.fullPieces blockSize data).foldl block mac
  let rest := Bytes.leftover blockSize data
  { mac with buffer := mac.buffer.overwrite 0 rest, leftover := rest.length }

/-- Puts the front of a string behind the bytes that wait, as much as there is room for. -/
def fill (mac : Buffered) (data : Bytes) : Buffered :=
  let taken := data.take (blockSize - mac.leftover)
  { mac with
    buffer := mac.buffer.overwrite mac.leftover taken
    leftover := mac.leftover + taken.length }

/-- Takes more bytes of the message. -/
def update (mac : Buffered) (data : Bytes) : Buffered :=
  if 0 < mac.leftover then
    let filled := mac.fill data
    if filled.leftover < blockSize then filled
    else
      { filled.block filled.buffer.toList with leftover := 0 }.absorb
        (data.drop (blockSize - mac.leftover))
  else mac.absorb data

/-- The value of the whole message: the bytes that wait are copied to a block of zeros and get
their one. -/
def lastValue (mac : Buffered) : Limbs :=
  if 0 < mac.leftover then
    let waiting := mac.buffer.toList.take mac.leftover
    let last := ((FixedBytes.zero 16).overwrite 0 waiting).overwrite mac.leftover [1]
    mac.r.step mac.h last.toList 0
  else mac.h

/-- Writes the tag of the message so far over `out`. -/
def finish (mac : Buffered) (out : FixedBytes 16) : FixedBytes 16 :=
  out.overwrite 0 (Word.bytes (addWords 0 mac.lastValue.settle.canonical.words mac.pad.toList))

/-- The tag of the message so far. -/
def finalize (mac : Buffered) : FixedBytes 16 := mac.finish (.zero 16)

/-- The tag of the message so far, in a place that the caller has for it. -/
def sum (mac : Buffered) (out : FixedBytes 16) : FixedBytes 16 := mac.finish out

/-- Whether `tag` is the tag of the message so far. -/
def verify (mac : Buffered) (tag : Bytes) : Bool := Bytes.sameBytes mac.finalize.toList tag

/-- The authenticator without its key: every field is zero and nothing waits. -/
def wipe (_mac : Buffered) : Buffered :=
  { r := .zero, h := .zero, pad := Vector.replicate 4 0, buffer := .zero 16, leftover := 0 }

end Buffered

end AuthEncryption.Poly1305
