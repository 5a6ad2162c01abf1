import AuthEncryption.Poly1305.Limbs
import AuthEncryption.Bytes.Fixed

/-!
# The one-time authenticator

The message is cut into blocks of sixteen bytes, each taken as a number with a
one above its last byte, and evaluated as a polynomial at a point that is half of
the key; the other half is added at the end. Bytes that do not fill a block wait,
so the way a message is cut into updates does not matter. A key serves one
message.
-/
namespace AuthEncryption

/-- A running one-time authenticator. -/
structure Poly1305 where
  /-- The point of evaluation. -/
  r : Poly1305.Limbs
  /-- The value of the blocks so far. -/
  h : Poly1305.Limbs
  /-- The words added at the end. -/
  pad : Vector UInt32 4
  /-- Bytes that do not fill a block yet. -/
  waiting : Bytes

namespace Poly1305

def blockSize : Nat := 16

def keySize : Nat := 32

def tagSize : Nat := 16

/-- The bit above a full block. -/
def fullBlockBit : UInt32 := 0x1000000

/-- An authenticator before its first byte. -/
def new (key : FixedBytes 32) : Poly1305 :=
  let k := Word.readAt key.toList
  { r := .ofKey key.toList, h := .zero, pad := #v[k 16, k 20, k 24, k 28], waiting := [] }

/-- Takes more bytes of the message. -/
def update (mac : Poly1305) (data : Bytes) : Poly1305 :=
  let message := mac.waiting ++ data
  { mac with
    h := (Bytes.fullPieces blockSize message).foldl (mac.r.step · · fullBlockBit) mac.h
    waiting := Bytes.leftover blockSize message }

/-- The value of the whole message: a block that is not full gets its one and
zeros after it. -/
def lastValue (mac : Poly1305) : Limbs :=
  if mac.waiting.isEmpty then mac.h
  else
    mac.r.step mac.h (mac.waiting ++ 1 :: Bytes.zeros (blockSize - 1 - mac.waiting.length)) 0

/-- The tag of the message so far. -/
def finalize (mac : Poly1305) : FixedBytes 16 :=
  ⟨Word.bytes (addWords 0 mac.lastValue.settle.canonical.words mac.pad.toList), by
    simp [Limbs.words]⟩

/-- Whether `tag` is the tag of the message so far. -/
def verify (mac : Poly1305) (tag : Bytes) : Bool := Bytes.sameBytes mac.finalize.toList tag

/-- The authenticator without its key: every field is zero and nothing waits. -/
def wipe (_mac : Poly1305) : Poly1305 :=
  { r := .zero, h := .zero, pad := Vector.replicate 4 0, waiting := [] }

/-- The tag of a message. -/
def authenticate (key : FixedBytes 32) (message : Bytes) : FixedBytes 16 :=
  ((new key).update message).finalize

end Poly1305

end AuthEncryption
