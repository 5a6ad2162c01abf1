/-!
# Byte strings

Messages, keystream and wire data are lists of bytes. This module holds the
operations every other module shares: exclusive or, comparison, zero padding,
the little-endian counter step and the two number encodings.
-/
namespace AuthEncryption

/-- A byte string of any length. -/
abbrev Bytes := List UInt8

namespace Bytes

def zeros (n : Nat) : Bytes := List.replicate n 0

@[simp] theorem length_zeros (n : Nat) : (zeros n).length = n := by simp [zeros]

/-- Bytewise exclusive or, as long as the shorter argument. -/
def xor (a b : Bytes) : Bytes := List.zipWith (· ^^^ ·) a b

@[simp] theorem length_xor (a b : Bytes) : (xor a b).length = min a.length b.length := by
  simp [xor]

/-- Exclusive or of `data` with `mask` as far as `mask` reaches; later bytes stay. -/
def xorFront (data mask : Bytes) : Bytes := xor data mask ++ data.drop mask.length

@[simp] theorem length_xorFront (data mask : Bytes) :
    (xorFront data mask).length = data.length := by
  simp [xorFront]; omega

/-- The bits in which two strings of equal length differ, gathered into one byte. -/
def difference (a b : Bytes) : UInt8 := (xor a b).foldl (· ||| ·) 0

/-- Equality that looks at every byte whatever the earlier ones were. -/
def sameBytes (a b : Bytes) : Bool := a.length == b.length && difference a b == 0

/-- Whether every byte is zero, gathered without an early exit. -/
def isZero (data : Bytes) : Bool := data.foldl (· ||| ·) 0 == 0

/-- Adds `carry` to a little-endian number, byte after byte; a carry out of the
last byte is dropped. -/
def addCarry (carry : UInt16) : Bytes → Bytes
  | [] => []
  | b :: rest =>
    let sum := carry + b.toUInt16
    sum.toUInt8 :: addCarry (sum >>> 8) rest

@[simp] theorem length_addCarry (carry : UInt16) (bs : Bytes) :
    (addCarry carry bs).length = bs.length := by
  induction bs generalizing carry with
  | nil => rfl
  | cons b rest ih => simp [addCarry, ih]

/-- The next value of a little-endian counter of any width, wrapping to zero. -/
def incrementLE (counter : Bytes) : Bytes := addCarry 1 counter

@[simp] theorem length_incrementLE (bs : Bytes) : (incrementLE bs).length = bs.length :=
  length_addCarry 1 bs

/-- How many zero bytes bring `len` to a multiple of sixteen. -/
def pad16 (len : Nat) : Nat := (16 - len % 16) % 16

/-- The value of a string read with the least significant byte first. -/
def toNatLE (bs : Bytes) : Nat := bs.foldr (fun b acc => b.toNat + 256 * acc) 0

/-- The value of a string read with the most significant byte first. -/
def toNatBE (bs : Bytes) : Nat := bs.foldl (fun acc b => 256 * acc + b.toNat) 0

/-- The lowest `width` bytes of a number, least significant first. -/
def ofNatLE : (width : Nat) → (value : Nat) → Bytes
  | 0, _ => []
  | width + 1, value => UInt8.ofNat value :: ofNatLE width (value / 256)

@[simp] theorem length_ofNatLE (width value : Nat) : (ofNatLE width value).length = width := by
  induction width generalizing value with
  | zero => rfl
  | succ width ih => simp [ofNatLE, ih]

/-- The lowest `width` bytes of a number, most significant first. -/
def ofNatBE (width value : Nat) : Bytes := (ofNatLE width value).reverse

@[simp] theorem length_ofNatBE (width value : Nat) : (ofNatBE width value).length = width := by
  simp [ofNatBE]

/-- A length as eight bytes, least significant first. -/
def le64 (len : Nat) : Bytes := ofNatLE 8 len

@[simp] theorem length_le64 (len : Nat) : (le64 len).length = 8 := length_ofNatLE 8 len

/-- The first `count` pieces of `n` bytes. -/
def takePieces (n : Nat) : (count : Nat) → Bytes → List Bytes
  | 0, _ => []
  | count + 1, bs => bs.take n :: takePieces n count (bs.drop n)

/-- The string cut every `n` bytes; the last piece may be shorter. -/
def pieces (n : Nat) (bs : Bytes) : List Bytes := takePieces n ((bs.length + n - 1) / n) bs

/-- The pieces of `n` bytes that the string fills completely. -/
def fullPieces (n : Nat) (bs : Bytes) : List Bytes := takePieces n (bs.length / n) bs

/-- What the full pieces of `n` bytes leave over. -/
def leftover (n : Nat) (bs : Bytes) : Bytes := bs.drop (n * (bs.length / n))

/-- The text of a byte string as decimal numbers in brackets. -/
def listing (bs : Bytes) : String := "[" ++ ", ".intercalate (bs.map (toString ·.toNat)) ++ "]"

/-- The digit for a value below sixteen. -/
def hexDigit (n : Nat) : Char := "0123456789abcdef".toList.getD n '0'

def hex (bs : Bytes) : String :=
  String.ofList (bs.flatMap fun b => [hexDigit (b.toNat / 16), hexDigit (b.toNat % 16)])

end Bytes

end AuthEncryption
