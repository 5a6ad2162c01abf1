import AuthEncryption.Bytes.Fixed

/-!
# The hash of counter mode

Blocks are elements of a field of `2^128` elements, kept in two words: the top
bit of the first word is the coefficient of the zeroth power, the lowest bit of
the second one that of power 127. The hash evaluates the blocks as a polynomial
at a secret point and ends with one block for the two lengths. The view of an
element is `FieldElement.bits`, and `bits_add` and `bits_timesX` say what the
operations do to it.
-/
namespace AuthEncryption

/-- An element of the field. -/
@[ext] structure FieldElement where
  /-- The coefficients of the powers below 64. -/
  high : UInt64
  /-- The coefficients of the other powers. -/
  low : UInt64
deriving DecidableEq

namespace FieldElement

/-- The coefficients of an element, that of the zeroth power at the top. -/
def bits (v : FieldElement) : BitVec 128 := v.high.toBitVec ++ v.low.toBitVec

def zero : FieldElement := ⟨0, 0⟩

/-- The sum, which is also the difference. -/
def add (a b : FieldElement) : FieldElement := ⟨a.high ^^^ b.high, a.low ^^^ b.low⟩

@[simp] theorem bits_zero : zero.bits = 0 := by decide

@[simp] theorem bits_add (a b : FieldElement) : (a.add b).bits = a.bits ^^^ b.bits :=
  BitVec.xor_append.symm

/-- What the term of power 128 becomes when it is reduced: `1 + x + x^2 + x^7`. -/
def reduction : FieldElement := ⟨0xe100000000000000, 0⟩

/-- Every coefficient moved to the next power; that of power 127 is dropped. -/
def shift (v : FieldElement) : FieldElement := ⟨v.high >>> 1, (v.high <<< 63) ||| (v.low >>> 1)⟩

@[simp] theorem bits_shift (v : FieldElement) : v.shift.bits = v.bits >>> 1 := by
  apply BitVec.eq_of_getLsbD_eq
  intro i hi
  have h63 : UInt64.toBitVec 63 % 64 = 63#64 := rfl
  have h1 : UInt64.toBitVec 1 % 64 = 1#64 := rfl
  simp only [bits, shift, UInt64.toBitVec_or, UInt64.toBitVec_shiftLeft,
    UInt64.toBitVec_shiftRight, h63, h1, BitVec.shiftLeft_eq', BitVec.ushiftRight_eq',
    BitVec.getLsbD_append, BitVec.getLsbD_or, BitVec.getLsbD_shiftLeft,
    BitVec.getLsbD_ushiftRight, BitVec.toNat_ofNat, Nat.reducePow, Nat.reduceMod]
  rcases Nat.lt_trichotomy i 63 with h | h | h
  · simp [h, show i < 64 by omega, show 1 + i < 64 by omega]
  · subst h; simp
  · simp [show ¬ i < 64 by omega, show ¬ 1 + i < 64 by omega,
      show 1 + i - 64 = 1 + (i - 64) by omega]

/-- The product with `x`. -/
def timesX (v : FieldElement) : FieldElement :=
  if v.low &&& 1 = 0 then v.shift else v.shift.add reduction

theorem bits_timesX (v : FieldElement) :
    v.timesX.bits =
      if v.bits.getLsbD 0 then v.bits >>> 1 ^^^ reduction.bits else v.bits >>> 1 := by
  have hlow : v.bits.getLsbD 0 = v.low.toBitVec.getLsbD 0 := by
    rw [bits, BitVec.getLsbD_append]; rfl
  have hand : (v.low &&& 1).toNat = v.low.toNat % 2 := Nat.and_one_is_mod _
  have hbit : v.low &&& 1 = 0 ↔ v.low.toBitVec.getLsbD 0 = false := by
    rw [← UInt64.toNat_inj, hand, BitVec.getLsbD, Nat.testBit_zero, decide_eq_false_iff_not]
    exact Nat.mod_two_ne_one.symm
  rw [timesX, hlow]
  by_cases h : v.low &&& 1 = 0
  · rw [if_pos h, hbit.1 h, bits_shift]; rfl
  · rw [if_neg h, Bool.of_not_eq_false (mt hbit.2 h), bits_add, bits_shift]; rfl

/-- The element of a string, with zeros behind it where it is shorter than a block. -/
def ofBytes (bs : Bytes) : FieldElement :=
  let block := (FixedBytes.ofPadded 16 bs).toList
  { high := UInt64.ofNat (Bytes.toNatBE (block.take 8))
    low := UInt64.ofNat (Bytes.toNatBE (block.drop 8)) }

def toBlock (v : FieldElement) : FixedBytes 16 :=
  ⟨Bytes.ofNatBE 8 v.high.toNat ++ Bytes.ofNatBE 8 v.low.toNat, by simp⟩

/-- A product on its way. -/
structure Product where
  /-- The second factor times the powers of `x` that were passed. -/
  multiple : FieldElement
  /-- The sum of the multiples that the first factor selected. -/
  sum : FieldElement

/-- Goes on by the top bits of `word`, one power of `x` for each. -/
def Product.advance : (count : Nat) → (word : UInt64) → Product → Product
  | 0, _, p => p
  | count + 1, word, p =>
    advance count (word <<< 1)
      { multiple := p.multiple.timesX
        sum := if word >>> 63 = 0 then p.sum else p.sum.add p.multiple }

def multiply (x y : FieldElement) : FieldElement :=
  let start : Product := { multiple := y, sum := zero }
  ((start.advance 64 x.high).advance 64 x.low).sum

end FieldElement

structure Ghash where
  /-- The point of evaluation. -/
  key : FieldElement
  /-- The value of the blocks so far. -/
  value : FieldElement

namespace Ghash

def blockSize : Nat := 16

def new (key : FixedBytes 16) : Ghash := ⟨.ofBytes key.toList, .zero⟩

def step (hash : Ghash) (block : FieldElement) : Ghash :=
  { hash with value := (hash.value.add block).multiply hash.key }

/-- Takes a string whose last block is filled with zeros. -/
def update (hash : Ghash) (data : Bytes) : Ghash :=
  (Bytes.pieces blockSize data).foldl (fun hash piece => hash.step (.ofBytes piece)) hash

/-- The block of the two lengths, in bits: each has half of the block, and the
second one runs into the first if it is too large. -/
def lengthBlock (adLength ciphertextLength : Nat) : FieldElement :=
  { high := UInt64.ofNat (adLength * 8) ||| UInt64.ofNat (ciphertextLength * 8 / UInt64.size)
    low := UInt64.ofNat (ciphertextLength * 8) }

/-- The hash, closed by the block of the lengths. -/
def finish (hash : Ghash) (adLength ciphertextLength : Nat) : FixedBytes 16 :=
  (hash.step (lengthBlock adLength ciphertextLength)).value.toBlock

end Ghash

end AuthEncryption
