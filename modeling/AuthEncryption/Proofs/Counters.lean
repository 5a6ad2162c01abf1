import AuthEncryption.Proofs.Words

/-!
# Counters of bytes

A string stepped byte after byte, each byte passing a carry to the next one, counts up by one
modulo its width, whatever the width is. The carry is a word of sixteen bits; with additions that
fail where they overflow the steps are the same, so none of them does. Behind the last value, and
only there, the string is zero. The test for zero that looks at every byte is the test of the value.
-/
namespace AuthEncryption

/-- A sum of words of 16 bits, if it does not overflow. -/
def Checked.add16 (a b : UInt16) : Option UInt16 :=
  if a.toNat + b.toNat < 2 ^ 16 then some (a + b) else none

namespace Bytes

/-- The addition of a carry, if no sum of a carry and a byte overflows. -/
def addCarryChecked (carry : UInt16) : Bytes → Option Bytes
  | [] => some []
  | b :: rest => do
    let sum ← Checked.add16 carry b.toUInt16
    return sum.toUInt8 :: (← addCarryChecked (sum >>> 8) rest)

/-- The step of a counter, if no carry overflows. -/
def incrementChecked (counter : Bytes) : Option Bytes := addCarryChecked 1 counter

/-! ## One step -/

section Carry

variable {carry : UInt16} (h : carry.toNat < 256)
include h

/-- A byte and a carry of one byte do not fill sixteen bits. -/
theorem toNat_carry_add (b : UInt8) : (carry + b.toUInt16).toNat = carry.toNat + b.toNat := by
  have hb := b.toNat_lt
  rw [UInt16.toNat_add, UInt8.toNat_toUInt16]
  omega

theorem toNat_nextCarry (b : UInt8) :
    ((carry + b.toUInt16) >>> 8).toNat = (carry.toNat + b.toNat) / 256 := by
  rw [UInt16.toNat_shiftRight, toNat_carry_add h, Nat.shiftRight_eq_div_pow]
  rfl

/-- One byte at most is carried on. -/
theorem nextCarry_lt (b : UInt8) : ((carry + b.toUInt16) >>> 8).toNat < 256 := by
  have hb := b.toNat_lt
  rw [toNat_nextCarry h]
  omega

/-- A carry of one byte at most is added to the value. -/
theorem toNatLE_addCarry (bs : Bytes) :
    toNatLE (addCarry carry bs) = (toNatLE bs + carry.toNat) % 256 ^ bs.length := by
  induction bs generalizing carry with
  | nil => simp [addCarry, toNatLE, Nat.mod_one]
  | cons b bs ih =>
    have hbyte : (carry + b.toUInt16).toUInt8.toNat = (carry.toNat + b.toNat) % 256 := by
      rw [UInt16.toNat_toUInt8, toNat_carry_add h]
    have hvalue : (b.toNat + 256 * toNatLE bs + carry.toNat) / 256 =
        toNatLE bs + (carry.toNat + b.toNat) / 256 := by omega
    rw [addCarry, toNatLE_cons, hbyte, ih (nextCarry_lt h b), toNat_nextCarry h, toNatLE_cons,
      List.length_cons, Nat.pow_succ', Nat.mod_mul, hvalue]
    omega

/-- No sum overflows behind a carry of one byte at most. -/
theorem addCarryChecked_eq (bs : Bytes) : addCarryChecked carry bs = some (addCarry carry bs) := by
  induction bs generalizing carry with
  | nil => rfl
  | cons b bs ih =>
    have hb := b.toNat_lt
    have hsum : Checked.add16 carry b.toUInt16 = some (carry + b.toUInt16) :=
      if_pos (by rw [UInt8.toNat_toUInt16]; omega)
    simp only [addCarryChecked, hsum, ih (nextCarry_lt h b), Option.bind_eq_bind, Option.bind_some]
    rfl

end Carry

/-- A carry that leaves no room for a byte is found out. -/
example : addCarryChecked 0xff01 [255] = none := by decide

/-- The next value of a counter. -/
theorem toNatLE_incrementLE (bs : Bytes) :
    toNatLE (incrementLE bs) = (toNatLE bs + 1) % 256 ^ bs.length :=
  toNatLE_addCarry (by decide) bs

/-- A full byte passes a carry on. -/
example : incrementLE [255, 0, 0, 0] = [0, 1, 0, 0] := by decide

theorem incrementChecked_eq (bs : Bytes) : incrementChecked bs = some (incrementLE bs) :=
  addCarryChecked_eq (by decide) bs

/-! ## Several steps -/

theorem length_iterate_incrementLE (bs : Bytes) (k : Nat) :
    (incrementLE^[k] bs).length = bs.length := by
  induction k with
  | zero => rfl
  | succ k ih => rw [Function.iterate_succ_apply', length_incrementLE, ih]

theorem toNatLE_iterate_incrementLE (bs : Bytes) (k : Nat) :
    toNatLE (incrementLE^[k] bs) = (toNatLE bs + k) % 256 ^ bs.length := by
  induction k with
  | zero => exact (Nat.mod_eq_of_lt (toNatLE_lt bs)).symm
  | succ k ih =>
    rw [Function.iterate_succ_apply', toNatLE_incrementLE, length_iterate_incrementLE, ih,
      Nat.mod_add_mod, Nat.add_assoc]

/-! ## Zero -/

theorem toNatLE_eq_zero_iff (bs : Bytes) : toNatLE bs = 0 ↔ ∀ b ∈ bs, b = 0 := by
  induction bs with
  | nil => simp [toNatLE]
  | cons b bs ih =>
    have hb : b = 0 ↔ b.toNat = 0 := UInt8.toNat_inj.symm
    rw [toNatLE_cons, List.forall_mem_cons, ← ih, hb]
    omega

theorem isZero_iff (bs : Bytes) : isZero bs = true ↔ toNatLE bs = 0 := by
  rw [isZero, beq_iff_eq, foldl_or_eq_zero_iff, toNatLE_eq_zero_iff]
  exact and_iff_right rfl

theorem eq_zeros_iff (bs : Bytes) : bs = zeros bs.length ↔ toNatLE bs = 0 := by
  rw [zeros, List.eq_replicate_iff, toNatLE_eq_zero_iff]
  exact and_iff_right rfl

/-- A counter comes round to zero behind its last value only. -/
theorem toNatLE_incrementLE_eq_zero_iff (bs : Bytes) :
    toNatLE (incrementLE bs) = 0 ↔ toNatLE bs = 256 ^ bs.length - 1 := by
  have hlt := toNatLE_lt bs
  rw [toNatLE_incrementLE]
  constructor
  · intro hzero
    by_contra hbefore
    rw [Nat.mod_eq_of_lt (by omega)] at hzero
    omega
  · intro hlast
    rw [hlast, Nat.sub_add_cancel (by omega), Nat.mod_self]

theorem incrementLE_eq_zeros_iff (bs : Bytes) :
    incrementLE bs = zeros bs.length ↔ toNatLE bs = 256 ^ bs.length - 1 := by
  rw [← toNatLE_incrementLE_eq_zero_iff, ← eq_zeros_iff, length_incrementLE]

theorem isZero_incrementLE_iff (bs : Bytes) :
    isZero (incrementLE bs) = true ↔ toNatLE bs = 256 ^ bs.length - 1 := by
  rw [isZero_iff, toNatLE_incrementLE_eq_zero_iff]

/-- What is said of a string as a counter. -/
structure CountsUp (bs : Bytes) : Prop where
  /-- A step keeps the width. -/
  length : (incrementLE bs).length = bs.length
  /-- It adds one, modulo the width. -/
  value : toNatLE (incrementLE bs) = (toNatLE bs + 1) % 256 ^ bs.length
  /-- No carry overflows on the way. -/
  inRange : incrementChecked bs = some (incrementLE bs)
  /-- Several steps keep the width and add their number. -/
  steps : ∀ k, (incrementLE^[k] bs).length = bs.length ∧
    toNatLE (incrementLE^[k] bs) = (toNatLE bs + k) % 256 ^ bs.length
  /-- Behind the last value, and only there, every byte is zero. -/
  zero : incrementLE bs = zeros bs.length ↔ toNatLE bs = 256 ^ bs.length - 1
  /-- The test that looks at every byte finds this out. -/
  tested : isZero (incrementLE bs) = true ↔ toNatLE bs = 256 ^ bs.length - 1

end Bytes

end AuthEncryption
