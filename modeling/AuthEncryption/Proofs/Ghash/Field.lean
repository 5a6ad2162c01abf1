import AuthEncryption.Ghash
import AuthEncryption.Proofs.Irreducible
import Mathlib.Algebra.CharP.Two
import Mathlib.Data.ZMod.Basic

/-!
# The field of blocks

The bits of a block are the coefficients of a polynomial over the two-element field, from the
top bit on. The loop of `multiply` keeps the second factor times a power of `x` and the sum of
the multiples that the bits of the first factor selected, both modulo a polynomial of degree
128. So the product of blocks is the product of residues, from which it has its laws. The
modulus has no factor: the degree of one would divide 128 but not 64, which two chains of
squarings show.
-/
namespace AuthEncryption.FieldElement

open Polynomial

/-- The polynomial one. -/
def one : FieldElement := ⟨0x8000000000000000, 0⟩

/-- The polynomial `x`. -/
def x : FieldElement := ⟨0x4000000000000000, 0⟩

instance : Zero FieldElement := ⟨zero⟩
instance : One FieldElement := ⟨one⟩
instance : Add FieldElement := ⟨add⟩
instance : Neg FieldElement := ⟨id⟩
instance : Mul FieldElement := ⟨multiply⟩

theorem add_eq (a b : FieldElement) : a.add b = a + b := rfl

@[simp] theorem bits_sum (a b : FieldElement) : (a + b).bits = a.bits ^^^ b.bits := bits_add a b

theorem bits_one : one.bits = 1#128 <<< 127 := by decide

/-! ## Elements as polynomials -/

/-- The polynomial of an element: bit `127 - i` of the integer is the coefficient of power `i`. -/
noncomputable def polynomial (v : FieldElement) : (ZMod 2)[X] :=
  ∑ i ∈ Finset.range 128, if v.bits.getLsbD (127 - i) then X ^ i else 0

/-- The polynomial by which products are reduced. -/
@[irreducible] noncomputable def modulus : (ZMod 2)[X] := X ^ 128 + X ^ 7 + X ^ 2 + X + 1

/-- The words of an element are the two halves of its integer. -/
theorem bits_bijective : Function.Bijective bits := by
  constructor
  · intro a b h
    have hhigh : BitVec.extractLsb' 64 64 a.bits = BitVec.extractLsb' 64 64 b.bits := by rw [h]
    have hlow : BitVec.setWidth 64 a.bits = BitVec.setWidth 64 b.bits := by rw [h]
    simp only [bits, BitVec.extractLsb'_append_eq_left, BitVec.setWidth_append_eq_right]
      at hhigh hlow
    exact FieldElement.ext (UInt64.toBitVec_inj.mp hhigh) (UInt64.toBitVec_inj.mp hlow)
  · intro n
    refine ⟨⟨⟨BitVec.extractLsb' 64 64 n⟩, ⟨BitVec.setWidth 64 n⟩⟩, ?_⟩
    apply BitVec.eq_of_getLsbD_eq
    intro i hi
    rw [bits, BitVec.getLsbD_append, BitVec.getLsbD_setWidth, BitVec.getLsbD_extractLsb']
    by_cases hlow : i < 64
    · simp [hlow]
    · simp [hlow, show i - 64 < 64 by omega, show 64 + (i - 64) = i by omega]

theorem coeff_polynomial (v : FieldElement) (i : Nat) :
    (polynomial v).coeff i = if v.bits.getMsbD i then 1 else 0 := by
  have hterm : ∀ j, (if v.bits.getLsbD (127 - j) then X ^ j else (0 : (ZMod 2)[X])).coeff i =
      if i = j then (if v.bits.getLsbD (127 - j) then 1 else 0) else 0 := by
    intro j
    split_ifs with hbit hij hij <;> simp [coeff_X_pow, hij]
  rw [polynomial, finsetSum_coeff, Finset.sum_congr rfl fun j _ => hterm j, Finset.sum_ite_eq,
    BitVec.getMsbD]
  by_cases hi : i < 128 <;> simp [hi]

theorem degree_polynomial_lt (v : FieldElement) : (polynomial v).degree < (128 : Nat) := by
  rw [degree_lt_iff_coeff_zero]
  intro i hi
  rw [coeff_polynomial, BitVec.getMsbD, decide_eq_false (Nat.not_lt.mpr hi), Bool.false_and]
  rfl

theorem polynomial_add (a b : FieldElement) :
    polynomial (a + b) = polynomial a + polynomial b := by
  ext i
  rw [coeff_add, coeff_polynomial, coeff_polynomial, coeff_polynomial, bits_sum, BitVec.getMsbD_xor]
  cases a.bits.getMsbD i <;> cases b.bits.getMsbD i <;> decide

theorem polynomial_injective : Function.Injective polynomial := by
  intro a b h
  apply bits_bijective.injective
  apply BitVec.eq_of_getMsbD_eq
  intro i hi
  have hcoeff := congrArg (coeff · i) h
  simp only [coeff_polynomial] at hcoeff
  cases ha : a.bits.getMsbD i <;> cases hb : b.bits.getMsbD i <;> simp [ha, hb] at hcoeff ⊢

/-- The polynomial as a sum over the powers whose bits are set. -/
theorem polynomial_eq_sum {v : FieldElement} {powers : Finset Nat}
    (h : (Finset.range 128).filter (fun i => v.bits.getLsbD (127 - i)) = powers) :
    polynomial v = ∑ i ∈ powers, X ^ i := by
  rw [polynomial, ← Finset.sum_filter, h]

theorem polynomial_reduction : polynomial reduction = X ^ 7 + X ^ 2 + X + 1 := by
  have hpowers : (Finset.range 128).filter (fun i => reduction.bits.getLsbD (127 - i)) =
      {7, 2, 1, 0} := by
    decide
  rw [polynomial_eq_sum hpowers]
  simp [add_assoc]

theorem polynomial_one : polynomial 1 = 1 := by
  have hpowers : (Finset.range 128).filter (fun i => (bits 1).getLsbD (127 - i)) = {0} := by
    decide
  rw [polynomial_eq_sum hpowers, Finset.sum_singleton, pow_zero]

theorem polynomial_x : polynomial x = X := by
  have hpowers : (Finset.range 128).filter (fun i => x.bits.getLsbD (127 - i)) = {1} := by
    decide
  rw [polynomial_eq_sum hpowers, Finset.sum_singleton, pow_one]

theorem modulus_eq : modulus = X ^ 128 + polynomial reduction := by
  rw [polynomial_reduction]
  unfold modulus
  abel

theorem monic_modulus : modulus.Monic := by
  rw [modulus_eq]
  exact monic_X_pow_add (degree_polynomial_lt reduction)

theorem degree_modulus : modulus.degree = (128 : Nat) := by
  have hlt : (polynomial reduction).degree < (X ^ 128 : (ZMod 2)[X]).degree := by
    rw [degree_X_pow]
    exact degree_polynomial_lt reduction
  rw [modulus_eq, degree_add_eq_left_of_degree_lt hlt, degree_X_pow]

/-- The polynomial of an element is reduced already. -/
theorem polynomial_mod (v : FieldElement) : polynomial v %ₘ modulus = polynomial v := by
  rw [modByMonic_eq_self_iff monic_modulus, degree_modulus]
  exact degree_polynomial_lt v

/-- The coefficients move to the next power, and that of power 127 leaves the element. -/
theorem X_mul_polynomial (v : FieldElement) :
    X * polynomial v = polynomial v.shift + if v.bits.getLsbD 0 then X ^ 128 else 0 := by
  have hlast : ∀ i, (if v.bits.getLsbD 0 then X ^ 128 else (0 : (ZMod 2)[X])).coeff i =
      if i = 128 ∧ v.bits.getLsbD 0 then 1 else 0 := by
    intro i
    split_ifs <;> simp_all [coeff_X_pow]
  ext i
  rw [coeff_add, coeff_polynomial, bits_shift, BitVec.getMsbD_ushiftRight, hlast]
  cases i with
  | zero => simp
  | succ i =>
    rw [coeff_X_mul, coeff_polynomial]
    rcases Nat.lt_trichotomy i 127 with hlt | rfl | hgt
    · simp [show i + 1 < 128 by omega, show i ≠ 127 by omega]
    · simp [BitVec.getMsbD]
    · simp [BitVec.getMsbD, show ¬ i < 128 by omega, show ¬ i + 1 < 128 by omega,
        show i ≠ 127 by omega]

theorem timesX_eq (v : FieldElement) :
    v.timesX = if v.bits.getLsbD 0 then v.shift + reduction else v.shift := by
  apply bits_bijective.injective
  rw [bits_timesX]
  split_ifs <;> simp

/-! ## Elements as residues -/

/-- The residue of an element modulo the polynomial. -/
noncomputable def residue (v : FieldElement) : AdjoinRoot modulus :=
  AdjoinRoot.mk modulus (polynomial v)

/-- The residue of `x`. -/
noncomputable def root : AdjoinRoot modulus := AdjoinRoot.root modulus

/-- The polynomial of an element is what its residue reduces to. -/
theorem polynomial_eq_mod {v : FieldElement} {p : (ZMod 2)[X]}
    (h : residue v = AdjoinRoot.mk modulus p) : polynomial v = p %ₘ modulus := by
  rw [← polynomial_mod v]
  exact modByMonic_eq_of_dvd_sub monic_modulus (AdjoinRoot.mk_eq_mk.mp h)

theorem residue_injective : Function.Injective residue := by
  intro a b h
  apply polynomial_injective
  rw [polynomial_eq_mod h, polynomial_mod]

@[simp] theorem residue_add (a b : FieldElement) :
    residue (a + b) = residue a + residue b := by
  rw [residue, polynomial_add, map_add]
  rfl

@[simp] theorem residue_zero : residue 0 = 0 := by
  have hzero : (0 : FieldElement).bits = 0 := bits_zero
  simp [residue, polynomial, hzero]

@[simp] theorem residue_one : residue 1 = 1 := by
  rw [residue, polynomial_one, map_one]

/-- The residue as a sum of powers of `x`. -/
theorem residue_eq_sum (v : FieldElement) :
    residue v = ∑ i ∈ Finset.range 128, if v.bits.getMsbD i then root ^ i else 0 := by
  rw [residue, polynomial, map_sum]
  refine Finset.sum_congr rfl fun i hi => ?_
  rw [BitVec.getMsbD, decide_eq_true (Finset.mem_range.mp hi), Bool.true_and,
    apply_ite (AdjoinRoot.mk modulus), map_zero, map_pow, AdjoinRoot.mk_X]
  rfl

@[simp] theorem residue_timesX (v : FieldElement) : residue v.timesX = root * residue v := by
  have hred : AdjoinRoot.mk modulus (X ^ 128) = residue reduction := by
    rw [residue, AdjoinRoot.mk_eq_mk, CharTwo.sub_eq_add, modulus_eq]
  have hmul : root * residue v = AdjoinRoot.mk modulus (X * polynomial v) := by
    rw [map_mul, AdjoinRoot.mk_X]
    rfl
  rw [hmul, X_mul_polynomial, timesX_eq, map_add]
  split_ifs
  · rw [residue_add, hred]
    rfl
  · rw [map_zero, add_zero]
    rfl

/-! ## The product -/

/-- The sum of the powers of `x` that the first bits of a word select. -/
noncomputable def selected (count : Nat) (word : UInt64) : AdjoinRoot modulus :=
  ∑ i ∈ Finset.range count, if word.toBitVec.getMsbD i then root ^ i else 0

theorem getMsbD_shiftLeft_one (word : UInt64) (i : Nat) :
    (word <<< 1).toBitVec.getMsbD i = word.toBitVec.getMsbD (i + 1) := by
  have hone : UInt64.toBitVec 1 % 64 = 1#64 := rfl
  rw [UInt64.toBitVec_shiftLeft, hone, BitVec.shiftLeft_eq', BitVec.getMsbD_shiftLeft]
  rfl

theorem shiftRight_eq_zero_iff (word : UInt64) :
    word >>> 63 = 0 ↔ word.toBitVec.getMsbD 0 = false := by
  have hlt : word.toNat < 2 ^ 64 := word.toNat_lt
  have hshift : (word >>> 63).toNat = word.toNat / 2 ^ 63 := Nat.shiftRight_eq_div_pow _ 63
  have hbit : word.toBitVec.getMsbD 0 = decide (word.toNat / 2 ^ 63 % 2 = 1) :=
    Nat.testBit_eq_decide_div_mod_eq
  rw [← UInt64.toNat_inj, hshift, hbit, decide_eq_false_iff_not, UInt64.toNat_zero]
  omega

theorem selected_succ (count : Nat) (word : UInt64) :
    selected (count + 1) word =
      root * selected count (word <<< 1) + if word >>> 63 = 0 then 0 else 1 := by
  have hzeroth : (if word >>> 63 = 0 then (0 : AdjoinRoot modulus) else 1) =
      if word.toBitVec.getMsbD 0 then root ^ 0 else 0 := by
    simp only [shiftRight_eq_zero_iff, pow_zero]
    cases word.toBitVec.getMsbD 0 <;> rfl
  rw [selected, Finset.sum_range_succ', selected, Finset.mul_sum, hzeroth]
  refine congrArg (· + _) (Finset.sum_congr rfl fun i _ => ?_)
  rw [getMsbD_shiftLeft_one, mul_ite, mul_zero, pow_succ']

/-- Going on by the bits of a word multiplies by a power of `x`, and adds the products with
the powers that the bits select. -/
theorem residue_advance (count : Nat) (word : UInt64) (p : Product) :
    residue (p.advance count word).multiple = root ^ count * residue p.multiple ∧
      residue (p.advance count word).sum =
        residue p.sum + selected count word * residue p.multiple := by
  induction count generalizing word p with
  | zero => simp [Product.advance, selected]
  | succ count ih =>
    -- The run goes on from the product after one bit, with the bits behind it at the top.
    obtain ⟨hmultiple, hsum⟩ := ih (word <<< 1)
      { multiple := p.multiple.timesX
        sum := if word >>> 63 = 0 then p.sum else p.sum.add p.multiple }
    rw [Product.advance, hmultiple, hsum, selected_succ, residue_timesX]
    constructor
    · ring
    · split_ifs
      · ring
      · rw [add_eq, residue_add]
        ring

theorem residue_words (v : FieldElement) :
    residue v = selected 64 v.high + root ^ 64 * selected 64 v.low := by
  have hhigh : ∀ i ∈ Finset.range 64, v.bits.getMsbD i = v.high.toBitVec.getMsbD i := by
    intro i hi
    rw [bits, BitVec.getMsbD_append]
    simp [Finset.mem_range.mp hi]
  have hlow : ∀ i ∈ Finset.range 64, v.bits.getMsbD (64 + i) = v.low.toBitVec.getMsbD i := by
    intro i hi
    rw [bits, BitVec.getMsbD_append]
    simp
  rw [residue_eq_sum, Finset.sum_range_add _ 64 64, selected, selected, Finset.mul_sum]
  refine congrArg₂ (· + ·) (Finset.sum_congr rfl fun i hi => ?_)
    (Finset.sum_congr rfl fun i hi => ?_)
  · rw [hhigh i hi]
  · rw [hlow i hi, mul_ite, mul_zero, pow_add]

@[simp] theorem residue_mul (x y : FieldElement) : residue (x * y) = residue x * residue y := by
  have hrun : x * y = ((Product.advance 64 x.low
      (Product.advance 64 x.high { multiple := y, sum := 0 })).sum) := rfl
  rw [hrun, (residue_advance _ _ _).2, (residue_advance _ _ _).2, (residue_advance _ _ _).1,
    residue_words x, residue_zero]
  ring

/-- The polynomial of the product is the product of the polynomials, reduced. -/
theorem polynomial_mul (x y : FieldElement) :
    polynomial (x * y) = polynomial x * polynomial y %ₘ modulus := by
  apply polynomial_eq_mod
  rw [residue_mul, map_mul]
  rfl

/-! ## The ring -/

theorem add_self (a : FieldElement) : a + a = 0 := by
  apply bits_bijective.injective
  rw [bits_sum, BitVec.xor_self]
  exact bits_zero.symm

instance : CommRing FieldElement where
  add_assoc a b c := residue_injective (by simp only [residue_add, add_assoc])
  zero_add a := residue_injective (by simp only [residue_add, residue_zero, zero_add])
  add_zero a := residue_injective (by simp only [residue_add, residue_zero, add_zero])
  add_comm a b := residue_injective (by simp only [residue_add, add_comm])
  neg_add_cancel := add_self
  mul_assoc a b c := residue_injective (by simp only [residue_mul, mul_assoc])
  mul_comm a b := residue_injective (by simp only [residue_mul, mul_comm])
  one_mul a := residue_injective (by simp only [residue_mul, residue_one, one_mul])
  mul_one a := residue_injective (by simp only [residue_mul, residue_one, mul_one])
  zero_mul a := residue_injective (by simp only [residue_mul, residue_zero, zero_mul])
  mul_zero a := residue_injective (by simp only [residue_mul, residue_zero, mul_zero])
  left_distrib a b c := residue_injective (by simp only [residue_mul, residue_add, mul_add])
  right_distrib a b c := residue_injective (by simp only [residue_mul, residue_add, add_mul])
  nsmul := nsmulRec
  zsmul := zsmulRec

/-- Taking residues keeps sums and products. -/
noncomputable def residueHom : FieldElement →+* AdjoinRoot modulus where
  toFun := residue
  map_zero' := residue_zero
  map_one' := residue_one
  map_add' := residue_add
  map_mul' := residue_mul

/-! ## No factor of the modulus -/

/-- What comes of squaring again and again. -/
def squares : (count : Nat) → FieldElement → FieldElement
  | 0, v => v
  | count + 1, v => squares count (v * v)

theorem squares_add (m n : Nat) (v : FieldElement) :
    squares (m + n) v = squares n (squares m v) := by
  induction m generalizing v with
  | zero => rw [Nat.zero_add, squares]
  | succ m ih => rw [Nat.succ_add, squares, ih, squares]

theorem residue_squares (count : Nat) (v : FieldElement) :
    residue (squares count v) = residue v ^ 2 ^ count := by
  induction count generalizing v with
  | zero => rw [squares, pow_zero, pow_one]
  | succ count ih => rw [squares, ih, residue_mul, ← pow_two, ← pow_mul, ← pow_succ']

/-- Half of the squarings that lead `x` back to itself. -/
def halfway : FieldElement := ⟨0x6f9945a9e519a722, 0x9d4c1ad657f8a686⟩

theorem squares_x : squares 64 x = halfway := by decide +kernel

theorem squares_halfway : squares 64 halfway = x := by decide +kernel

/-- The inverse of what `halfway` and `x` differ by. -/
def halfwayInverse : FieldElement := ⟨0x180da934bf531582, 0x51c13dbb149f5279⟩

theorem mul_halfwayInverse : (halfway + x) * halfwayInverse = 1 := by
  cbv

theorem residue_x : residue x = root := by
  rw [residue, polynomial_x, AdjoinRoot.mk_X]
  rfl

/-- The modulus is irreducible: 128 squarings lead `x` back, and 64 do not. -/
theorem irreducible_modulus : Irreducible modulus := by
  have hback : squares (2 ^ (6 + 1)) x = x := by
    rw [show 2 ^ (6 + 1) = 64 + 64 from rfl, squares_add, squares_x, squares_halfway]
  have hhalfway : squares (2 ^ 6) x = halfway := squares_x
  have hroot : AdjoinRoot.root modulus = residueHom x := residue_x.symm
  have hsquares : ∀ count, residueHom x ^ 2 ^ count = residueHom (squares count x) := fun count =>
    (residue_squares count x).symm
  refine irreducible_of_squarings (k := 6) monic_modulus
    (natDegree_eq_of_degree_eq_some degree_modulus) ?_ ?_
  · rw [hroot, hsquares, hback]
  · rw [hroot, hsquares, hhalfway, ← map_sub]
    exact (IsUnit.of_mul_eq_one halfwayInverse mul_halfwayInverse).map residueHom

/-! ## The laws of the product -/

/-- The product of two blocks is the product of their polynomials, reduced modulo an irreducible
polynomial of degree 128. Every integer of 128 bits is a block, and the exclusive or of the
integers is the sum. The product commutes, associates and distributes over the sum, and the
block with nothing but the top bit changes no other. -/
theorem multiply_in_field :
    Function.Bijective bits ∧ Irreducible modulus ∧
    (∀ x y : FieldElement, polynomial (x.multiply y) = polynomial x * polynomial y %ₘ modulus) ∧
    (∀ x y : FieldElement, x.multiply y = y.multiply x) ∧
    (∀ x y z : FieldElement, (x.multiply y).multiply z = x.multiply (y.multiply z)) ∧
    (∀ x y : FieldElement, (x.add y).bits = x.bits ^^^ y.bits) ∧
    (∀ x y z : FieldElement, x.multiply (y.add z) = (x.multiply y).add (x.multiply z) ∧
      (x.add y).multiply z = (x.multiply z).add (y.multiply z)) ∧
    one.bits = 1#128 <<< 127 ∧ ∀ x : FieldElement, one.multiply x = x ∧ x.multiply one = x :=
  ⟨bits_bijective, irreducible_modulus, polynomial_mul, mul_comm, mul_assoc, bits_add,
    fun x y z => ⟨mul_add x y z, add_mul x y z⟩, bits_one, fun x => ⟨one_mul x, mul_one x⟩⟩

end AuthEncryption.FieldElement
