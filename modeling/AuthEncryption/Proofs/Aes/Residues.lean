import AuthEncryption.Proofs.Aes.Field
import Mathlib.Data.ZMod.Basic
import AuthEncryption.Proofs.Irreducible

/-!
# Bytes as residues

The bits of a byte are the coordinates of a residue modulo `x^8 + x^4 + x^3 + x + 1` in the
basis of the powers of `x`. Sums and products of bytes are those of their residues. Every
byte but zero has an inverse, so the residues are a field and the modulus has no factor; the
power of 254 is the inverse of the residue.
-/
namespace AuthEncryption.Aes

open Polynomial

/-! ## Octets -/

/-- The bits of a byte, the lowest one first. -/
abbrev Octet := Fin 8 → ZMod 2

def bits (b : UInt8) : Octet := fun i => if b.toBitVec.getLsbD i then 1 else 0

theorem bits_xor (a b : UInt8) : bits (a ^^^ b) = bits a + bits b := by
  funext i
  simp only [bits, Pi.add_apply, UInt8.toBitVec_xor, BitVec.getLsbD_xor]
  cases a.toBitVec.getLsbD i <;> cases b.toBitVec.getLsbD i <;> decide

theorem bits_injective : Function.Injective bits := by
  intro a b h
  apply UInt8.toBitVec_inj.mp
  apply BitVec.eq_of_getLsbD_eq
  intro i hi
  have hbit := congrFun h ⟨i, hi⟩
  simp only [bits] at hbit
  cases ha : a.toBitVec.getLsbD i <;> cases hb : b.toBitVec.getLsbD i <;> simp [ha, hb] at hbit ⊢

theorem bits_bit (i : Fin 8) : bits (bit i) = Pi.single i 1 := by
  revert i
  decide

theorem bits_zero : bits 0 = 0 := by decide

/-- Every octet is the sum of the bytes of its bits. -/
theorem bits_surjective : Function.Surjective bits := by
  intro v
  have hsum : ∀ s : Finset (Fin 8), ∃ b, bits b = ∑ i ∈ s, Pi.single i (v i) := by
    intro s
    induction s using Finset.induction_on with
    | empty => exact ⟨0, bits_zero⟩
    | insert i s hnew ih =>
      obtain ⟨b, hb⟩ := ih
      have hbit : ∃ c, bits c = Pi.single i (v i) := by
        have hcases : ∀ a : ZMod 2, a = 0 ∨ a = 1 := by decide
        rcases hcases (v i) with h | h
        · exact ⟨0, by rw [h, bits_zero, Pi.single_zero]⟩
        · exact ⟨bit i, by rw [h, bits_bit]⟩
      obtain ⟨c, hc⟩ := hbit
      exact ⟨c ^^^ b, by rw [bits_xor, hb, hc, Finset.sum_insert hnew]⟩
  obtain ⟨b, hb⟩ := hsum Finset.univ
  exact ⟨b, hb.trans (Finset.univ_sum_single v)⟩

theorem bits_bijective : Function.Bijective bits := ⟨bits_injective, bits_surjective⟩

/-! ## Residues -/

/-- The polynomial by which products are reduced. -/
noncomputable def modulus : (ZMod 2)[X] := X ^ 8 + (X ^ 4 + X ^ 3 + X + 1)

/-- What the polynomials leave modulo the other one: the field of 256 elements. -/
abbrev Residue := AdjoinRoot modulus

theorem natDegree_low : (X ^ 4 + X ^ 3 + X + 1 : (ZMod 2)[X]).natDegree = 4 := by
  compute_degree!

theorem degree_low_lt : (X ^ 4 + X ^ 3 + X + 1 : (ZMod 2)[X]).degree < (8 : Nat) :=
  lt_of_le_of_lt degree_le_natDegree (by rw [natDegree_low]; decide)

theorem monic_modulus : modulus.Monic := monic_X_pow_add degree_low_lt

theorem natDegree_modulus : modulus.natDegree = 8 := by
  unfold modulus
  compute_degree!

/-- The coefficients of the powers of `x` in a residue. -/
noncomputable def coordinates : Residue ≃ₗ[ZMod 2] Octet :=
  ((AdjoinRoot.powerBasis' monic_modulus).basis.reindex (finCongr natDegree_modulus)).equivFun

noncomputable def octetOf (a : Residue) : Octet := coordinates a

/-- The residue with these coefficients. -/
noncomputable def residueOf (v : Octet) : Residue := coordinates.symm v

@[simp] theorem octetOf_residueOf (v : Octet) : octetOf (residueOf v) = v :=
  coordinates.apply_symm_apply v

@[simp] theorem residueOf_octetOf (a : Residue) : residueOf (octetOf a) = a :=
  coordinates.symm_apply_apply a

theorem residueOf_injective : Function.Injective residueOf := coordinates.symm.injective

theorem residueOf_zero : residueOf 0 = 0 := map_zero coordinates.symm

theorem residueOf_add (v w : Octet) : residueOf (v + w) = residueOf v + residueOf w :=
  map_add coordinates.symm v w

theorem residueOf_apply (v : Octet) :
    residueOf v = ∑ i, v i • AdjoinRoot.root modulus ^ (i : Nat) := by
  rw [residueOf, coordinates, Module.Basis.equivFun_symm_apply]
  refine Finset.sum_congr rfl fun i _ => ?_
  rw [Module.Basis.reindex_apply, PowerBasis.basis_eq_pow, AdjoinRoot.powerBasis'_gen]
  rfl

theorem residueOf_single (i : Fin 8) :
    residueOf (Pi.single i 1) = AdjoinRoot.root modulus ^ (i : Nat) := by
  rw [residueOf_apply, Finset.sum_eq_single i]
  · rw [Pi.single_eq_same, one_smul]
  · intro j _ hj
    rw [Pi.single_eq_of_ne hj, zero_smul]
  · intro hi
    exact absurd (Finset.mem_univ i) hi

/-- The residue of a byte. -/
noncomputable def residue (b : UInt8) : Residue := residueOf (bits b)

theorem residue_xor (a b : UInt8) : residue (a ^^^ b) = residue a + residue b := by
  rw [residue, bits_xor, residueOf_add]
  rfl

theorem residue_bit (i : Fin 8) : residue (bit i) = AdjoinRoot.root modulus ^ (i : Nat) := by
  rw [residue, bits_bit, residueOf_single]

theorem residue_one : residue 1 = 1 := residue_bit 0

/-- The power of `x` that leaves a byte comes back as lower powers. -/
theorem root_pow_eight : AdjoinRoot.root modulus ^ 8 = residue 0x1b := by
  have hlow : (0x1b : UInt8) = bit 4 ^^^ bit 3 ^^^ bit 1 ^^^ bit 0 := by decide
  have hpowers : residue 0x1b = AdjoinRoot.mk modulus (X ^ 4 + X ^ 3 + X + 1) := by
    rw [hlow, residue_xor, residue_xor, residue_xor, residue_bit, residue_bit, residue_bit,
      residue_bit]
    simp
  have heighth : AdjoinRoot.root modulus ^ 8 = AdjoinRoot.mk modulus (X ^ 8) := by
    rw [map_pow, AdjoinRoot.mk_X]
  rw [hpowers, heighth, AdjoinRoot.mk_eq_mk, CharTwo.sub_eq_add, modulus]

/-- Doubling multiplies by `x`. -/
theorem residue_double (b : UInt8) :
    residue (double b) = AdjoinRoot.root modulus * residue b := by
  refine bit_induction
    (P := fun b => residue (double b) = AdjoinRoot.root modulus * residue b) (fun i => ?_)
    (fun a b ha hb => ?_) b
  · rw [residue_bit, ← pow_succ']
    rcases Fin.eq_castSucc_or_eq_last i with ⟨i, rfl⟩ | rfl
    · have hnext : double (bit i.castSucc) = bit i.succ := by
        revert i
        decide
      rw [hnext, residue_bit]
      rfl
    · exact root_pow_eight.symm
  · rw [double_xor, residue_xor, residue_xor, ha, hb, mul_add]

theorem residue_multiply (a b : UInt8) : residue (multiply a b) = residue a * residue b := by
  refine double_induction (P := fun a => residue (multiply a b) = residue a * residue b) ?_
    (fun a ha => ?_) (fun a a' ha ha' => ?_) a
  · rw [one_multiply, residue_one, one_mul]
  · rw [double_multiply, residue_double, ha, residue_double, mul_assoc]
  · rw [xor_multiply, residue_xor, ha, ha', residue_xor, add_mul]

/-- Taking residues keeps sums and products. -/
noncomputable def residueHom : Element →+* Residue where
  toFun a := residue a.byte
  map_zero' := by rw [Element.byte_zero, residue, bits_zero, residueOf_zero]
  map_one' := residue_one
  map_add' a b := residue_xor a.byte b.byte
  map_mul' a b := residue_multiply a.byte b.byte

theorem residueHom_apply (a : Element) : residueHom a = residue a.byte := rfl

theorem residueHom_x : residueHom Element.x = AdjoinRoot.root modulus := by
  rw [residueHom_apply, ← pow_one (AdjoinRoot.root modulus)]
  exact residue_bit 1

/-! ## The field -/

/-- The inverse of what the power of 16 of `x` and `x` differ by. -/
def halfwayInverse : Element := ⟨0x51⟩

theorem mul_halfwayInverse : (Element.x ^ 16 - Element.x) * halfwayInverse = 1 := by
  decide +kernel

theorem irreducible_modulus : Irreducible modulus := by
  refine irreducible_of_squarings (k := 2) monic_modulus natDegree_modulus ?_ ?_
  · rw [← residueHom_x, ← map_pow]
    exact congrArg residueHom Element.x.pow_card
  · rw [← residueHom_x, ← map_pow, ← map_sub]
    exact (IsUnit.of_mul_eq_one _ mul_halfwayInverse).map residueHom

instance : Fact (Irreducible modulus) := ⟨irreducible_modulus⟩

instance : CharP Residue 2 := charP_of_injective_algebraMap (algebraMap (ZMod 2) Residue).injective 2

/-- The power of 254 of a byte is the inverse of its residue. -/
theorem residue_inverse (b : UInt8) : residue (inverse b) = (residue b)⁻¹ := by
  have hpower : ∀ n, residue ((Element.mk b ^ n).byte) = residue b ^ n := by
    intro n
    rw [← residueHom_apply, map_pow, residueHom_apply]
  rw [← Element.byte_pow_254 ⟨b⟩, hpower]
  by_cases hzero : residue b = 0
  · rw [hzero, inv_zero, zero_pow (by decide)]
  · have hperiod : residue b ^ 256 = residue b := by rw [← hpower, Element.pow_card]
    refine eq_inv_of_mul_eq_one_left (mul_right_cancel₀ hzero ?_)
    rw [one_mul, ← pow_succ, ← pow_succ, hperiod]

end AuthEncryption.Aes
