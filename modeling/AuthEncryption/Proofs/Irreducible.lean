import Mathlib.FieldTheory.Finite.Extension
import Mathlib.RingTheory.AdjoinRoot

/-!
# A modulus without a factor

Squaring as many times as the degree says leads the residue of `x` back to itself, and half as
many times leads to one whose difference to `x` has an inverse. If the degree is a power of two,
these two facts leave no room for a factor: the degree of one divides the former number and
not the latter.
-/
namespace AuthEncryption

open Polynomial

theorem irreducible_of_squarings {m : (ZMod 2)[X]} {k : Nat} (hm : m.Monic)
    (hdegree : m.natDegree = 2 ^ (k + 1))
    (hback : AdjoinRoot.root m ^ 2 ^ 2 ^ (k + 1) = AdjoinRoot.root m)
    (hhalfway : IsUnit (AdjoinRoot.root m ^ 2 ^ 2 ^ k - AdjoinRoot.root m)) : Irreducible m := by
  have hunit : ¬ IsUnit m := not_isUnit_of_natDegree_pos _ (by rw [hdegree]; positivity)
  obtain ⟨g, hg, hdvd⟩ := WfDvdMonoid.exists_irreducible_factor hunit hm.ne_zero
  have hdivides : g.natDegree ∣ 2 ^ (k + 1) := by
    refine hg.natDegree_dvd_of_dvd_X_pow_card_pow_sub_X (hdvd.trans (AdjoinRoot.mk_eq_mk.mp ?_))
    rw [Nat.card_zmod, map_pow, AdjoinRoot.mk_X]
    exact hback
  have hnot : ¬ g.natDegree ∣ 2 ^ k := by
    intro hhalf
    have hX := hg.natDegree_dvd_iff_dvd_X_pow_card_pow_sub_X.mp hhalf
    rw [Nat.card_zmod] at hX
    obtain ⟨v, hv⟩ := hhalfway.exists_right_inv
    obtain ⟨p, rfl⟩ := AdjoinRoot.mk_surjective v
    -- The factor divides the difference and, as that has an inverse, one.
    have hone : g ∣ (X ^ 2 ^ 2 ^ k - X) * p - 1 := by
      refine hdvd.trans (AdjoinRoot.mk_eq_mk.mp ?_)
      rw [map_mul, map_sub, map_pow, AdjoinRoot.mk_X, hv, map_one]
    exact hg.not_dvd_one ((dvd_sub_right (hX.mul_right p)).mp hone)
  obtain ⟨j, hj, hpow⟩ := (Nat.dvd_prime_pow Nat.prime_two).mp hdivides
  have hlast : j = k + 1 := by
    by_contra hne
    exact hnot (hpow ▸ pow_dvd_pow 2 (show j ≤ k by omega))
  exact (associated_of_dvd_of_natDegree_le hdvd hm.ne_zero
    (by rw [hdegree, hpow, hlast])).irreducible hg

end AuthEncryption
