import Mathlib.Algebra.BigOperators.Intervals
import Mathlib.Algebra.BigOperators.Ring.Finset

/-!
# Horner's rule

A list gives the coefficients of a polynomial without a constant term: the first element has
the highest power and the last one the first power. One more element adds its coefficient and
multiplies by the point, so a run over the list evaluates the polynomial.
-/
namespace AuthEncryption

variable {R α : Type*} [CommSemiring R]

theorem horner_concat (f : α → R) (r : R) (d : α) (l : List α) (a : α) :
    ∑ i ∈ Finset.range (l ++ [a]).length, f ((l ++ [a]).getD i d) * r ^ ((l ++ [a]).length - i) =
      (∑ i ∈ Finset.range l.length, f (l.getD i d) * r ^ (l.length - i) + f a) * r := by
  have hlast : (l ++ [a]).getD l.length d = a := by simp
  have hterm : ∀ i ∈ Finset.range l.length,
      f ((l ++ [a]).getD i d) * r ^ (l.length + 1 - i) =
        f (l.getD i d) * r ^ (l.length - i) * r := by
    intro i hi
    rw [Finset.mem_range] at hi
    have hget : (l ++ [a]).getD i d = l.getD i d := by
      simp [List.getD_eq_getElem?_getD, List.getElem?_append_left hi]
    rw [hget, Nat.succ_sub (Nat.le_of_lt hi), pow_succ, mul_assoc]
  rw [List.length_append, List.length_singleton, Finset.sum_range_succ,
    Finset.sum_congr rfl hterm, ← Finset.sum_mul, hlast, Nat.add_sub_cancel_left, pow_one, add_mul]

/-- The element that stands for the places behind the list does not count. -/
theorem foldl_horner (f : α → R) (r : R) (d : α) (l : List α) :
    l.foldl (fun value a => (value + f a) * r) 0 =
      ∑ i ∈ Finset.range l.length, f (l.getD i d) * r ^ (l.length - i) := by
  induction l using List.reverseRecOn with
  | nil => rfl
  | append_singleton l a ih =>
    rw [List.foldl_append, List.foldl_cons, List.foldl_nil, ih, horner_concat]

end AuthEncryption
