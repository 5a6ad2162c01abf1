import AuthEncryption.Proofs.ByteStrings
import AuthEncryption.Random
import Mathlib.Data.Int.CardIntervalMod

/-!
# Bounded integers without bias

Of the words of a source the loop keeps all but the first `2 ^ w mod upper`. The kept ones can be
cut into runs of `upper` words, and every run has each remainder once, so no number is more
frequent than another; the others are fewer than half of all words. The loop takes the words of its
source one after the other, and what it gives is the remainder of the first one that it keeps.
-/
namespace AuthEncryption

/-! ## Counting remainders -/

/-- Behind the first `n % upper` numbers below `n` all remainders are equally frequent. -/
theorem count_remainder {n upper k : Nat} (hk : k < upper) :
    Nat.count (fun word => n % upper ≤ word ∧ word % upper = k) n = n / upper := by
  have hpos : 0 < upper := Nat.zero_lt_of_lt hk
  obtain ⟨floor, hfloor⟩ : ∃ floor, floor = n % upper := ⟨_, rfl⟩
  have hlt : floor < upper := hfloor ▸ Nat.mod_lt n hpos
  have hsplit (p : Nat → Prop) [DecidablePred p] :
      Nat.count p n = Nat.count p floor + Nat.count (fun word => p (floor + word)) (n - floor) := by
    rw [← Nat.count_add, Nat.add_sub_of_le (hfloor ▸ Nat.mod_le n upper)]
  -- All numbers have one `k` more than they have full runs if `k` is among the first ones, and the
  -- first ones have just that one.
  have hall := Nat.count_modEq_card n hpos k
  have hfirst := Nat.count_modEq_card floor hpos k
  rw [hsplit, ← hfloor, Nat.mod_eq_of_lt hk] at hall
  rw [Nat.div_eq_of_lt hlt, Nat.mod_eq_of_lt hlt, Nat.mod_eq_of_lt hk, Nat.zero_add] at hfirst
  have hnone : Nat.count (fun word => floor ≤ word ∧ word % upper = k) floor = 0 :=
    Nat.count_iff_forall_not.mpr fun word hword hkept => Nat.not_le_of_lt hword hkept.1
  have hkept : (fun word => floor ≤ floor + word ∧ (floor + word) % upper = k) =
      fun word => floor + word ≡ k [MOD upper] := by
    funext word
    rw [Nat.ModEq, Nat.mod_eq_of_lt hk, eq_iff_iff]
    exact and_iff_right (Nat.le_add_right floor word)
  rw [← hfloor, hsplit, hnone]
  simp only [hkept]
  omega

/-- A remainder is less than half of the number. -/
theorem two_mul_mod_lt {n upper : Nat} (hpos : 0 < upper) (hle : upper ≤ n) :
    2 * (n % upper) < n := by
  have hrun : upper * 1 ≤ upper * (n / upper) := Nat.mul_le_mul_left upper (Nat.div_pos hle hpos)
  have hlt := Nat.mod_lt n hpos
  have hsplit := Nat.mod_add_div n upper
  omega

theorem count_not_le {m n : Nat} (h : m ≤ n) : Nat.count (fun word => ¬ m ≤ word) n = m := by
  obtain ⟨more, rfl⟩ := Nat.exists_eq_add_of_le h
  rw [Nat.count_add, Nat.count_of_forall fun word hword => Nat.not_le_of_lt hword,
    Nat.count_iff_forall_not.mpr fun word _ hout => hout (Nat.le_add_right m word), Nat.add_zero]

/-! ## The words of a source -/

namespace RandomSource

variable {width : Nat}

/-- The words of `width` bytes that a source can still give out, in this order. -/
def words (width : Nat) (source : RandomSource) : List Nat :=
  (Bytes.fullPieces width source.remaining).map Bytes.toNatLE

theorem advance_advance (source : RandomSource) (m n : Nat) :
    (source.advance m).advance n = source.advance (m + n) := by
  simp only [advance, List.drop_drop, Nat.add_assoc]

theorem words_of_lt {source : RandomSource} (h : source.remaining.length < width) :
    source.words width = [] := by
  rw [words, Bytes.fullPieces, Nat.div_eq_of_lt h]
  rfl

theorem words_of_le (positive : 0 < width) {source : RandomSource}
    (h : width ≤ source.remaining.length) :
    source.words width =
      Bytes.toNatLE (source.remaining.take width) :: (source.advance width).words width := by
  have hcount : source.remaining.length / width =
      (source.remaining.drop width).length / width + 1 := by
    rw [List.length_drop, Nat.div_eq_sub_div positive h]
  rw [words, Bytes.fullPieces, hcount, Bytes.takePieces, List.map_cons]
  rfl

/-- The run lemma: the loop gives out every word up to the first one that is not below `floor`, or
all of them where there is none. -/
theorem drawBelow_eq (source : RandomSource) (floor upper : Nat) (positive : 0 < width) :
    source.drawBelow width floor upper positive =
      match (source.words width).find? (floor ≤ ·) with
      | some word =>
        (.ok (word % upper),
          source.advance (width * ((source.words width).findIdx (floor ≤ ·) + 1)))
      | none =>
        (.error (.randomGeneration source.context),
          source.advance (width * (source.words width).length)) := by
  fun_induction drawBelow source width floor upper positive with
  | case1 source next hlength word hkept =>
    have hle : width ≤ source.remaining.length := by
      rw [← hlength, List.length_take]
      exact Nat.min_le_right ..
    have hfirst : decide (floor ≤ Bytes.toNatLE (source.remaining.take width)) = true :=
      decide_eq_true hkept
    rw [words_of_le positive hle, List.find?_cons, hfirst, List.findIdx_cons, hfirst, cond_true,
      Nat.zero_add, Nat.mul_one]
  | case2 source next hlength word hbelow ih =>
    have hle : width ≤ source.remaining.length := by
      rw [← hlength, List.length_take]
      exact Nat.min_le_right ..
    have hfirst : decide (floor ≤ Bytes.toNatLE (source.remaining.take width)) = false :=
      decide_eq_false hbelow
    have hplaces (n : Nat) : width + width * n = width * (n + 1) := by
      rw [Nat.mul_succ, Nat.add_comm]
    simp only [ih, words_of_le positive hle, List.find?_cons, hfirst, List.findIdx_cons, cond_false,
      List.length_cons, advance_advance, hplaces]
    rfl
  | case3 source next hlength =>
    have hshort : source.remaining.length < width := by
      have hne : min width source.remaining.length ≠ width := List.length_take ▸ hlength
      omega
    rw [words_of_lt hshort]
    rfl

end RandomSource

namespace Random

/-- The floor is the remainder of the number of words. -/
theorem rejectionFloor_eq {width upper : Nat} (h : upper ≤ 2 ^ (8 * width)) :
    rejectionFloor width upper = 2 ^ (8 * width) % upper := by
  have hcount : wordCount width = 2 ^ (8 * width) := (Nat.pow_mul 2 8 width).symm
  rw [rejectionFloor, hcount, ← Nat.add_mod_right, Nat.sub_add_cancel h]

/-- How a bounded integer is drawn: words of `width` bytes are kept from the first `2 ^ w mod upper`
ones on, no remainder of a kept word is more frequent than another, and the first kept word of a
source decides. -/
structure DrawsEvenly (width upper : Nat) (draw : Random Nat) : Prop where
  /-- Every number below the bound is the remainder of as many kept words as any other. -/
  even : 2 ≤ upper → ∀ k < upper,
    Nat.count (fun word => 2 ^ (8 * width) % upper ≤ word ∧ word % upper = k) (2 ^ (8 * width)) =
      2 ^ (8 * width) / upper
  /-- Fewer than half of all words are thrown away. -/
  few : 2 ≤ upper →
    2 * Nat.count (fun word => ¬ 2 ^ (8 * width) % upper ≤ word) (2 ^ (8 * width)) < 2 ^ (8 * width)
  /-- Words are taken one after the other up to the first one that is kept; a source that has none
  gives out all its words and reports that it has run dry. -/
  first : 2 ≤ upper → ∀ source : RandomSource,
    draw.runOn source =
      match (source.words width).find? (2 ^ (8 * width) % upper ≤ ·) with
      | some word =>
        (.ok (word % upper),
          source.advance
            (width * ((source.words width).findIdx (2 ^ (8 * width) % upper ≤ ·) + 1)))
      | none =>
        (.error (.randomGeneration source.context),
          source.advance (width * (source.words width).length))
  below : 2 ≤ upper → ∀ (source : RandomSource) (n : Nat),
    (draw.runOn source).1 = .ok n → n < upper
  /-- Where there is no choice nothing is drawn. -/
  only : upper < 2 → ∀ source : RandomSource, draw.runOn source = (.ok 0, source)

theorem drawsEvenly_below {width upper : Nat} (positive : 0 < width)
    (h : upper ≤ 2 ^ (8 * width)) : DrawsEvenly width upper (below width upper positive) := by
  have hrun (hupper : 2 ≤ upper) (source : RandomSource) :
      (below width upper positive).runOn source =
        source.drawBelow width (2 ^ (8 * width) % upper) upper positive := by
    rw [← rejectionFloor_eq h]
    exact if_neg (Nat.not_lt_of_le hupper)
  constructor
  case even => exact fun _ k hk => count_remainder hk
  case few =>
    intro hupper
    rw [count_not_le (Nat.mod_le ..)]
    exact two_mul_mod_lt (Nat.zero_lt_of_lt hupper) h
  case first =>
    intro hupper source
    rw [hrun hupper, RandomSource.drawBelow_eq]
  case below =>
    intro hupper source n hok
    rw [hrun hupper, RandomSource.drawBelow_eq] at hok
    split at hok
    · cases hok
      exact Nat.mod_lt _ (Nat.zero_lt_of_lt hupper)
    · cases hok
  case only => exact fun hupper source => if_pos hupper

/-- Both widths of bounded integers are drawn without bias. -/
theorem bounded_integers_unbiased :
    (∀ upper : UInt32, DrawsEvenly 4 upper.toNat (below32 upper)) ∧
      ∀ upper : UInt64, DrawsEvenly 8 upper.toNat (below64 upper) :=
  ⟨fun upper => drawsEvenly_below (by decide) (Nat.le_of_lt upper.toNat_lt),
    fun upper => drawsEvenly_below (by decide) (Nat.le_of_lt upper.toNat_lt)⟩

/-- Of three remainders the word zero is one too many: it is thrown away, and the next one decides. -/
theorem bounded_integers_unbiased_of_two_words :
    2 ≤ (3 : UInt32).toNat ∧
      (below32 3).runOn (.ofScript [0, 0, 0, 0, 5, 0, 0, 0, 9] "scripted") =
        (.ok 2, { remaining := [9], used := 8, context := "scripted" }) := by
  have hbound : 2 ≤ (3 : UInt32).toNat := by decide
  refine ⟨hbound, ?_⟩
  rw [(bounded_integers_unbiased.1 3).first hbound]
  rfl

end Random

end AuthEncryption
