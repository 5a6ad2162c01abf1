import AuthEncryption.Proofs.Poly1305.Polynomial
import AuthEncryption.Proofs.Poly1305.Chunks

/-!
# No operation leaves its range

The arithmetic of the authenticator is written again with operations that fail: a sum or a product
that does not fit its word, a cast that loses bits, a union of words that have a bit in common. A
block and the last residue are taken with these, and so is a whole message through the buffer. Where
the limbs are those between two blocks, nothing fails and the results are those of the operations
that wrap, so none of them wraps. Additions and subtractions that are meant to wrap, the ones that
compare with the modulus, stay as they are.
-/
namespace AuthEncryption

/-- In a loop whose steps do not fail where an invariant holds, none fails. -/
theorem foldlM_eq_some {σ α : Type} {Inv : σ → Prop} {f : σ → α → Option σ} {g : σ → α → σ}
    {l : List α} (hstep : ∀ s, Inv s → ∀ a ∈ l, f s a = some (g s a) ∧ Inv (g s a)) {s : σ}
    (hs : Inv s) : l.foldlM f s = some (l.foldl g s) ∧ Inv (l.foldl g s) := by
  induction l generalizing s with
  | nil => exact ⟨rfl, hs⟩
  | cons a l ih =>
    obtain ⟨hfirst, hnext⟩ := hstep s hs a (List.mem_cons_self ..)
    rw [List.foldlM_cons, hfirst, List.foldl_cons]
    exact ih (fun t ht b hb => hstep t ht b (List.mem_cons_of_mem _ hb)) hnext

/-! ## Operations that fail outside their range -/

namespace Checked

/-- A sum of words of 32 bits. -/
def add32 (a b : UInt32) : Option UInt32 :=
  if a.toNat + b.toNat < 2 ^ 32 then some (a + b) else none

def mul32 (a b : UInt32) : Option UInt32 :=
  if a.toNat * b.toNat < 2 ^ 32 then some (a * b) else none

def add64 (a b : UInt64) : Option UInt64 :=
  if a.toNat + b.toNat < 2 ^ 64 then some (a + b) else none

def mul64 (a b : UInt64) : Option UInt64 :=
  if a.toNat * b.toNat < 2 ^ 64 then some (a * b) else none

/-- A cast that has to keep every bit. -/
def cast32 (d : UInt64) : Option UInt32 :=
  if d.toNat < 2 ^ 32 then some d.toUInt32 else none

/-- The union of words that have no bit in common. -/
def merge (a b : UInt32) : Option UInt32 :=
  if a &&& b = 0 then some (a ||| b) else none

variable {a b : UInt32}

theorem add32_of_lt (h : a.toNat + b.toNat < 2 ^ 32) : add32 a b = some (a + b) := if_pos h

theorem mul32_of_lt (h : a.toNat * b.toNat < 2 ^ 32) : mul32 a b = some (a * b) := if_pos h

theorem add64_of_lt {a b : UInt64} (h : a.toNat + b.toNat < 2 ^ 64) : add64 a b = some (a + b) :=
  if_pos h

/-- A product of words of 32 bits fits a word of 64. -/
theorem mul64_eq (a b : UInt32) : mul64 a.toUInt64 b.toUInt64 = some (Poly1305.wide a b) := by
  have hprod : a.toNat * b.toNat ≤ (2 ^ 32 - 1) * (2 ^ 32 - 1) :=
    Nat.mul_le_mul (Nat.le_pred_of_lt a.toNat_lt) (Nat.le_pred_of_lt b.toNat_lt)
  apply if_pos
  rw [UInt32.toNat_toUInt64, UInt32.toNat_toUInt64]
  omega

/-- A carry that comes into a limb. -/
theorem add32_shiftRight (h : a.toNat < 2 ^ 31) : add32 a (b >>> 26) = some (a + (b >>> 26)) := by
  have hb := b.toNat_lt
  have hshift : (b >>> 26).toNat = b.toNat / 2 ^ 26 := Word.toNat_shiftRight (by decide)
  exact add32_of_lt (by rw [hshift]; omega)

/-- A carry that comes into a column. -/
theorem add64_toUInt64 {d : UInt64} (h : d.toNat < 2 ^ 58) (c : UInt32) :
    add64 d c.toUInt64 = some (d + c.toUInt64) := by
  have hc := c.toNat_lt
  exact add64_of_lt (by rw [UInt32.toNat_toUInt64]; omega)

theorem mul32_five (h : 5 * a.toNat < 2 ^ 32) : mul32 a 5 = some (a * 5) :=
  mul32_of_lt ((Nat.mul_comm ..).trans_lt h)

/-- What is shifted out of a column that is not full loses no bit. -/
theorem cast32_shiftRight {d : UInt64} (h : d.toNat < 2 ^ 58) :
    cast32 (d >>> 26) = some (d >>> 26).toUInt32 := by
  have hshift : (d >>> 26).toNat = d.toNat / 2 ^ 26 := by
    rw [UInt64.toNat_shiftRight]
    exact Nat.shiftRight_eq_div_pow ..
  exact if_pos (by rw [hshift]; omega)

/-- A word below a power of two has no bit in common with one that is shifted beyond it. -/
theorem merge_shiftLeft {k : UInt32} (hk : k.toNat < 32) (ha : a.toNat < 2 ^ k.toNat) :
    merge a (b <<< k) = some (a ||| (b <<< k)) := by
  apply if_pos
  apply UInt32.toNat_inj.mp
  apply Nat.eq_of_testBit_eq
  intro i
  rw [UInt32.toNat_and, UInt32.toNat_shiftLeft, Nat.mod_eq_of_lt hk, Nat.testBit_and,
    Nat.testBit_mod_two_pow, Nat.testBit_shiftLeft]
  by_cases hi : k.toNat ≤ i
  · have hlow : a.toNat.testBit i = false :=
      Nat.testBit_lt_two_pow (Nat.lt_of_lt_of_le ha (Nat.pow_le_pow_right (by decide) hi))
    simp [hlow]
  · simp [hi]

end Checked

namespace Poly1305

open Checked

/-! ## One block -/

namespace Limbs

/-- The value of a block, if the bit above it does not meet the block. -/
def ofBlockChecked (block : Bytes) (high : UInt32) : Option Limbs := do
  let l4 ← merge (Word.readAt block 12 >>> 8) high
  return { ofBlock block high with l4 }

def addChecked (a b : Limbs) : Option Limbs := do
  let l0 ← add32 a.l0 b.l0
  let l1 ← add32 a.l1 b.l1
  let l2 ← add32 a.l2 b.l2
  let l3 ← add32 a.l3 b.l3
  let l4 ← add32 a.l4 b.l4
  return { l0, l1, l2, l3, l4 }

/-- One column of a product. -/
def columnChecked (h x : Limbs) : Option UInt64 := do
  let sum ← mul64 h.l0.toUInt64 x.l0.toUInt64
  let sum ← add64 sum (← mul64 h.l1.toUInt64 x.l1.toUInt64)
  let sum ← add64 sum (← mul64 h.l2.toUInt64 x.l2.toUInt64)
  let sum ← add64 sum (← mul64 h.l3.toUInt64 x.l3.toUInt64)
  add64 sum (← mul64 h.l4.toUInt64 x.l4.toUInt64)

def multiplyChecked (h r : Limbs) : Option Columns := do
  let s1 ← mul32 r.l1 5
  let s2 ← mul32 r.l2 5
  let s3 ← mul32 r.l3 5
  let s4 ← mul32 r.l4 5
  let d0 ← columnChecked h ⟨r.l0, s4, s3, s2, s1⟩
  let d1 ← columnChecked h ⟨r.l1, r.l0, s4, s3, s2⟩
  let d2 ← columnChecked h ⟨r.l2, r.l1, r.l0, s4, s3⟩
  let d3 ← columnChecked h ⟨r.l3, r.l2, r.l1, r.l0, s4⟩
  let d4 ← columnChecked h ⟨r.l4, r.l3, r.l2, r.l1, r.l0⟩
  return { d0, d1, d2, d3, d4 }

end Limbs

/-- The carries of a product. The masks cut the columns on purpose; what is shifted out of a column
has to fit. -/
def Columns.carryChecked (d : Columns) : Option Limbs := do
  let c ← cast32 (d.d0 >>> 26)
  let h0 := d.d0.toUInt32 &&& limbMask
  let d1 ← add64 d.d1 c.toUInt64
  let c ← cast32 (d1 >>> 26)
  let h1 := d1.toUInt32 &&& limbMask
  let d2 ← add64 d.d2 c.toUInt64
  let c ← cast32 (d2 >>> 26)
  let h2 := d2.toUInt32 &&& limbMask
  let d3 ← add64 d.d3 c.toUInt64
  let c ← cast32 (d3 >>> 26)
  let h3 := d3.toUInt32 &&& limbMask
  let d4 ← add64 d.d4 c.toUInt64
  let c ← cast32 (d4 >>> 26)
  let h4 := d4.toUInt32 &&& limbMask
  let h0 ← add32 h0 (← mul32 c 5)
  let c := h0 >>> 26
  let h1 ← add32 h1 c
  return ⟨h0 &&& limbMask, h1, h2, h3, h4⟩

namespace Limbs

/-- One step of the authenticator. -/
def stepChecked (r h : Limbs) (block : Bytes) (high : UInt32) : Option Limbs := do
  let sum ← h.addChecked (← ofBlockChecked block high)
  (← sum.multiplyChecked r).carryChecked

theorem ofBlockChecked_eq {block : Bytes} {high : UInt32} (hhigh : high = 0 ∨ high = fullBlockBit) :
    ofBlockChecked block high = some (ofBlock block high) := by
  have hlt : (Word.readAt block 12 >>> 8).toNat < 2 ^ 24 := by
    obtain ⟨-, -, -, -, htop⟩ := toNat_limbWords block
    omega
  have hmerge : merge (Word.readAt block 12 >>> 8) high =
      some ((Word.readAt block 12 >>> 8) ||| high) := by
    rcases hhigh with rfl | rfl
    · exact if_pos UInt32.and_zero
    · exact merge_shiftLeft (b := 1) (k := 24) (by decide) hlt
  rw [ofBlockChecked, hmerge]
  rfl

theorem addChecked_eq {a b : Limbs} (ha : a.Carried) (hb : b.Below (2 ^ 26)) :
    a.addChecked b = some (a.add b) := by
  obtain ⟨a0, a1, a2, a3, a4⟩ := ha
  obtain ⟨b0, b1, b2, b3, b4⟩ := hb
  rw [addChecked, add32_of_lt (by omega), add32_of_lt (by omega), add32_of_lt (by omega),
    add32_of_lt (by omega), add32_of_lt (by omega)]
  rfl

theorem columnChecked_eq {h x : Limbs} (hh : h.Below (2 ^ 27 + 64)) (hx : x.Below (5 * 2 ^ 26)) :
    columnChecked h x = some (column h x) := by
  have hp0 := Nat.mul_lt_mul'' hh.l0 hx.l0
  have hp1 := Nat.mul_lt_mul'' hh.l1 hx.l1
  have hp2 := Nat.mul_lt_mul'' hh.l2 hx.l2
  have hp3 := Nat.mul_lt_mul'' hh.l3 hx.l3
  have hp4 := Nat.mul_lt_mul'' hh.l4 hx.l4
  have hs1 : add64 (wide h.l0 x.l0) (wide h.l1 x.l1) = some _ :=
    add64_of_lt (by simp only [toNat_wide]; omega)
  have hs2 : add64 (wide h.l0 x.l0 + wide h.l1 x.l1) (wide h.l2 x.l2) = some _ :=
    add64_of_lt (by simp only [UInt64.toNat_add, toNat_wide]; omega)
  have hs3 : add64 (wide h.l0 x.l0 + wide h.l1 x.l1 + wide h.l2 x.l2) (wide h.l3 x.l3) = some _ :=
    add64_of_lt (by simp only [UInt64.toNat_add, toNat_wide]; omega)
  have hs4 : add64 (wide h.l0 x.l0 + wide h.l1 x.l1 + wide h.l2 x.l2 + wide h.l3 x.l3)
      (wide h.l4 x.l4) = some (column h x) :=
    add64_of_lt (by simp only [UInt64.toNat_add, toNat_wide]; omega)
  simp only [columnChecked, mul64_eq, Option.bind_eq_bind, Option.bind_some, hs1, hs2, hs3, hs4]

theorem multiplyChecked_eq {h r : Limbs} (hh : h.Below (2 ^ 27 + 64)) (hr : r.Below (2 ^ 26)) :
    h.multiplyChecked r = some (h.multiply r) := by
  obtain ⟨b0, b1, b2, b3, b4⟩ := hr
  have hs1 : (r.l1 * 5).toNat = 5 * r.l1.toNat := toNat_mul_five (by omega)
  have hs2 : (r.l2 * 5).toNat = 5 * r.l2.toNat := toNat_mul_five (by omega)
  have hs3 : (r.l3 * 5).toNat = 5 * r.l3.toNat := toNat_mul_five (by omega)
  have hs4 : (r.l4 * 5).toNat = 5 * r.l4.toNat := toNat_mul_five (by omega)
  rw [multiplyChecked, mul32_five (by omega), mul32_five (by omega), mul32_five (by omega),
    mul32_five (by omega)]
  simp only [Option.bind_eq_bind, Option.bind_some]
  rw [columnChecked_eq hh (by constructor <;> dsimp only <;> omega),
    columnChecked_eq hh (by constructor <;> dsimp only <;> omega),
    columnChecked_eq hh (by constructor <;> dsimp only <;> omega),
    columnChecked_eq hh (by constructor <;> dsimp only <;> omega),
    columnChecked_eq hh (by constructor <;> dsimp only <;> omega)]
  rfl

end Limbs

/-- The carry out of the top is below `2 ^ 30`, and five times it leaves room for one more limb. -/
theorem Columns.carryChecked_eq {d : Columns} (h : d.Bounded) : d.carryChecked = some d.carry := by
  obtain ⟨h0, h1, h2, h3, h4⟩ := h
  have hd0 : d.d0.toNat < 2 ^ 58 := by omega
  have hd1 : d.d1.toNat < 2 ^ 58 := by omega
  have hd2 : d.d2.toNat < 2 ^ 58 := by omega
  have hd3 : d.d3.toNat < 2 ^ 58 := by omega
  have hd4 : d.d4.toNat < 2 ^ 58 := by omega
  -- `e1` to `e4` are the columns when their carry has come in, as for the operations that wrap.
  obtain ⟨e1, he1, hv1⟩ := exists_add_high hd1 hd0
  have he1lt : e1.toNat < 2 ^ 58 := by omega
  obtain ⟨e2, he2, hv2⟩ := exists_add_high hd2 he1lt
  have he2lt : e2.toNat < 2 ^ 58 := by omega
  obtain ⟨e3, he3, hv3⟩ := exists_add_high hd3 he2lt
  have he3lt : e3.toNat < 2 ^ 58 := by omega
  obtain ⟨e4, he4, hv4⟩ := exists_add_high hd4 he3lt
  have he4lt : e4.toNat < 2 ^ 58 := by omega
  have htop : (e4 >>> 26).toUInt32.toNat = e4.toNat / 2 ^ 26 := toNat_high he4lt
  have hfit : (e4 >>> 26).toUInt32.toNat * 5 < 2 ^ 32 - 2 ^ 26 := by omega
  have hfive : mul32 (e4 >>> 26).toUInt32 5 = some _ := mul32_five (by omega)
  have hnumeral : (5 : UInt32).toNat = 5 := rfl
  have hproduct : ((e4 >>> 26).toUInt32 * 5).toNat = (e4 >>> 26).toUInt32.toNat * 5 := by
    rw [UInt32.toNat_mul, hnumeral, Nat.mod_eq_of_lt (by omega)]
  have hbottom : add32 (d.d0.toUInt32 &&& limbMask) ((e4 >>> 26).toUInt32 * 5) = some _ :=
    add32_of_lt (by rw [toNat_low, hproduct]; omega)
  have hsecond : ∀ b : UInt32, add32 (e1.toUInt32 &&& limbMask) (b >>> 26) = some _ := fun b =>
    add32_shiftRight (by rw [toNat_low]; omega)
  simp only [carryChecked, Option.bind_eq_bind, Option.bind_some, cast32_shiftRight hd0,
    add64_toUInt64 hd1, ← he1, cast32_shiftRight he1lt, add64_toUInt64 hd2, ← he2,
    cast32_shiftRight he2lt, add64_toUInt64 hd3, ← he3, cast32_shiftRight he3lt,
    add64_toUInt64 hd4, ← he4, cast32_shiftRight he4lt, hfive, hbottom, hsecond]
  rw [he4, he3, he2, he1]
  rfl

namespace Limbs

/-- With limbs that are carried no operation on a block fails, whatever its bytes are. -/
theorem stepChecked_eq {r h : Limbs} (hr : r.Below (2 ^ 26)) (hh : h.Carried) {block : Bytes}
    (hlen : block.length = 16) {high : UInt32} (hhigh : high = 0 ∨ high = fullBlockBit) :
    stepChecked r h block high = some (r.step h block high) := by
  obtain ⟨hblock, -⟩ := ofBlock_spec hlen hhigh
  obtain ⟨hsum, -⟩ := add_spec hh hblock
  obtain ⟨hbounded, -⟩ := multiply_spec hsum hr
  simp only [stepChecked, Option.bind_eq_bind, Option.bind_some, ofBlockChecked_eq hhigh,
    addChecked_eq hh hblock, multiplyChecked_eq hsum hr, Columns.carryChecked_eq hbounded]
  rfl

/-- A limb that leaves no room for a block is found out. -/
example :
    stepChecked ⟨1, 1, 1, 1, 1⟩ ⟨0xfc000001, 0, 0, 0, 0⟩ (List.replicate 16 255) 0 = none := by
  decide

/-! ## The last residue -/

def settleChecked (h : Limbs) : Option Limbs := do
  let c := h.l1 >>> 26
  let h1 := h.l1 &&& limbMask
  let h2 ← add32 h.l2 c
  let c := h2 >>> 26
  let h2 := h2 &&& limbMask
  let h3 ← add32 h.l3 c
  let c := h3 >>> 26
  let h3 := h3 &&& limbMask
  let h4 ← add32 h.l4 c
  let c := h4 >>> 26
  let h4 := h4 &&& limbMask
  let h0 ← add32 h.l0 (← mul32 c 5)
  let c := h0 >>> 26
  let h0 := h0 &&& limbMask
  let h1 ← add32 h1 c
  return ⟨h0, h1, h2, h3, h4⟩

/-- The low 128 bits as words, if the parts of no word overlap. -/
def wordsChecked (h : Limbs) : Option (List UInt32) := do
  let w0 ← merge h.l0 (h.l1 <<< 26)
  let w1 ← merge (h.l1 >>> 6) (h.l2 <<< 20)
  let w2 ← merge (h.l2 >>> 12) (h.l3 <<< 14)
  let w3 ← merge (h.l3 >>> 18) (h.l4 <<< 8)
  return [w0, w1, w2, w3]

theorem settleChecked_eq {h : Limbs} (hh : h.Carried) : h.settleChecked = some h.settle := by
  obtain ⟨h0, h1, h2, h3, h4⟩ := hh
  obtain ⟨e2, he2, hv2⟩ := exists_add_shiftRight (show h.l2.toNat < 2 ^ 31 by omega) h.l1
  obtain ⟨e3, he3, hv3⟩ := exists_add_shiftRight (show h.l3.toNat < 2 ^ 31 by omega) e2
  obtain ⟨e4, he4, hv4⟩ := exists_add_shiftRight (show h.l4.toNat < 2 ^ 31 by omega) e3
  have htop : (e4 >>> 26).toNat = e4.toNat / 2 ^ 26 := Word.toNat_shiftRight (by decide)
  have hl2 : add32 h.l2 (h.l1 >>> 26) = some e2 := he2 ▸ add32_shiftRight (by omega)
  have hl3 : add32 h.l3 (e2 >>> 26) = some e3 := he3 ▸ add32_shiftRight (by omega)
  have hl4 : add32 h.l4 (e3 >>> 26) = some e4 := he4 ▸ add32_shiftRight (by omega)
  have hfive : mul32 (e4 >>> 26) 5 = some _ := mul32_five (by omega)
  have hbottom : add32 h.l0 ((e4 >>> 26) * 5) = some _ :=
    add32_of_lt (by rw [toNat_mul_five (by omega), htop]; omega)
  have hsecond : ∀ b : UInt32, add32 (h.l1 &&& limbMask) (b >>> 26) = some _ := fun b =>
    add32_shiftRight (by rw [toNat_and_limbMask]; omega)
  simp only [settleChecked, Option.bind_eq_bind, Option.bind_some, hl2, hl3, hl4, hfive, hbottom,
    hsecond]
  rw [he4, he3, he2]
  rfl

theorem wordsChecked_eq {h : Limbs} (hh : h.Below (2 ^ 26)) : h.wordsChecked = some h.words := by
  obtain ⟨h0, h1, h2, h3, h4⟩ := hh
  have hs1 : (h.l1 >>> 6).toNat = h.l1.toNat / 2 ^ 6 := Word.toNat_shiftRight (by decide)
  have hs2 : (h.l2 >>> 12).toNat = h.l2.toNat / 2 ^ 12 := Word.toNat_shiftRight (by decide)
  have hs3 : (h.l3 >>> 18).toNat = h.l3.toNat / 2 ^ 18 := Word.toNat_shiftRight (by decide)
  rw [wordsChecked, merge_shiftLeft (by decide) h0,
    merge_shiftLeft (by decide) (show _ < 2 ^ 20 by omega),
    merge_shiftLeft (by decide) (show _ < 2 ^ 14 by omega),
    merge_shiftLeft (by decide) (show _ < 2 ^ 8 by omega)]
  rfl

end Limbs

/-- The sum of two numbers given as words. The casts cut the sums on purpose. -/
def addWordsChecked (carry : UInt64) : List UInt32 → List UInt32 → Option (List UInt32)
  | a :: as, b :: bs => do
    let sum ← add64 a.toUInt64 b.toUInt64
    let sum ← add64 sum carry
    return sum.toUInt32 :: (← addWordsChecked (sum >>> 32) as bs)
  | _, _ => some []

/-- The words of a tag, from the value of the whole message. -/
def tagWordsChecked (h : Limbs) (pad : Vector UInt32 4) : Option (List UInt32) := do
  let settled ← h.settleChecked
  addWordsChecked 0 (← settled.canonical.wordsChecked) pad.toList

theorem addWordsChecked_eq {carry : UInt64} (hcarry : carry.toNat ≤ 1) (as bs : List UInt32) :
    addWordsChecked carry as bs = some (addWords carry as bs) := by
  induction as generalizing carry bs with
  | nil => rfl
  | cons a as ih =>
    cases bs with
    | nil => rfl
    | cons b bs =>
      have ha := a.toNat_lt
      have hb := b.toNat_lt
      have hwords : (a.toUInt64 + b.toUInt64).toNat = a.toNat + b.toNat := by
        rw [UInt64.toNat_add, UInt32.toNat_toUInt64, UInt32.toNat_toUInt64]
        omega
      have hsum : (a.toUInt64 + b.toUInt64 + carry).toNat = a.toNat + b.toNat + carry.toNat := by
        rw [UInt64.toNat_add, hwords]
        omega
      have hnext : ((a.toUInt64 + b.toUInt64 + carry) >>> 32).toNat ≤ 1 := by
        rw [UInt64.toNat_shiftRight]
        show _ >>> 32 ≤ 1
        rw [Nat.shiftRight_eq_div_pow, hsum]
        omega
      have hfirst : add64 a.toUInt64 b.toUInt64 = some _ := add64_of_lt (by
        rw [UInt32.toNat_toUInt64, UInt32.toNat_toUInt64]
        omega)
      have hsecond : add64 (a.toUInt64 + b.toUInt64) carry = some _ :=
        add64_of_lt (by rw [hwords]; omega)
      simp only [addWordsChecked, Option.bind_eq_bind, hfirst, Option.bind_some, hsecond, ih hnext]
      rfl

/-- Where the limbs are carried no operation behind the last block fails. -/
theorem tagWordsChecked_eq {h : Limbs} (hh : h.Carried) (pad : Vector UInt32 4) :
    tagWordsChecked h pad = some (addWords 0 h.settle.canonical.words pad.toList) := by
  obtain ⟨hsettled, -⟩ := Limbs.settle_spec hh
  obtain ⟨hcanonical, -⟩ := Limbs.canonical_spec hsettled
  simp only [tagWordsChecked, Option.bind_eq_bind, Limbs.settleChecked_eq hh, Option.bind_some,
    Limbs.wordsChecked_eq hcanonical]
  exact addWordsChecked_eq (by decide) ..

/-! ## A whole message -/

namespace Buffered

def blockChecked (mac : Buffered) (data : Bytes) : Option Buffered := do
  let h ← mac.r.stepChecked mac.h data fullBlockBit
  return { mac with h }

def absorbChecked (mac : Buffered) (data : Bytes) : Option Buffered := do
  let mac ← (Bytes.fullPieces blockSize data).foldlM blockChecked mac
  let rest := Bytes.leftover blockSize data
  return { mac with buffer := mac.buffer.overwrite 0 rest, leftover := rest.length }

def updateChecked (mac : Buffered) (data : Bytes) : Option Buffered := do
  if 0 < mac.leftover then
    let filled := mac.fill data
    if filled.leftover < blockSize then
      return filled
    else
      let taken ← filled.blockChecked filled.buffer.toList
      { taken with leftover := 0 }.absorbChecked (data.drop (blockSize - mac.leftover))
  else
    mac.absorbChecked data

def lastValueChecked (mac : Buffered) : Option Limbs :=
  if 0 < mac.leftover then
    let waiting := mac.buffer.toList.take mac.leftover
    let last := ((FixedBytes.zero 16).overwrite 0 waiting).overwrite mac.leftover [1]
    mac.r.stepChecked mac.h last.toList 0
  else
    some mac.h

def finishChecked (mac : Buffered) (out : FixedBytes 16) : Option (FixedBytes 16) := do
  let words ← tagWordsChecked (← mac.lastValueChecked) mac.pad
  return out.overwrite 0 (Word.bytes words)

/-- What holds of an authenticator between two blocks: the limbs of its multiplier are small, and
those of its value are carried. -/
structure Ready (mac : Buffered) : Prop where
  r : mac.r.Below (2 ^ 26)
  h : mac.h.Carried

theorem ready_new (key : FixedBytes 32) : (new key).Ready :=
  ⟨(Limbs.ofKey_spec key.toList).1, Limbs.carried_zero⟩

variable {mac : Buffered}

/-- The step lemma: a block does not fail, and it leaves the limbs carried. -/
theorem Ready.block (hmac : mac.Ready) {data : Bytes} (hlen : data.length = 16) :
    mac.blockChecked data = some (mac.block data) ∧ (mac.block data).Ready := by
  obtain ⟨hcarried, -⟩ := Limbs.step_spec hmac.r hmac.h hlen (Or.inr rfl)
  refine ⟨?_, hmac.r, hcarried⟩
  rw [blockChecked, Limbs.stepChecked_eq hmac.r hmac.h hlen (Or.inr rfl)]
  rfl

/-- The run lemma over the blocks of a string. -/
theorem Ready.blocks (hmac : mac.Ready) {blocks : List Bytes}
    (hlen : ∀ block ∈ blocks, block.length = 16) :
    blocks.foldlM blockChecked mac = some (blocks.foldl Buffered.block mac) ∧
      (blocks.foldl Buffered.block mac).Ready :=
  foldlM_eq_some (fun _ hs data hdata => hs.block (hlen data hdata)) hmac

theorem Ready.absorb (hmac : mac.Ready) (data : Bytes) :
    mac.absorbChecked data = some (mac.absorb data) ∧ (mac.absorb data).Ready := by
  obtain ⟨hblocks, hready⟩ := hmac.blocks fun _ hmem => Bytes.length_of_mem_fullPieces hmem
  refine ⟨?_, hready.r, hready.h⟩
  rw [absorbChecked, blockSize, hblocks]
  rfl

theorem Ready.update (hmac : mac.Ready) (data : Bytes) :
    mac.updateChecked data = some (mac.update data) ∧ (mac.update data).Ready := by
  have hfilled : (mac.fill data).Ready := ⟨hmac.r, hmac.h⟩
  rw [updateChecked, Buffered.update]
  split
  · dsimp only
    split
    · exact ⟨rfl, hfilled⟩
    · obtain ⟨htaken, hready⟩ := hfilled.block (mac.fill data).buffer.length_toList
      have hempty :
          { (mac.fill data).block (mac.fill data).buffer.toList with leftover := 0 }.Ready :=
        ⟨hready.r, hready.h⟩
      rw [htaken]
      exact hempty.absorb _
  · exact hmac.absorb data

/-- The run lemma over the updates of a message. -/
theorem Ready.updates (hmac : mac.Ready) (parts : List Bytes) :
    parts.foldlM updateChecked mac = some (parts.foldl Buffered.update mac) ∧
      (parts.foldl Buffered.update mac).Ready :=
  foldlM_eq_some (fun _ hs data _ => hs.update data) hmac

theorem Ready.lastValue (hmac : mac.Ready) :
    mac.lastValueChecked = some mac.lastValue ∧ mac.lastValue.Carried := by
  rw [lastValueChecked, Buffered.lastValue]
  split
  · exact ⟨Limbs.stepChecked_eq hmac.r hmac.h (by simp) (Or.inl rfl),
      (Limbs.step_spec hmac.r hmac.h (by simp) (Or.inl rfl)).1⟩
  · exact ⟨rfl, hmac.h⟩

theorem Ready.finish (hmac : mac.Ready) (out : FixedBytes 16) :
    mac.finishChecked out = some (mac.finish out) := by
  obtain ⟨hlast, hcarried⟩ := hmac.lastValue
  rw [finishChecked, hlast]
  simp only [Option.bind_eq_bind, Option.bind_some, tagWordsChecked_eq hcarried]
  rfl

/-- The blocks of a message are taken one after the other, wherever the message is cut. -/
theorem h_foldl_update (key : FixedBytes 32) (parts : List Bytes) :
    (parts.foldl Buffered.update (new key)).h =
      ((Bytes.fullPieces blockSize parts.flatten).foldl Buffered.block (new key)).h := by
  obtain ⟨-, hview⟩ := view_foldl_update (leftover_new key) parts
  have hwhole : parts.foldl Poly1305.update (Poly1305.new key) =
      (Poly1305.new key).update parts.flatten := by
    rw [← new_update_nil key, foldl_update_update, new_update_nil, List.nil_append]
  calc (parts.foldl Buffered.update (new key)).h
      = (parts.foldl Poly1305.update (Poly1305.new key)).h := by
        rw [← view_new, ← hview]
        rfl
    _ = ((Bytes.fullPieces blockSize parts.flatten).foldl Buffered.block (new key)).h := by
        rw [hwhole, foldl_block]
        rfl

/-- What is said of the arithmetic under one key. -/
structure InRange (key : FixedBytes 32) : Prop where
  /-- Updates take the full blocks of their message one after the other. -/
  blocks : ∀ parts : List Bytes, (parts.foldl Buffered.update (new key)).h =
    ((Bytes.fullPieces blockSize parts.flatten).foldl Buffered.block (new key)).h
  /-- After each of these blocks the limbs are carried. -/
  carried : ∀ (parts : List Bytes) (n : Nat),
    (((Bytes.fullPieces blockSize parts.flatten).take n).foldl Buffered.block (new key)).h.Carried
  /-- They are after the last block too, full or not. -/
  last : ∀ parts : List Bytes, (parts.foldl Buffered.update (new key)).lastValue.Carried
  /-- From carried limbs no operation on a block fails, whatever the block is. -/
  step : ∀ h : Limbs, h.Carried → ∀ block : Bytes, block.length = 16 →
    ∀ high : UInt32, high = 0 ∨ high = fullBlockBit →
      Limbs.stepChecked (new key).r h block high = some ((new key).r.step h block high)
  /-- The last carries make every limb small, and the choice of a residue keeps it so. -/
  settled : ∀ h : Limbs, h.Carried →
    h.settle.Below (2 ^ 26) ∧ h.settle.canonical.Below (2 ^ 26)
  /-- No operation behind the last block fails, and the parts that make a word never overlap. -/
  tag : ∀ h : Limbs, h.Carried → tagWordsChecked h (new key).pad =
    some (addWords 0 h.settle.canonical.words (new key).pad.toList)
  /-- A whole message goes through without a failure, to the same tag. -/
  run : ∀ (parts : List Bytes) (out : FixedBytes 16),
    (parts.foldlM updateChecked (new key)).bind (finishChecked · out) =
      some ((parts.foldl Buffered.update (new key)).finish out)

/-- For every key and however a message is cut into updates, no operation of a block or of the tag
leaves its range. -/
theorem arithmetic_stays_in_range (key : FixedBytes 32) : InRange key where
  blocks := h_foldl_update key
  carried parts n := by
    have hlen : ∀ block ∈ (Bytes.fullPieces blockSize parts.flatten).take n, block.length = 16 :=
      fun _ hmem => Bytes.length_of_mem_fullPieces (List.mem_of_mem_take hmem)
    exact ((ready_new key).blocks hlen).2.h
  last parts := ((ready_new key).updates parts).2.lastValue.2
  step _ hh _ hlen _ hhigh := Limbs.stepChecked_eq (ready_new key).r hh hlen hhigh
  settled h hh := by
    obtain ⟨hsettled, -⟩ := Limbs.settle_spec hh
    exact ⟨hsettled, (Limbs.canonical_spec hsettled).1⟩
  tag _ hh := tagWordsChecked_eq hh _
  run parts out := by
    obtain ⟨hrun, hready⟩ := (ready_new key).updates parts
    rw [hrun, Option.bind_some, hready.finish]

/-- The largest limbs that are carried, a block of ones and a key of ones: what comes back from the
top is then above half of its word, and fits. -/
theorem full_limbs_stay_in_range :
    Limbs.stepChecked (new ⟨List.replicate 32 255, rfl⟩).r
        ⟨0x3ffffff, 0x400003f, 0x3ffffff, 0x3ffffff, 0x3ffffff⟩ (List.replicate 16 255)
        fullBlockBit =
      some ⟨67108851, 67107418, 67004031, 60399615, 40370175⟩ :=
  (arithmetic_stays_in_range ⟨List.replicate 32 255, rfl⟩).step
    ⟨0x3ffffff, 0x400003f, 0x3ffffff, 0x3ffffff, 0x3ffffff⟩ (by constructor <;> decide)
    (List.replicate 16 255) rfl fullBlockBit (Or.inr rfl)

end Buffered

end Poly1305

end AuthEncryption
