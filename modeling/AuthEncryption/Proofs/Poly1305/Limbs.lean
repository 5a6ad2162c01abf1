import AuthEncryption.Poly1305.Authenticator
import AuthEncryption.Proofs.Words

/-!
# Values of numbers in limbs

Between two steps every limb is below `2 ^ 26`, except the second one, which may hold a
carry below 64 more. That leaves room in every word: a block is added limb by limb, five
products make a column, and the columns are carried, all without losing a bit. Adding
keeps the value, and the product and its carries keep the residue modulo `2 ^ 130 - 5`,
because what leaves the top comes back five times. At the end `settle` makes every limb
small and `canonical` picks the residue below the modulus.
-/
namespace AuthEncryption.Poly1305

def modulus : Nat := 2 ^ 130 - 5

/-! ## One carry -/

theorem toNat_and_limbMask (x : UInt32) : (x &&& limbMask).toNat = x.toNat % 2 ^ 26 := by
  rw [UInt32.toNat_and]
  exact Nat.and_two_pow_sub_one_eq_mod x.toNat 26

/-- A limb with what comes up from the one below. -/
theorem toNat_add_shiftRight {a b : UInt32} (ha : a.toNat < 2 ^ 31) :
    (a + (b >>> 26)).toNat = a.toNat + b.toNat / 2 ^ 26 := by
  have hb := b.toNat_lt
  have hshift : (b >>> 26).toNat = b.toNat / 2 ^ 26 := Word.toNat_shiftRight (by decide)
  rw [UInt32.toNat_add, hshift]
  omega

/-- One link of a chain of carries, with a name for it. -/
theorem exists_add_shiftRight {a : UInt32} (ha : a.toNat < 2 ^ 31) (b : UInt32) :
    ∃ e, e = a + (b >>> 26) ∧ e.toNat = a.toNat + b.toNat / 2 ^ 26 :=
  ⟨_, rfl, toNat_add_shiftRight ha⟩

theorem toNat_mul_five {a : UInt32} (h : a.toNat < 2 ^ 29) : (a * 5).toNat = 5 * a.toNat := by
  have hfive : (5 : UInt32).toNat = 5 := rfl
  rw [UInt32.toNat_mul, hfive]
  omega

theorem toNat_low (d : UInt64) : (d.toUInt32 &&& limbMask).toNat = d.toNat % 2 ^ 26 := by
  rw [toNat_and_limbMask, UInt64.toNat_toUInt32]
  omega

theorem toNat_high {d : UInt64} (h : d.toNat < 2 ^ 58) :
    (d >>> 26).toUInt32.toNat = d.toNat / 2 ^ 26 := by
  have hshift : (d >>> 26).toNat = d.toNat / 2 ^ 26 := by
    rw [UInt64.toNat_shiftRight]
    exact Nat.shiftRight_eq_div_pow ..
  rw [UInt64.toNat_toUInt32, hshift]
  omega

/-- A column with what comes up from the one below. -/
theorem toNat_add_high {d below : UInt64} (hd : d.toNat < 2 ^ 58) (hbelow : below.toNat < 2 ^ 58) :
    (d + (below >>> 26).toUInt32.toUInt64).toNat = d.toNat + below.toNat / 2 ^ 26 := by
  rw [UInt64.toNat_add, UInt32.toNat_toUInt64, toNat_high hbelow]
  omega

theorem exists_add_high {d below : UInt64} (hd : d.toNat < 2 ^ 58) (hbelow : below.toNat < 2 ^ 58) :
    ∃ e, e = d + (below >>> 26).toUInt32.toUInt64 ∧ e.toNat = d.toNat + below.toNat / 2 ^ 26 :=
  ⟨_, rfl, toNat_add_high hd hbelow⟩

namespace Limbs

/-- The number in the limbs. -/
def value (a : Limbs) : Nat :=
  a.l0.toNat + 2 ^ 26 * a.l1.toNat + 2 ^ 52 * a.l2.toNat + 2 ^ 78 * a.l3.toNat +
    2 ^ 104 * a.l4.toNat

/-- Every limb is below a bound. -/
structure Below (a : Limbs) (bound : Nat) : Prop where
  l0 : a.l0.toNat < bound
  l1 : a.l1.toNat < bound
  l2 : a.l2.toNat < bound
  l3 : a.l3.toNat < bound
  l4 : a.l4.toNat < bound

/-- The limbs between two steps: the second one may hold a small carry. -/
structure Carried (a : Limbs) : Prop where
  l0 : a.l0.toNat < 2 ^ 26
  l1 : a.l1.toNat < 2 ^ 26 + 64
  l2 : a.l2.toNat < 2 ^ 26
  l3 : a.l3.toNat < 2 ^ 26
  l4 : a.l4.toNat < 2 ^ 26

theorem carried_zero : zero.Carried := by constructor <;> decide

theorem value_lt {a : Limbs} (h : a.Below (2 ^ 26)) : a.value < 2 ^ 130 := by
  obtain ⟨h0, h1, h2, h3, h4⟩ := h
  unfold value
  omega

/-- Limbs that are the digits of a number have its value. -/
theorem value_of_digits {a : Limbs} {x : Nat} (h0 : a.l0.toNat = x % 2 ^ 26)
    (h1 : a.l1.toNat = x / 2 ^ 26 % 2 ^ 26) (h2 : a.l2.toNat = x / 2 ^ 52 % 2 ^ 26)
    (h3 : a.l3.toNat = x / 2 ^ 78 % 2 ^ 26) (h4 : a.l4.toNat = x / 2 ^ 104) : a.value = x := by
  unfold value
  omega

/-! ## Blocks -/

/-- The words that the limbs of a string are taken from begin at every 26th bit. -/
theorem toNat_limbWords (bs : Bytes) :
    (Word.readAt bs 0).toNat = Bytes.toNatLE bs % 2 ^ 32 ∧
    (Word.readAt bs 3 >>> 2).toNat = Bytes.toNatLE bs / 2 ^ 26 % 2 ^ 30 ∧
    (Word.readAt bs 6 >>> 4).toNat = Bytes.toNatLE bs / 2 ^ 52 % 2 ^ 28 ∧
    (Word.readAt bs 9 >>> 6).toNat = Bytes.toNatLE bs / 2 ^ 78 % 2 ^ 26 ∧
    (Word.readAt bs 12 >>> 8).toNat = Bytes.toNatLE bs / 2 ^ 104 % 2 ^ 24 := by
  refine ⟨?_, ?_, ?_, ?_, ?_⟩
  · rw [Word.toNat_readAt, Nat.pow_zero, Nat.div_one]
  · exact Word.toNat_readAt_shiftRight bs 3 (by decide)
  · exact Word.toNat_readAt_shiftRight bs 6 (by decide)
  · exact Word.toNat_readAt_shiftRight bs 9 (by decide)
  · exact Word.toNat_readAt_shiftRight bs 12 (by decide)

/-- The bit above a full block does not meet the block. -/
theorem toNat_or_high {w high : UInt32} (hw : w.toNat < 2 ^ 24)
    (hhigh : high = 0 ∨ high = fullBlockBit) : (w ||| high).toNat = w.toNat + high.toNat := by
  rcases hhigh with rfl | rfl
  · rw [UInt32.or_zero]
    rfl
  · exact Word.toNat_or_shiftLeft (b := 1) (k := 24) (by decide) hw

theorem ofBlock_spec {block : Bytes} (hlen : block.length = 16) {high : UInt32}
    (hhigh : high = 0 ∨ high = fullBlockBit) :
    (ofBlock block high).Below (2 ^ 26) ∧
      (ofBlock block high).value = Bytes.toNatLE block + 2 ^ 104 * high.toNat := by
  have hlt := Bytes.toNatLE_lt block
  have hbit : high.toNat ≤ 2 ^ 24 := by rcases hhigh with rfl | rfl <;> decide
  rw [hlen] at hlt
  obtain ⟨hw0, hw1, hw2, hw3, hw4⟩ := toNat_limbWords block
  have htop := toNat_or_high (w := Word.readAt block 12 >>> 8) (by omega) hhigh
  constructor
  · constructor <;> simp only [ofBlock, toNat_and_limbMask] <;> omega
  · simp only [value, ofBlock, toNat_and_limbMask, htop, hw0, hw1, hw2, hw3, hw4]
    omega

theorem add_spec {a b : Limbs} (ha : a.Carried) (hb : b.Below (2 ^ 26)) :
    (a.add b).Below (2 ^ 27 + 64) ∧ (a.add b).value = a.value + b.value := by
  obtain ⟨a0, a1, a2, a3, a4⟩ := ha
  obtain ⟨b0, b1, b2, b3, b4⟩ := hb
  constructor
  · constructor <;> simp only [add, UInt32.toNat_add] <;> omega
  · simp only [value, add, UInt32.toNat_add]
    omega

/-! ## Multipliers -/

/-- The bits of a multiplier that stay. -/
def clampMask : Nat := 0x0ffffffc0ffffffc0ffffffc0fffffff

/-- A mask of a limb sees the digit only. -/
theorem toNat_and_mask {w mask : UInt32} {x : Nat} (hmask : mask.toNat < 2 ^ 26)
    (h : w.toNat % 2 ^ 26 = x % 2 ^ 26) : (w &&& mask).toNat = x % 2 ^ 26 &&& mask.toNat := by
  have hlt : w.toNat &&& mask.toNat < 2 ^ 26 := Nat.lt_of_le_of_lt Nat.and_le_right hmask
  rw [UInt32.toNat_and, ← Nat.mod_eq_of_lt hlt, Nat.and_mod_two_pow, h, Nat.mod_eq_of_lt hmask]

/-- The masks of the limbs are the digits of one mask. -/
theorem ofKey_spec (key : Bytes) :
    (ofKey key).Below (2 ^ 26) ∧
      (ofKey key).value = Bytes.toNatLE (key.take 16) &&& clampMask := by
  obtain ⟨x, hx⟩ : ∃ x, x = Bytes.toNatLE (key.take 16) := ⟨_, rfl⟩
  have htake := Bytes.toNatLE_take key 16
  obtain ⟨hw0, hw1, hw2, hw3, hw4⟩ := toNat_limbWords key
  rw [← hx] at htake ⊢
  have h0 : (ofKey key).l0.toNat = x % 2 ^ 26 &&& 0x3ffffff :=
    toNat_and_mask (by decide) (by omega)
  have h1 : (ofKey key).l1.toNat = x / 2 ^ 26 % 2 ^ 26 &&& 0x3ffff03 :=
    toNat_and_mask (by decide) (by omega)
  have h2 : (ofKey key).l2.toNat = x / 2 ^ 52 % 2 ^ 26 &&& 0x3ffc0ff :=
    toNat_and_mask (by decide) (by omega)
  have h3 : (ofKey key).l3.toNat = x / 2 ^ 78 % 2 ^ 26 &&& 0x3f03fff :=
    toNat_and_mask (by decide) (by omega)
  have h4 : (ofKey key).l4.toNat = x / 2 ^ 104 % 2 ^ 26 &&& 0x00fffff :=
    toNat_and_mask (by decide) (by omega)
  constructor
  · constructor
    · exact h0 ▸ Nat.lt_of_le_of_lt Nat.and_le_right (by decide)
    · exact h1 ▸ Nat.lt_of_le_of_lt Nat.and_le_right (by decide)
    · exact h2 ▸ Nat.lt_of_le_of_lt Nat.and_le_right (by decide)
    · exact h3 ▸ Nat.lt_of_le_of_lt Nat.and_le_right (by decide)
    · exact h4 ▸ Nat.lt_of_le_of_lt Nat.and_le_right (by decide)
  · have htop : x / 2 ^ 104 % 2 ^ 26 = x / 2 ^ 104 := by omega
    apply value_of_digits
    · rw [h0, Nat.and_mod_two_pow]
      rfl
    · rw [h1, Nat.and_div_two_pow, Nat.and_mod_two_pow]
      rfl
    · rw [h2, Nat.and_div_two_pow, Nat.and_mod_two_pow]
      rfl
    · rw [h3, Nat.and_div_two_pow, Nat.and_mod_two_pow]
      rfl
    · rw [h4, Nat.and_div_two_pow, htop]
      rfl

end Limbs

/-! ## Products -/

def Columns.value (d : Columns) : Nat :=
  d.d0.toNat + 2 ^ 26 * d.d1.toNat + 2 ^ 52 * d.d2.toNat + 2 ^ 78 * d.d3.toNat +
    2 ^ 104 * d.d4.toNat

/-- What five products can make of a column; the top one has no multiple of five. -/
structure Columns.Bounded (d : Columns) : Prop where
  d0 : d.d0.toNat < 25 * ((2 ^ 27 + 64) * 2 ^ 26)
  d1 : d.d1.toNat < 25 * ((2 ^ 27 + 64) * 2 ^ 26)
  d2 : d.d2.toNat < 25 * ((2 ^ 27 + 64) * 2 ^ 26)
  d3 : d.d3.toNat < 25 * ((2 ^ 27 + 64) * 2 ^ 26)
  d4 : d.d4.toNat < 5 * ((2 ^ 27 + 64) * 2 ^ 26)

theorem toNat_wide (a b : UInt32) : (wide a b).toNat = a.toNat * b.toNat := by
  have hprod : a.toNat * b.toNat ≤ (2 ^ 32 - 1) * (2 ^ 32 - 1) :=
    Nat.mul_le_mul (Nat.le_pred_of_lt a.toNat_lt) (Nat.le_pred_of_lt b.toNat_lt)
  rw [wide, UInt64.toNat_mul, UInt32.toNat_toUInt64, UInt32.toNat_toUInt64]
  omega

namespace Limbs

/-- One column of a product: every limb times its multiplier. -/
def column (h x : Limbs) : UInt64 :=
  wide h.l0 x.l0 + wide h.l1 x.l1 + wide h.l2 x.l2 + wide h.l3 x.l3 + wide h.l4 x.l4

theorem multiply_eq (h r : Limbs) :
    h.multiply r =
      { d0 := column h ⟨r.l0, r.l4 * 5, r.l3 * 5, r.l2 * 5, r.l1 * 5⟩
        d1 := column h ⟨r.l1, r.l0, r.l4 * 5, r.l3 * 5, r.l2 * 5⟩
        d2 := column h ⟨r.l2, r.l1, r.l0, r.l4 * 5, r.l3 * 5⟩
        d3 := column h ⟨r.l3, r.l2, r.l1, r.l0, r.l4 * 5⟩
        d4 := column h ⟨r.l4, r.l3, r.l2, r.l1, r.l0⟩ } := rfl

/-- The sum of five products fits its word. -/
theorem column_spec {h x : Limbs} {n : Nat} (hh : h.Below (2 ^ 27 + 64)) (hx : x.Below n)
    (hn : n ≤ 5 * 2 ^ 26) :
    (column h x).toNat = h.l0.toNat * x.l0.toNat + h.l1.toNat * x.l1.toNat +
      h.l2.toNat * x.l2.toNat + h.l3.toNat * x.l3.toNat + h.l4.toNat * x.l4.toNat ∧
    (column h x).toNat < 5 * ((2 ^ 27 + 64) * n) := by
  have hp0 := Nat.mul_lt_mul'' hh.l0 hx.l0
  have hp1 := Nat.mul_lt_mul'' hh.l1 hx.l1
  have hp2 := Nat.mul_lt_mul'' hh.l2 hx.l2
  have hp3 := Nat.mul_lt_mul'' hh.l3 hx.l3
  have hp4 := Nat.mul_lt_mul'' hh.l4 hx.l4
  simp only [column, UInt64.toNat_add, toNat_wide]
  omega

theorem multiply_spec {h r : Limbs} (hh : h.Below (2 ^ 27 + 64)) (hr : r.Below (2 ^ 26)) :
    (h.multiply r).Bounded ∧ ∃ k, h.value * r.value = (h.multiply r).value + modulus * k := by
  obtain ⟨b0, b1, b2, b3, b4⟩ := hr
  have hs1 : (r.l1 * 5).toNat = 5 * r.l1.toNat := toNat_mul_five (by omega)
  have hs2 : (r.l2 * 5).toNat = 5 * r.l2.toNat := toNat_mul_five (by omega)
  have hs3 : (r.l3 * 5).toNat = 5 * r.l3.toNat := toNat_mul_five (by omega)
  have hs4 : (r.l4 * 5).toNat = 5 * r.l4.toNat := toNat_mul_five (by omega)
  obtain ⟨v0, u0⟩ := column_spec (x := ⟨r.l0, r.l4 * 5, r.l3 * 5, r.l2 * 5, r.l1 * 5⟩)
    (n := 5 * 2 ^ 26) hh (by constructor <;> dsimp only <;> omega) (Nat.le_refl _)
  obtain ⟨v1, u1⟩ := column_spec (x := ⟨r.l1, r.l0, r.l4 * 5, r.l3 * 5, r.l2 * 5⟩)
    (n := 5 * 2 ^ 26) hh (by constructor <;> dsimp only <;> omega) (Nat.le_refl _)
  obtain ⟨v2, u2⟩ := column_spec (x := ⟨r.l2, r.l1, r.l0, r.l4 * 5, r.l3 * 5⟩)
    (n := 5 * 2 ^ 26) hh (by constructor <;> dsimp only <;> omega) (Nat.le_refl _)
  obtain ⟨v3, u3⟩ := column_spec (x := ⟨r.l3, r.l2, r.l1, r.l0, r.l4 * 5⟩)
    (n := 5 * 2 ^ 26) hh (by constructor <;> dsimp only <;> omega) (Nat.le_refl _)
  obtain ⟨v4, u4⟩ := column_spec (x := ⟨r.l4, r.l3, r.l2, r.l1, r.l0⟩)
    (n := 2 ^ 26) hh (by constructor <;> assumption) (by decide)
  rw [multiply_eq]
  constructor
  · constructor <;> dsimp only <;> omega
  · obtain ⟨x0, x1, x2, x3, x4⟩ := h
    obtain ⟨y0, y1, y2, y3, y4⟩ := r
    -- The products at `2 ^ 130` and above, which are the ones that came back five times.
    refine ⟨(x1.toNat * y4.toNat + x2.toNat * y3.toNat + x3.toNat * y2.toNat +
        x4.toNat * y1.toNat) +
      2 ^ 26 * (x2.toNat * y4.toNat + x3.toNat * y3.toNat + x4.toNat * y2.toNat) +
      2 ^ 52 * (x3.toNat * y4.toNat + x4.toNat * y3.toNat) +
      2 ^ 78 * (x4.toNat * y4.toNat), ?_⟩
    have hmodulus : modulus = 1361129467683753853853498429727072845819 := by norm_num [modulus]
    simp only [Columns.value, v0, v1, v2, v3, v4, value, hs1, hs2, hs3, hs4, hmodulus]
    ring

end Limbs

/-- The carries keep the residue, and only the second limb may exceed 26 bits. -/
theorem Columns.carry_spec {d : Columns} (h : d.Bounded) :
    d.carry.Carried ∧ ∃ k, d.value = d.carry.value + modulus * k := by
  obtain ⟨h0, h1, h2, h3, h4⟩ := h
  -- `e1` to `e4` are the columns when their carry has come in, `b` the lowest limb.
  obtain ⟨e1, he1, hv1⟩ := exists_add_high (show d.d1.toNat < 2 ^ 58 by omega)
    (show d.d0.toNat < 2 ^ 58 by omega)
  obtain ⟨e2, he2, hv2⟩ := exists_add_high (show d.d2.toNat < 2 ^ 58 by omega)
    (show e1.toNat < 2 ^ 58 by omega)
  obtain ⟨e3, he3, hv3⟩ := exists_add_high (show d.d3.toNat < 2 ^ 58 by omega)
    (show e2.toNat < 2 ^ 58 by omega)
  obtain ⟨e4, he4, hv4⟩ := exists_add_high (show d.d4.toNat < 2 ^ 58 by omega)
    (show e3.toNat < 2 ^ 58 by omega)
  obtain ⟨b, hb⟩ : ∃ b, b = (d.d0.toUInt32 &&& limbMask) + (e4 >>> 26).toUInt32 * 5 := ⟨_, rfl⟩
  have hvb : b.toNat = d.d0.toNat % 2 ^ 26 + e4.toNat / 2 ^ 26 * 5 := by
    have hfive : (5 : UInt32).toNat = 5 := rfl
    rw [hb, UInt32.toNat_add, UInt32.toNat_mul, toNat_low, toNat_high (by omega), hfive]
    omega
  have hl0 := toNat_and_limbMask b
  have hl1 : ((e1.toUInt32 &&& limbMask) + (b >>> 26)).toNat =
      e1.toNat % 2 ^ 26 + b.toNat / 2 ^ 26 := by
    rw [toNat_add_shiftRight (by rw [toNat_low]; omega), toNat_low]
  have hcarry : d.carry = ⟨b &&& limbMask, (e1.toUInt32 &&& limbMask) + (b >>> 26),
      e2.toUInt32 &&& limbMask, e3.toUInt32 &&& limbMask, e4.toUInt32 &&& limbMask⟩ := by
    rw [hb, he4, he3, he2, he1]
    rfl
  rw [hcarry]
  constructor
  · constructor <;> simp only [hl0, hl1, toNat_low] <;> omega
  · refine ⟨e4.toNat / 2 ^ 26, ?_⟩
    simp only [Columns.value, Limbs.value, modulus, hl0, hl1, toNat_low]
    omega

namespace Limbs

/-- One step takes a block in and multiplies. -/
theorem step_spec {r h : Limbs} (hr : r.Below (2 ^ 26)) (hh : h.Carried) {block : Bytes}
    (hlen : block.length = 16) {high : UInt32} (hhigh : high = 0 ∨ high = fullBlockBit) :
    (r.step h block high).Carried ∧
      (r.step h block high).value ≡
        (h.value + (Bytes.toNatLE block + 2 ^ 104 * high.toNat)) * r.value [MOD modulus] := by
  obtain ⟨hblock, hvalue⟩ := ofBlock_spec hlen hhigh
  obtain ⟨hsum, hadd⟩ := add_spec hh hblock
  obtain ⟨hbounded, k, hk⟩ := multiply_spec hsum hr
  obtain ⟨hcarried, l, hl⟩ := Columns.carry_spec hbounded
  refine ⟨hcarried, ?_⟩
  calc (r.step h block high).value
      ≡ ((h.add (ofBlock block high)).multiply r).value [MOD modulus] := by
        rw [hl]
        exact (Nat.add_mul_mod_self_left ..).symm
    _ ≡ (h.add (ofBlock block high)).value * r.value [MOD modulus] := by
        rw [hk]
        exact (Nat.add_mul_mod_self_left ..).symm
    _ = (h.value + (Bytes.toNatLE block + 2 ^ 104 * high.toNat)) * r.value := by
        rw [hadd, hvalue]

/-! ## The last residue -/

theorem settle_spec {h : Limbs} (hh : h.Carried) :
    h.settle.Below (2 ^ 26) ∧ ∃ k, h.value = h.settle.value + modulus * k := by
  obtain ⟨h0, h1, h2, h3, h4⟩ := hh
  obtain ⟨e2, he2, hv2⟩ := exists_add_shiftRight (show h.l2.toNat < 2 ^ 31 by omega) h.l1
  obtain ⟨e3, he3, hv3⟩ := exists_add_shiftRight (show h.l3.toNat < 2 ^ 31 by omega) e2
  obtain ⟨e4, he4, hv4⟩ := exists_add_shiftRight (show h.l4.toNat < 2 ^ 31 by omega) e3
  obtain ⟨e0, he0⟩ : ∃ e, e = h.l0 + (e4 >>> 26) * 5 := ⟨_, rfl⟩
  have hv0 : e0.toNat = h.l0.toNat + 5 * (e4.toNat / 2 ^ 26) := by
    have htop : (e4 >>> 26).toNat = e4.toNat / 2 ^ 26 := Word.toNat_shiftRight (by decide)
    rw [he0, UInt32.toNat_add, toNat_mul_five (by omega), htop]
    omega
  have hl1 : ((h.l1 &&& limbMask) + (e0 >>> 26)).toNat =
      h.l1.toNat % 2 ^ 26 + e0.toNat / 2 ^ 26 := by
    rw [toNat_add_shiftRight (by rw [toNat_and_limbMask]; omega), toNat_and_limbMask]
  have hsettle : h.settle = ⟨e0 &&& limbMask, (h.l1 &&& limbMask) + (e0 >>> 26),
      e2 &&& limbMask, e3 &&& limbMask, e4 &&& limbMask⟩ := by
    rw [he0, he4, he3, he2]
    rfl
  rw [hsettle]
  constructor
  -- A carry out of the top means that the second limb was full, so it is now small.
  · constructor <;> simp only [hl1, toNat_and_limbMask] <;> omega
  · refine ⟨e4.toNat / 2 ^ 26, ?_⟩
    simp only [value, modulus, hl1, toNat_and_limbMask]
    omega

/-- The sign of the top limb tells whether the number is below the modulus; if it is not,
the limbs are those of the difference. -/
theorem lessModulus_spec {h : Limbs} (hh : h.Below (2 ^ 26)) :
    (h.lessModulus.l4 >>> 31 = 1 ∧ h.value < modulus) ∨
      (h.lessModulus.l4 >>> 31 = 0 ∧ h.value = h.lessModulus.value + modulus ∧
        h.lessModulus.Below (2 ^ 26)) := by
  obtain ⟨h0, h1, h2, h3, h4⟩ := hh
  obtain ⟨e0, he0⟩ : ∃ e, e = h.l0 + 5 := ⟨_, rfl⟩
  have hv0 : e0.toNat = h.l0.toNat + 5 := by
    have hfive : (5 : UInt32).toNat = 5 := rfl
    rw [he0, UInt32.toNat_add, hfive]
    omega
  obtain ⟨e1, he1, hv1⟩ := exists_add_shiftRight (show h.l1.toNat < 2 ^ 31 by omega) e0
  obtain ⟨e2, he2, hv2⟩ := exists_add_shiftRight (show h.l2.toNat < 2 ^ 31 by omega) e1
  obtain ⟨e3, he3, hv3⟩ := exists_add_shiftRight (show h.l3.toNat < 2 ^ 31 by omega) e2
  obtain ⟨top, htop⟩ : ∃ e, e = h.l4 + (e3 >>> 26) - 0x4000000 := ⟨_, rfl⟩
  have hvtop : top.toNat = (2 ^ 32 - 2 ^ 26 + (h.l4.toNat + e3.toNat / 2 ^ 26)) % 2 ^ 32 := by
    have hbit : (0x4000000 : UInt32).toNat = 2 ^ 26 := rfl
    rw [htop, UInt32.toNat_sub, toNat_add_shiftRight (by omega), hbit]
  have hless : h.lessModulus = ⟨e0 &&& limbMask, e1 &&& limbMask, e2 &&& limbMask,
      e3 &&& limbMask, top⟩ := by
    rw [htop, he3, he2, he1, he0]
    rfl
  have hsign : (top >>> 31).toNat = top.toNat / 2 ^ 31 := Word.toNat_shiftRight (by decide)
  rw [hless]
  by_cases hborrow : h.l4.toNat + e3.toNat / 2 ^ 26 < 2 ^ 26
  · left
    constructor
    · exact UInt32.toNat_inj.mp (hsign.trans (show _ = 1 by omega))
    · unfold value modulus
      omega
  · right
    refine ⟨UInt32.toNat_inj.mp (hsign.trans (show _ = 0 by omega)), ?_, ?_⟩
    · simp only [value, modulus, toNat_and_limbMask]
      omega
    · constructor <;> simp only [toNat_and_limbMask] <;> omega

theorem choose_sub_zero (a b : Limbs) : choose (0 - 1) a b = a := by simp [choose]

theorem choose_sub_one (a b : Limbs) : choose (1 - 1) a b = b := by simp [choose]

theorem canonical_spec {h : Limbs} (hh : h.Below (2 ^ 26)) :
    h.canonical.Below (2 ^ 26) ∧ h.canonical.value = h.value % modulus := by
  have hlt := value_lt hh
  obtain ⟨hsign, hsmall⟩ | ⟨hsign, hvalue, hbelow⟩ := lessModulus_spec hh
  · rw [canonical, hsign, choose_sub_one, Nat.mod_eq_of_lt hsmall]
    exact ⟨hh, rfl⟩
  · have hrest : h.lessModulus.value < modulus := by
      unfold modulus at *
      omega
    rw [canonical, hsign, choose_sub_zero, hvalue, Nat.add_mod_right, Nat.mod_eq_of_lt hrest]
    exact ⟨hbelow, rfl⟩

/-- The words hold the low 128 bits. -/
theorem valueLE_words {h : Limbs} (hh : h.Below (2 ^ 26)) :
    Word.valueLE h.words = h.value % 2 ^ 128 := by
  obtain ⟨h0, h1, h2, h3, h4⟩ := hh
  have hs1 : (h.l1 >>> 6).toNat = h.l1.toNat / 2 ^ 6 := Word.toNat_shiftRight (by decide)
  have hs2 : (h.l2 >>> 12).toNat = h.l2.toNat / 2 ^ 12 := Word.toNat_shiftRight (by decide)
  have hs3 : (h.l3 >>> 18).toNat = h.l3.toNat / 2 ^ 18 := Word.toNat_shiftRight (by decide)
  have hw0 : (h.l0 ||| (h.l1 <<< 26)).toNat = h.l0.toNat + h.l1.toNat * 2 ^ 26 % 2 ^ 32 :=
    Word.toNat_or_shiftLeft (by decide) h0
  have hw1 : ((h.l1 >>> 6) ||| (h.l2 <<< 20)).toNat =
      (h.l1 >>> 6).toNat + h.l2.toNat * 2 ^ 20 % 2 ^ 32 :=
    Word.toNat_or_shiftLeft (by decide) (show _ < 2 ^ 20 by omega)
  have hw2 : ((h.l2 >>> 12) ||| (h.l3 <<< 14)).toNat =
      (h.l2 >>> 12).toNat + h.l3.toNat * 2 ^ 14 % 2 ^ 32 :=
    Word.toNat_or_shiftLeft (by decide) (show _ < 2 ^ 14 by omega)
  have hw3 : ((h.l3 >>> 18) ||| (h.l4 <<< 8)).toNat =
      (h.l3 >>> 18).toNat + h.l4.toNat * 2 ^ 8 % 2 ^ 32 :=
    Word.toNat_or_shiftLeft (by decide) (show _ < 2 ^ 8 by omega)
  simp only [words, Word.valueLE_cons, hw0, hw1, hw2, hw3, hs1, hs2, hs3]
  simp only [Word.valueLE, List.foldr_nil, value]
  omega

end Limbs

/-- Adding words with a carry is addition modulo their width. -/
theorem valueLE_addWords {as bs : List UInt32} (hlen : as.length = bs.length) {carry : UInt64}
    (hcarry : carry.toNat ≤ 1) :
    Word.valueLE (addWords carry as bs) =
      (carry.toNat + Word.valueLE as + Word.valueLE bs) % 2 ^ (32 * as.length) := by
  induction as generalizing bs carry with
  | nil => simp [addWords, Word.valueLE, Nat.mod_one]
  | cons a as ih =>
    cases bs with
    | nil => cases hlen
    | cons b bs =>
      have ha := a.toNat_lt
      have hb := b.toNat_lt
      obtain ⟨sum, hsum⟩ : ∃ sum, sum = a.toUInt64 + b.toUInt64 + carry := ⟨_, rfl⟩
      have hvalue : sum.toNat = a.toNat + b.toNat + carry.toNat := by
        rw [hsum, UInt64.toNat_add, UInt64.toNat_add, UInt32.toNat_toUInt64,
          UInt32.toNat_toUInt64]
        omega
      have hlow : sum.toUInt32.toNat = sum.toNat % 2 ^ 32 := UInt64.toNat_toUInt32 sum
      have hhigh : (sum >>> 32).toNat = sum.toNat / 2 ^ 32 := by
        rw [UInt64.toNat_shiftRight]
        exact Nat.shiftRight_eq_div_pow ..
      have hnext : (sum >>> 32).toNat ≤ 1 := by omega
      have hrest := ih (Nat.succ.inj hlen) hnext
      have hwidth : 2 ^ (32 * (a :: as).length) = 2 ^ 32 * 2 ^ (32 * as.length) := by
        rw [List.length_cons, ← Nat.pow_add]
        congr 1
        omega
      have hupper : (carry.toNat + (a.toNat + 2 ^ 32 * Word.valueLE as) +
          (b.toNat + 2 ^ 32 * Word.valueLE bs)) / 2 ^ 32 =
            sum.toNat / 2 ^ 32 + Word.valueLE as + Word.valueLE bs := by omega
      have hstep : addWords carry (a :: as) (b :: bs) =
          sum.toUInt32 :: addWords (sum >>> 32) as bs := by rw [hsum, addWords]
      rw [hstep, Word.valueLE_cons, Word.valueLE_cons, Word.valueLE_cons, hrest, hwidth, hlow,
        hhigh, Nat.mod_mul, hupper]
      omega

end AuthEncryption.Poly1305
