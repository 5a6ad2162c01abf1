import AuthEncryption.Aes.Field
import Mathlib.Algebra.CharP.Two
import Mathlib.Tactic

/-!
# The field as a ring

Bytes with the exclusive or as their sum and `multiply` as their product are a commutative
ring of characteristic two. The product is additive in both factors, so its laws follow from
those for single bits. Every element is its own power of 256, since squaring is additive too.
Hence the power of 254 inverts itself and the substitution box is one to one.
-/
namespace AuthEncryption.Aes

/-! ## Bits -/

/-- A check of all bytes. -/
theorem forall_byte {P : UInt8 → Prop} (h : ∀ n < 256, P (UInt8.ofNat n)) (b : UInt8) : P b :=
  UInt8.ofNat_toNat (x := b) ▸ h b.toNat b.toNat_lt

/-- The byte of one power of `x`. -/
def bit (i : Fin 8) : UInt8 := 1 <<< UInt8.ofNat i.val

theorem bits_add_up (b : UInt8) :
    (b &&& bit 0) ^^^ (b &&& bit 1) ^^^ (b &&& bit 2) ^^^ (b &&& bit 3) ^^^ (b &&& bit 4) ^^^
      (b &&& bit 5) ^^^ (b &&& bit 6) ^^^ (b &&& bit 7) = b := by
  revert b
  apply forall_byte
  decide +kernel

theorem and_bit (b : UInt8) (i : Fin 8) : b &&& bit i = 0 ∨ b &&& bit i = bit i := by
  revert i
  apply forall_byte (P := fun b => ∀ i, b &&& bit i = 0 ∨ b &&& bit i = bit i)
  decide +kernel

/-- What holds of single bits and is kept by sums holds of all bytes. -/
theorem bit_induction {P : UInt8 → Prop} (hbit : ∀ i, P (bit i))
    (hadd : ∀ a b, P a → P b → P (a ^^^ b)) (b : UInt8) : P b := by
  have hzero : P 0 := by simpa using hadd _ _ (hbit 0) (hbit 0)
  have hpart : ∀ i, P (b &&& bit i) := by
    intro i
    rcases and_bit b i with h | h <;> rw [h]
    exacts [hzero, hbit i]
  rw [← bits_add_up b]
  repeat' apply hadd
  all_goals apply hpart

/-- What holds of one and is kept by doubling and by sums holds of all bytes. -/
theorem double_induction {P : UInt8 → Prop} (hone : P 1) (hdouble : ∀ a, P a → P (double a))
    (hadd : ∀ a b, P a → P b → P (a ^^^ b)) (b : UInt8) : P b := by
  refine bit_induction (fun i => ?_) hadd b
  obtain ⟨i, hi⟩ := i
  induction i with
  | zero => exact hone
  | succ i ih =>
    -- Nothing is reduced as long as the power stays below eight.
    have hnext : bit ⟨i + 1, hi⟩ = double (bit ⟨i, by omega⟩) :=
      (show ∀ i : Fin 7, bit i.succ = double (bit i.castSucc) by decide) ⟨i, by omega⟩
    rw [hnext]
    exact hdouble _ (ih _)

/-! ## The product is additive -/

theorem and_xor (a b c : UInt8) : a &&& (b ^^^ c) = (a &&& b) ^^^ (a &&& c) := by
  apply UInt8.toBitVec_inj.mp
  ext i
  simp [Bool.and_xor_distrib_left]

theorem xor_and (a b c : UInt8) : (a ^^^ b) &&& c = (a &&& c) ^^^ (b &&& c) := by
  rw [UInt8.and_comm, and_xor, UInt8.and_comm c a, UInt8.and_comm c b]

/-- The mask of a bit that is zero or one is additive in it. -/
theorem neg_xor {x y : UInt8} (hx : x = 0 ∨ x = 1) (hy : y = 0 ∨ y = 1) :
    -(x ^^^ y) = -x ^^^ -y := by
  rcases hx with rfl | rfl <;> rcases hy with rfl | rfl <;> rfl

theorem and_one (b : UInt8) : b &&& 1 = 0 ∨ b &&& 1 = 1 := and_bit b 0

theorem shiftRight_seven (b : UInt8) : b >>> 7 = 0 ∨ b >>> 7 = 1 := by
  apply forall_byte (P := fun b => b >>> 7 = 0 ∨ b >>> 7 = 1)
  decide +kernel

theorem double_xor (a b : UInt8) : double (a ^^^ b) = double a ^^^ double b := by
  simp only [double, UInt8.shiftLeft_xor, UInt8.shiftRight_xor,
    neg_xor (shiftRight_seven a) (shiftRight_seven b), xor_and]
  ac_rfl

/-- The state of a multiplication is additive in the first factor. -/
theorem multiplyBits_xor_left (n : Nat) (a a' b sum sum' : UInt8) :
    multiplyBits n (a ^^^ a') b (sum ^^^ sum') =
      multiplyBits n a b sum ^^^ multiplyBits n a' b sum' := by
  induction n generalizing a a' b sum sum' with
  | zero => rfl
  | succ n ih =>
    have hsum : sum ^^^ sum' ^^^ ((a ^^^ a') &&& -(b &&& 1)) =
        (sum ^^^ (a &&& -(b &&& 1))) ^^^ (sum' ^^^ (a' &&& -(b &&& 1))) := by
      rw [xor_and]
      ac_rfl
    rw [multiplyBits, double_xor, hsum, ih]
    rfl

/-- The state of a multiplication is additive in the second factor. -/
theorem multiplyBits_xor_right (n : Nat) (a b b' sum sum' : UInt8) :
    multiplyBits n a (b ^^^ b') (sum ^^^ sum') =
      multiplyBits n a b sum ^^^ multiplyBits n a b' sum' := by
  induction n generalizing a b b' sum sum' with
  | zero => rfl
  | succ n ih =>
    have hmask : -((b ^^^ b') &&& 1) = -(b &&& 1) ^^^ -(b' &&& 1) := by
      rw [xor_and, neg_xor (and_one b) (and_one b')]
    have hsum : sum ^^^ sum' ^^^ (a &&& -((b ^^^ b') &&& 1)) =
        (sum ^^^ (a &&& -(b &&& 1))) ^^^ (sum' ^^^ (a &&& -(b' &&& 1))) := by
      rw [hmask, and_xor]
      ac_rfl
    rw [multiplyBits, UInt8.shiftRight_xor, hsum, ih]
    rfl

/-- Doubling the first factor doubles the state of a multiplication. -/
theorem multiplyBits_double (n : Nat) (a b sum : UInt8) :
    multiplyBits n (double a) b (double sum) = double (multiplyBits n a b sum) := by
  induction n generalizing a b sum with
  | zero => rfl
  | succ n ih =>
    have hsum : double sum ^^^ (double a &&& -(b &&& 1)) = double (sum ^^^ (a &&& -(b &&& 1))) := by
      rcases and_one b with h | h <;> simp [h, double_xor]
    rw [multiplyBits, hsum, ih]
    rfl

theorem xor_multiply (a a' b : UInt8) : multiply (a ^^^ a') b = multiply a b ^^^ multiply a' b :=
  multiplyBits_xor_left 8 a a' b 0 0

theorem multiply_xor (a b b' : UInt8) : multiply a (b ^^^ b') = multiply a b ^^^ multiply a b' :=
  multiplyBits_xor_right 8 a b b' 0 0

theorem double_multiply (a b : UInt8) : multiply (double a) b = double (multiply a b) :=
  multiplyBits_double 8 a b 0

theorem one_multiply (b : UInt8) : multiply 1 b = b := by
  refine bit_induction (P := fun b => multiply 1 b = b) (by decide) (fun a b ha hb => ?_) b
  rw [multiply_xor, ha, hb]

/-- The product is additive on both sides, so it commutes because it does on single bits. -/
theorem multiply_comm (a b : UInt8) : multiply a b = multiply b a := by
  refine bit_induction (P := fun a => multiply a b = multiply b a) (fun i => ?_)
    (fun a a' ha ha' => by rw [xor_multiply, multiply_xor, ha, ha']) a
  refine bit_induction (P := fun b => multiply (bit i) b = multiply b (bit i)) (fun j => ?_)
    (fun b b' hb hb' => by rw [xor_multiply, multiply_xor, hb, hb']) b
  revert i j
  decide +kernel

theorem multiply_assoc (a b c : UInt8) :
    multiply (multiply a b) c = multiply a (multiply b c) := by
  refine double_induction
    (P := fun a => multiply (multiply a b) c = multiply a (multiply b c)) ?_ ?_ ?_ a
  · rw [one_multiply, one_multiply]
  · intro a ha
    rw [double_multiply, double_multiply, double_multiply, ha]
  · intro a a' ha ha'
    rw [xor_multiply, xor_multiply, xor_multiply, ha, ha']

/-! ## The ring -/

/-- A byte as an element of the field. -/
@[ext] structure Element where
  byte : UInt8
deriving DecidableEq

namespace Element

instance : Zero Element := ⟨⟨0⟩⟩
instance : One Element := ⟨⟨1⟩⟩
instance : Add Element := ⟨fun a b => ⟨a.byte ^^^ b.byte⟩⟩
instance : Neg Element := ⟨id⟩
instance : Mul Element := ⟨fun a b => ⟨multiply a.byte b.byte⟩⟩

/-- The polynomial `x`. -/
def x : Element := ⟨2⟩

@[simp] theorem byte_zero : (0 : Element).byte = 0 := rfl
@[simp] theorem byte_add (a b : Element) : (a + b).byte = a.byte ^^^ b.byte := rfl
@[simp] theorem byte_mul (a b : Element) : (a * b).byte = multiply a.byte b.byte := rfl

instance : CommRing Element where
  add_assoc _ _ _ := Element.ext (UInt8.xor_assoc ..)
  zero_add _ := Element.ext UInt8.zero_xor
  add_zero _ := Element.ext UInt8.xor_zero
  add_comm _ _ := Element.ext (UInt8.xor_comm ..)
  neg_add_cancel _ := Element.ext UInt8.xor_self
  mul_assoc _ _ _ := Element.ext (multiply_assoc ..)
  mul_comm _ _ := Element.ext (multiply_comm ..)
  one_mul _ := Element.ext (one_multiply _)
  mul_one _ := Element.ext ((multiply_comm ..).trans (one_multiply _))
  zero_mul a := Element.ext (by simpa using xor_multiply 0 0 a.byte)
  mul_zero a := Element.ext (by simpa using multiply_xor a.byte 0 0)
  left_distrib _ _ _ := Element.ext (multiply_xor ..)
  right_distrib _ _ _ := Element.ext (xor_multiply ..)
  nsmul := nsmulRec
  zsmul := zsmulRec

instance : CharP Element 2 :=
  CharTwo.of_one_ne_zero_of_two_eq_zero (by decide) (one_add_one_eq_two.symm.trans (by decide))

theorem byte_x_mul (a : Element) : (x * a).byte = double a.byte := by
  have hx : x.byte = double 1 := rfl
  rw [byte_mul, hx, double_multiply, one_multiply]

/-- Every element is a sum of powers of `x`. -/
theorem induction {P : Element → Prop} (hone : P 1) (hx : ∀ a, P a → P (x * a))
    (hadd : ∀ a b, P a → P b → P (a + b)) (a : Element) : P a := by
  refine double_induction (P := fun b => P ⟨b⟩) hone (fun b hb => ?_)
    (fun b b' hb hb' => hadd ⟨b⟩ ⟨b'⟩ hb hb') a.byte
  have hdouble : x * ⟨b⟩ = ⟨double b⟩ := Element.ext (byte_x_mul ⟨b⟩)
  exact hdouble ▸ hx ⟨b⟩ hb

/-- Every element is its own power of 256. -/
theorem pow_card (a : Element) : a ^ 256 = a := by
  induction a using induction with
  | hone => exact one_pow 256
  | hx a ha =>
    have hx : x ^ 256 = x := by decide +kernel
    rw [mul_pow, hx, ha]
  | hadd a b ha hb =>
    calc (a + b) ^ 2 ^ 8 = a ^ 2 ^ 8 + b ^ 2 ^ 8 := add_pow_char_pow a b 2 8
      _ = a + b := congrArg₂ _ ha hb

/-- The chain of products that computes the inverse adds up to the power of 254. -/
theorem byte_pow_254 (a : Element) : (a ^ 254).byte = inverse a.byte := by
  let a2 := a * a
  let a4 := a2 * a2
  let a8 := a4 * a4
  let a16 := a8 * a8
  let a32 := a16 * a16
  let a64 := a32 * a32
  let a128 := a64 * a64
  have hchain : a ^ 254 = a128 * a64 * a32 * a16 * a8 * a4 * a2 := by ring
  simp only [hchain, a2, a4, a8, a16, a32, a64, a128, byte_mul, inverse]

end Element

/-- The power of 254 inverts itself. -/
theorem inverse_inverse (b : UInt8) : inverse (inverse b) = b := by
  let a : Element := ⟨b⟩
  have hperiod : ∀ n, a ^ (255 * n + 1) = a := by
    intro n
    induction n with
    | zero => exact pow_one a
    | succ n ih =>
      calc a ^ (255 * (n + 1) + 1) = a ^ 255 * a ^ (255 * n + 1) := by ring
        _ = a ^ 256 := by rw [ih, ← pow_succ]
        _ = a := a.pow_card
  calc inverse (inverse b) = ((a ^ 254) ^ 254).byte := by
        rw [Element.byte_pow_254, Element.byte_pow_254]
    -- 254 times 254 is one more than a multiple of 255.
    _ = (a ^ (255 * 253 + 1)).byte := by rw [← pow_mul]
    _ = b := by rw [hperiod]

/-! ## The substitution box -/

/-- The affine map behind the inverse. -/
def affine (i : UInt8) : UInt8 :=
  i ^^^ rotateByte i 1 ^^^ rotateByte i 2 ^^^ rotateByte i 3 ^^^ rotateByte i 4 ^^^ 0x63

/-- The affine map that undoes the other one. -/
def unaffine (b : UInt8) : UInt8 :=
  rotateByte b 1 ^^^ rotateByte b 3 ^^^ rotateByte b 6 ^^^ 0x05

theorem unaffine_affine (i : UInt8) : unaffine (affine i) = i := by
  revert i
  apply forall_byte
  decide +kernel

/-- The substitution box maps no two bytes to one. -/
theorem substitute_injective : Function.Injective substitute := by
  refine Function.LeftInverse.injective (g := fun b => inverse (unaffine b)) fun b => ?_
  calc inverse (unaffine (substitute b)) = inverse (unaffine (affine (inverse b))) := rfl
    _ = b := by rw [unaffine_affine, inverse_inverse]

end AuthEncryption.Aes
