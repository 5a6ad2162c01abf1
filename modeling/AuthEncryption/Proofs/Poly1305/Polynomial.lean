import AuthEncryption.Proofs.Horner
import AuthEncryption.Proofs.Poly1305.Limbs
import AuthEncryption.Proofs.Poly1305.Updates

/-!
# The tag as a polynomial

The blocks of a message, each with a one above its last byte, are the coefficients of a
polynomial without a constant term. It is evaluated at the clamped first half of the key
modulo `2 ^ 130 - 5`; the second half is added modulo `2 ^ 128`. The steps on limbs follow
Horner's rule, one block a step, and a block that is not full is a step like the others.
-/
namespace AuthEncryption.Poly1305

/-- A block as a number: its bytes with a one above the last of them. -/
def blockValue (block : Bytes) : Nat := Bytes.toNatLE block + 2 ^ (8 * block.length)

/-- The polynomial of some blocks at `r`: the first block has the highest power and the
last one the first power. -/
def polynomial (r : Nat) (blocks : List Bytes) : Nat :=
  ∑ i ∈ Finset.range blocks.length, blockValue (blocks.getD i []) * r ^ (blocks.length - i)

theorem polynomial_concat (r : Nat) (blocks : List Bytes) (block : Bytes) :
    polynomial r (blocks ++ [block]) = (polynomial r blocks + blockValue block) * r :=
  horner_concat blockValue r [] blocks block

/-- The run over full blocks: the limbs stay small and hold the residue of the polynomial. -/
theorem foldl_step_spec {r : Limbs} (hr : r.Below (2 ^ 26)) (blocks : List Bytes)
    (hlen : ∀ block ∈ blocks, block.length = 16) :
    (blocks.foldl (r.step · · fullBlockBit) Limbs.zero).Carried ∧
      (blocks.foldl (r.step · · fullBlockBit) Limbs.zero).value ≡
        polynomial r.value blocks [MOD modulus] := by
  induction blocks using List.reverseRecOn with
  | nil => exact ⟨Limbs.carried_zero, rfl⟩
  | append_singleton blocks block ih =>
    obtain ⟨hcarried, hvalue⟩ := ih fun b hb => hlen b (List.mem_append_left _ hb)
    have hblock : block.length = 16 := hlen block (by simp)
    have hbit : 2 ^ 104 * fullBlockBit.toNat = 2 ^ (8 * block.length) := by
      rw [hblock]
      rfl
    obtain ⟨hnext, hstep⟩ := Limbs.step_spec hr hcarried hblock (Or.inr rfl)
    rw [hbit] at hstep
    rw [List.foldl_append, List.foldl_cons, List.foldl_nil, polynomial_concat]
    exact ⟨hnext, hstep.trans ((hvalue.add_right _).mul_right _)⟩

/-- A block that is not full, filled up with its one and zeros, is its number. -/
theorem toNatLE_filled (rest : Bytes) (n : Nat) :
    Bytes.toNatLE (rest ++ 1 :: Bytes.zeros n) + 2 ^ 104 * (0 : UInt32).toNat =
      blockValue rest := by
  have hone : Bytes.toNatLE (1 :: Bytes.zeros n) = 1 + 256 * Bytes.toNatLE (Bytes.zeros n) := rfl
  have hpow : 256 ^ rest.length = 2 ^ (8 * rest.length) := Nat.pow_mul 2 8 rest.length ▸ rfl
  rw [Bytes.toNatLE_append, hone, Bytes.toNatLE_zeros, hpow, Nat.mul_zero, Nat.add_zero,
    Nat.mul_one, blockValue]
  rfl

variable (key : FixedBytes 32)

/-- The point of evaluation: the first half of the key with some of its bits cleared. -/
def multiplier : Nat := Bytes.toNatLE (key.toList.take 16) &&& Limbs.clampMask

/-- What is added at the end: the second half of the key. -/
def addend : Nat := Bytes.toNatLE (key.toList.drop 16)

theorem lastValue_spec (message : Bytes) :
    ((new key).update message).lastValue.Carried ∧
      ((new key).update message).lastValue.value ≡
        polynomial (multiplier key) (Bytes.pieces blockSize message) [MOD modulus] := by
  obtain ⟨hr, hmultiplier⟩ := Limbs.ofKey_spec key.toList
  obtain ⟨hcarried, hfull⟩ := foldl_step_spec hr (Bytes.fullPieces blockSize message)
    fun _ hmem => Bytes.length_of_mem_fullPieces hmem
  have hfields : (new key).update message =
      { r := .ofKey key.toList
        h := (Bytes.fullPieces blockSize message).foldl
          ((Limbs.ofKey key.toList).step · · fullBlockBit) .zero
        pad := (new key).pad
        waiting := Bytes.leftover blockSize message } := rfl
  rw [hfields, Bytes.pieces_eq (by decide), multiplier, ← hmultiplier]
  unfold lastValue
  by_cases hnone : Bytes.leftover blockSize message = []
  · simp only [hnone, List.isEmpty_nil, if_true, List.append_nil]
    exact ⟨hcarried, hfull⟩
  · have hrest : (Bytes.leftover blockSize message).length < blockSize :=
      Bytes.length_leftover message ▸ Nat.mod_lt _ (by decide)
    obtain ⟨rest, hwaiting⟩ : ∃ rest, rest = Bytes.leftover blockSize message := ⟨_, rfl⟩
    rw [← hwaiting] at hnone hrest ⊢
    have hlen : (rest ++ 1 :: Bytes.zeros (blockSize - 1 - rest.length)).length = 16 := by
      rw [List.length_append, List.length_cons, Bytes.length_zeros]
      unfold blockSize at *
      omega
    obtain ⟨hnext, hstep⟩ := Limbs.step_spec hr hcarried hlen (Or.inl rfl)
    rw [toNatLE_filled] at hstep
    simp only [List.isEmpty_iff, hnone, if_false, polynomial_concat]
    exact ⟨hnext, hstep.trans ((hfull.add_right _).mul_right _)⟩

theorem valueLE_pad : Word.valueLE (new key).pad.toList = addend key := by
  have hlt := Bytes.toNatLE_lt key.toList
  have hw := Word.toNat_readAt key.toList
  rw [FixedBytes.length_toList] at hlt
  have hpad : (new key).pad.toList = [Word.readAt key.toList 16, Word.readAt key.toList 20,
    Word.readAt key.toList 24, Word.readAt key.toList 28] := rfl
  rw [hpad, addend, Bytes.toNatLE_drop]
  simp only [Word.valueLE, List.foldr_cons, List.foldr_nil, hw]
  omega

/-- The tag of a message is the value of its polynomial at the clamped first half of the
key, reduced, with the second half added, as sixteen bytes. -/
theorem authenticate_eq_polynomial (message : Bytes) :
    (authenticate key message).toList = Bytes.ofNatLE 16
      ((polynomial (multiplier key) (Bytes.pieces 16 message) % (2 ^ 130 - 5) + addend key) %
        2 ^ 128) := by
  obtain ⟨h, hh⟩ : ∃ h, h = ((new key).update message).lastValue := ⟨_, rfl⟩
  obtain ⟨hcarried, hresidue⟩ := lastValue_spec key message
  rw [← hh] at hcarried hresidue
  obtain ⟨hsettled, k, hk⟩ := Limbs.settle_spec hcarried
  obtain ⟨hcanonical, hvalue⟩ := Limbs.canonical_spec hsettled
  have hreduced : h.settle.canonical.value =
      polynomial (multiplier key) (Bytes.pieces 16 message) % modulus := by
    rw [hvalue, ← Nat.add_mul_mod_self_left h.settle.value modulus k, ← hk]
    exact hresidue
  have hwords : h.settle.canonical.words.length = 4 := rfl
  have hlen : (addWords 0 h.settle.canonical.words (new key).pad.toList).length = 4 := by
    rw [length_addWords, hwords, Vector.length_toList, Nat.min_self]
  have hsum : Word.valueLE (addWords 0 h.settle.canonical.words (new key).pad.toList) =
      (h.settle.canonical.value % 2 ^ 128 + addend key) % 2 ^ 128 := by
    have hzero : (0 : UInt64).toNat = 0 := rfl
    rw [valueLE_addWords (by rw [hwords, Vector.length_toList]) (by decide), hwords, hzero,
      Nat.zero_add, Limbs.valueLE_words hcanonical, valueLE_pad]
  calc (authenticate key message).toList
      = Word.bytes (addWords 0 h.settle.canonical.words (new key).pad.toList) := by
        rw [hh]
        rfl
    _ = Bytes.ofNatLE 16 ((polynomial (multiplier key) (Bytes.pieces 16 message) % modulus +
          addend key) % 2 ^ 128) := by
        rw [Word.bytes_eq, hlen, hsum, hreduced, Nat.mod_add_mod]

end AuthEncryption.Poly1305
