import AuthEncryption.Proofs.Aes.Field
import AuthEncryption.Aes.Schedule

/-!
# Encryption is one to one

No transformation of the square loses anything. The substitution box is one to one on each
byte, the shift of the rows only moves bytes, and a round key is added a second time to take
it off. A mixed column is a product in the ring of the field, and a second product takes it
back. All rounds together are therefore one to one, whatever the round keys are.
-/
namespace AuthEncryption.Aes

/-! ## Columns -/

namespace Element

/-- A row of a mixed column: its product with `(x, x + 1, 1, 1)`. -/
def mixed (a b c d : Element) : Element := x * a + (x + 1) * b + c + d

/-- A row of the column before it was mixed. -/
def unmixed (a b c d : Element) : Element :=
  (x ^ 3 + x ^ 2 + x) * a + (x ^ 3 + x + 1) * b + (x ^ 3 + x ^ 2 + 1) * c + (x ^ 3 + 1) * d

theorem unmixed_mixed (a b c d : Element) :
    unmixed (mixed a b c d) (mixed b c d a) (mixed c d a b) (mixed d a b c) = a := by
  simp only [unmixed, mixed]
  grind

variable {a b c d : Element}

/-- The first row is determined by all mixed rows. -/
theorem eq_of_mixed_eq {a' b' c' d' : Element} (ha : mixed a b c d = mixed a' b' c' d')
    (hb : mixed b c d a = mixed b' c' d' a') (hc : mixed c d a b = mixed c' d' a' b')
    (hd : mixed d a b c = mixed d' a' b' c') : a = a' := by
  rw [← unmixed_mixed a b c d, ha, hb, hc, hd, unmixed_mixed]

/-- With the sum of all rows, a mixed row takes one product. -/
theorem byte_mixed (sum : Element) (h : sum = a + b + c + d) :
    (mixed a b c d).byte = a.byte ^^^ sum.byte ^^^ double (a.byte ^^^ b.byte) := by
  have hmixed : mixed a b c d = a + sum + x * (a + b) := by
    simp only [mixed, h]
    grind
  rw [hmixed, byte_add, byte_x_mul]
  rfl

end Element

namespace Column

open Element

theorem mix_eq (c : Column) :
    c.mix =
      { r0 := (mixed ⟨c.r0⟩ ⟨c.r1⟩ ⟨c.r2⟩ ⟨c.r3⟩).byte
        r1 := (mixed ⟨c.r1⟩ ⟨c.r2⟩ ⟨c.r3⟩ ⟨c.r0⟩).byte
        r2 := (mixed ⟨c.r2⟩ ⟨c.r3⟩ ⟨c.r0⟩ ⟨c.r1⟩).byte
        r3 := (mixed ⟨c.r3⟩ ⟨c.r0⟩ ⟨c.r1⟩ ⟨c.r2⟩).byte } := by
  let sum : Element := ⟨c.r0⟩ + ⟨c.r1⟩ + ⟨c.r2⟩ + ⟨c.r3⟩
  rw [byte_mixed sum rfl, byte_mixed sum (by ring), byte_mixed sum (by ring),
    byte_mixed sum (by ring)]
  rfl

theorem mix_injective : Function.Injective mix := by
  intro c c' h
  rw [mix_eq, mix_eq] at h
  obtain ⟨h0, h1, h2, h3⟩ := Column.mk.inj h
  replace h0 := Element.ext h0
  replace h1 := Element.ext h1
  replace h2 := Element.ext h2
  replace h3 := Element.ext h3
  exact Column.ext (congrArg byte (eq_of_mixed_eq h0 h1 h2 h3))
    (congrArg byte (eq_of_mixed_eq h1 h2 h3 h0)) (congrArg byte (eq_of_mixed_eq h2 h3 h0 h1))
    (congrArg byte (eq_of_mixed_eq h3 h0 h1 h2))

theorem substitute_injective : Function.Injective substitute := by
  intro c c' h
  obtain ⟨h0, h1, h2, h3⟩ := Column.mk.inj h
  exact Column.ext (Aes.substitute_injective h0) (Aes.substitute_injective h1)
    (Aes.substitute_injective h2) (Aes.substitute_injective h3)

/-- A column is added a second time to take it off. -/
theorem add_add_cancel (c key : Column) : (c.add key).add key = c := by
  simp only [add, UInt8.xor_assoc, UInt8.xor_self, UInt8.xor_zero]

theorem toList_injective : Function.Injective toList := by
  intro c c' h
  simpa [toList, Column.ext_iff] using h

/-- Inside a string, a column is four of its bytes. -/
theorem toList_readAt {bs : Bytes} {i : Nat} (h : i + 4 ≤ bs.length) :
    (readAt bs i).toList = (bs.drop i).take 4 := by
  have hget : ∀ j, (hj : j < bs.length) → bs.getD j 0 = bs[j] := fun j hj => by simp [hj]
  rw [readAt, hget i (by omega), hget (i + 1) (by omega), hget (i + 2) (by omega),
    hget (i + 3) (by omega), List.drop_eq_getElem_cons (by omega),
    List.drop_eq_getElem_cons (by omega), List.drop_eq_getElem_cons (by omega),
    List.drop_eq_getElem_cons (by omega)]
  rfl

end Column

/-! ## The square -/

namespace State

theorem substitute_injective : Function.Injective substitute := by
  intro s s' h
  obtain ⟨h0, h1, h2, h3⟩ := State.mk.inj h
  exact State.ext (Column.substitute_injective h0) (Column.substitute_injective h1)
    (Column.substitute_injective h2) (Column.substitute_injective h3)

theorem mixColumns_injective : Function.Injective mixColumns := by
  intro s s' h
  obtain ⟨h0, h1, h2, h3⟩ := State.mk.inj h
  exact State.ext (Column.mix_injective h0) (Column.mix_injective h1) (Column.mix_injective h2)
    (Column.mix_injective h3)

/-- The shift moves every byte, so that four shifts bring the rows back. -/
theorem shiftRows_four (s : State) : s.shiftRows.shiftRows.shiftRows.shiftRows = s := rfl

theorem shiftRows_injective : Function.Injective shiftRows := by
  intro s s' h
  rw [← shiftRows_four s, h, shiftRows_four]

theorem add_add_cancel (s key : State) : (s.add key).add key = s := by
  simp [add, Column.add_add_cancel]

theorem add_injective (key : State) : Function.Injective (add · key) := by
  intro s s' h
  rw [← add_add_cancel s key, show s.add key = s'.add key from h, add_add_cancel]

theorem toBlock_injective : Function.Injective toBlock := by
  intro s s' h
  have hlist := congrArg FixedBytes.toList h
  simp only [toBlock] at hlist
  obtain ⟨hlist, h3⟩ := List.append_inj' hlist rfl
  obtain ⟨hlist, h2⟩ := List.append_inj' hlist rfl
  obtain ⟨h0, h1⟩ := List.append_inj' hlist rfl
  exact State.ext (Column.toList_injective h0) (Column.toList_injective h1)
    (Column.toList_injective h2) (Column.toList_injective h3)

/-- The square of a block holds all of its bytes. -/
theorem toBlock_ofBlock (block : FixedBytes 16) : (ofBlock block).toBlock = block := by
  have hcolumn (i : Nat) (hi : i + 4 ≤ 16) :
      (Column.readAt block.toList i).toList = (block.toList.drop i).take 4 :=
    Column.toList_readAt (by rwa [FixedBytes.length_toList])
  apply FixedBytes.ext
  simp only [toBlock, ofBlock, hcolumn 0 (by decide), hcolumn 4 (by decide),
    hcolumn 8 (by decide), hcolumn 12 (by decide)]
  rw [List.drop_zero, ← List.take_add, ← List.take_add, ← List.take_add,
    List.take_of_length_le (by simp)]

theorem ofBlock_injective : Function.Injective ofBlock :=
  Function.LeftInverse.injective toBlock_ofBlock

end State

/-! ## Rounds -/

/-- Steps that are one to one are one to one after each other. -/
theorem fold_injective {α : Type} (n : Nat) (f : (i : Nat) → i < n → α → α)
    (h : ∀ i hi, Function.Injective (f i hi)) : Function.Injective (Nat.fold n f) := by
  induction n with
  | zero => exact fun _ _ heq => heq
  | succ n ih =>
    intro a b heq
    rw [Nat.fold_succ, Nat.fold_succ] at heq
    exact ih _ (fun i hi => h i _) (h n _ heq)

namespace Schedule

variable (schedule : Schedule)

theorem round_injective (key : State) : Function.Injective (round · key) :=
  (State.add_injective key).comp <| State.mixColumns_injective.comp <|
    State.shiftRows_injective.comp State.substitute_injective

theorem encryptState_injective : Function.Injective schedule.encryptState := by
  intro s s' h
  -- The steps are taken off from the last one to the first.
  have hshifted := State.add_injective _ h
  have hrounds := State.substitute_injective (State.shiftRows_injective hshifted)
  have hadded := fold_injective 13 _ (fun i h => round_injective schedule.keys[i + 1]) hrounds
  exact State.add_injective _ hadded

/-- A cipher maps no two blocks to one. -/
theorem encrypt_injective : Function.Injective schedule.encrypt :=
  State.toBlock_injective.comp <| schedule.encryptState_injective.comp State.ofBlock_injective

end Schedule

end AuthEncryption.Aes
