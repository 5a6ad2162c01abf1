import AuthEncryption.Proofs.Aes.Permutation
import AuthEncryption.Proofs.Aes.Residues

/-!
# The cipher of FIPS 197

The standard's cipher over octets, for a key of eight words: the schedule of keys by the
recurrence of its words, the substitution box from the inverse in the field, the rows and
columns of a square, and for each column a product of polynomials modulo `x^4 + 1`.
Encryption with the schedule of a key is this cipher. The two are compared step by step: a
column of bytes is a word of octets, and each transformation of the square is the standard's.
-/
namespace AuthEncryption.Aes

open Polynomial

/-! ## The standard -/

namespace Standard

/-- Bit `i` of the affine map adds up five bits and one of a constant. -/
def affine (b : Octet) : Octet :=
  fun i => b i + b (i + 4) + b (i + 5) + b (i + 6) + b (i + 7) + ![1, 1, 0, 0, 0, 1, 1, 0] i

/-- The substitution box: the inverse in the field, or zero for zero, and the affine map. -/
noncomputable def subByte (b : Octet) : Octet := affine (octetOf (residueOf b)⁻¹)

/-- Four octets: a word of the key schedule, or a column of the square. -/
abbrev Word := Fin 4 → Octet

noncomputable def subWord (w : Word) : Word := fun r => subByte (w r)

def rotWord (w : Word) : Word := fun r => w (r + 1)

/-- The round constant: a power of `x` in front of zeros. -/
noncomputable def roundConstant (i : Nat) : Word :=
  ![octetOf (AdjoinRoot.root modulus ^ (i - 1)), 0, 0, 0]

/-- The words of the key schedule. -/
noncomputable def word (key : Fin 32 → Octet) (i : Nat) : Word :=
  if h : i < 8 then fun r => key ⟨4 * i + r, by omega⟩
  else
    let last := word key (i - 1)
    let change :=
      if i % 8 = 0 then subWord (rotWord last) + roundConstant (i / 8)
      else if i % 8 = 4 then subWord last
      else last
    word key (i - 8) + change

/-- Octets by row and column. -/
abbrev Square := Fin 4 → Fin 4 → Octet

noncomputable def addRoundKey (key : Fin 32 → Octet) (i : Nat) (s : Square) : Square :=
  fun r c => s r c + word key (4 * i + c) r

noncomputable def subBytes (s : Square) : Square := fun r c => subByte (s r c)

/-- Row `r` moved left by `r` columns. -/
def shiftRows (s : Square) : Square := fun r c => s r (c + r)

/-- The polynomial of a column, its first row the constant coefficient. -/
noncomputable def columnPolynomial (w : Word) : Residue[X] :=
  ∑ r, C (residueOf (w r)) * X ^ (r : Nat)

/-- The fixed polynomial: `03 x^3 + 01 x^2 + 01 x + 02`, where `02` is the residue of `x`. -/
noncomputable def mixPolynomial : Residue[X] :=
  C (AdjoinRoot.root modulus + 1) * X ^ 3 + X ^ 2 + X + C (AdjoinRoot.root modulus)

/-- The product with the fixed polynomial modulo `x^4 + 1`. -/
noncomputable def mixColumn (w : Word) : Word :=
  fun r => octetOf ((mixPolynomial * columnPolynomial w %ₘ (X ^ 4 + 1)).coeff r)

noncomputable def mixColumns (s : Square) : Square := fun r c => mixColumn (fun i => s i c) r

noncomputable def round (key : Fin 32 → Octet) (s : Square) (i : Nat) : Square :=
  addRoundKey key i (mixColumns (shiftRows (subBytes s)))

/-- The cipher with fourteen rounds, of which the last one does not mix columns. The square is
filled column by column. -/
noncomputable def cipher (key : Fin 32 → Octet) (input : Fin 16 → Octet) : Fin 16 → Octet :=
  let start := addRoundKey key 0 fun r c => input ⟨r + 4 * c, by omega⟩
  let middle := (List.range' 1 13).foldl (round key) start
  let last := addRoundKey key 14 (shiftRows (subBytes middle))
  fun i => last ⟨i % 4, by omega⟩ ⟨i / 4, by omega⟩

end Standard

/-! ## Bytes and columns -/

theorem toBitVec_rotateByte (b : UInt8) {amount : UInt8} (hpos : 0 < amount.toNat)
    (hlt : amount.toNat < 8) :
    (rotateByte b amount).toBitVec = b.toBitVec.rotateLeft amount.toNat := by
  obtain ⟨n, hn⟩ : ∃ n, amount.toNat = n := ⟨_, rfl⟩
  obtain rfl : amount = UInt8.ofNat n := by rw [← hn, UInt8.ofNat_toNat]
  rw [hn] at hpos hlt
  interval_cases n <;> rfl

/-- A rotated byte takes each bit from that many places below, the places in a circle. -/
theorem bits_rotateByte (b amount : UInt8) (j : Fin 8) (hlt : amount.toNat < 8)
    (hj : amount.toNat + j = 8) (i : Fin 8) : bits (rotateByte b amount) i = bits b (i + j) := by
  have hplace : (rotateByte b amount).toBitVec.getLsbD i = b.toBitVec.getLsbD (i + j : Fin 8) := by
    rw [toBitVec_rotateByte b (by omega) hlt, BitVec.getLsbD_rotateLeft, Fin.val_add,
      Nat.mod_eq_of_lt hlt]
    by_cases hlow : i.val < amount.toNat
    · have hcircle : (i + j : Nat) % 8 = 8 - amount.toNat + i := by omega
      simp [hlow, hcircle]
    · have hcircle : (i + j : Nat) % 8 = i - amount.toNat := by omega
      simp [hlow, hcircle]
  simp only [bits, hplace]

theorem bits_affine (b : UInt8) : bits (affine b) = Standard.affine (bits b) := by
  have hconstant : bits 0x63 = ![1, 1, 0, 0, 0, 1, 1, 0] := by decide
  funext i
  simp only [affine, Standard.affine, bits_xor, Pi.add_apply, hconstant]
  rw [bits_rotateByte b 1 7 (by decide) rfl, bits_rotateByte b 2 6 (by decide) rfl,
    bits_rotateByte b 3 5 (by decide) rfl, bits_rotateByte b 4 4 (by decide) rfl]
  ring

theorem bits_substitute (b : UInt8) : bits (substitute b) = Standard.subByte (bits b) := by
  have hinverse : octetOf (residueOf (bits b))⁻¹ = bits (inverse b) := by
    have hresidue : (residueOf (bits b))⁻¹ = residueOf (bits (inverse b)) :=
      (residue_inverse b).symm
    rw [hresidue, octetOf_residueOf]
  rw [Standard.subByte, hinverse, ← bits_affine]
  rfl

namespace Column

/-- The word of a column. -/
def octets (c : Column) : Standard.Word := ![bits c.r0, bits c.r1, bits c.r2, bits c.r3]

theorem octets_add (a b : Column) : (a.add b).octets = a.octets + b.octets := by
  funext r
  fin_cases r <;> exact bits_xor _ _

theorem octets_substitute (c : Column) : c.substitute.octets = Standard.subWord c.octets := by
  funext r
  fin_cases r <;> exact bits_substitute _

theorem octets_rotate (c : Column) : c.rotate.octets = Standard.rotWord c.octets := by
  funext r
  fin_cases r <;> rfl

/-- Inside a string, the word at an offset holds the octets from there on. -/
theorem octets_readAt {n : Nat} (bs : FixedBytes n) {i : Nat} (h : i + 4 ≤ n) (r : Fin 4) :
    (readAt bs.toList i).octets r = bits (bs.get ⟨i + r, by omega⟩) := by
  have hget : ∀ j, (hj : j < n) → bs.toList.getD j 0 = bs.get ⟨j, hj⟩ := by
    intro j hj
    simp [FixedBytes.get, hj]
  fin_cases r <;> exact congrArg bits (hget _ _)

end Column

/-! ## The product of columns -/

namespace Standard

/-- A power that leaves the column comes back four places lower. -/
theorem mix_modByMonic (w : Word) :
    mixPolynomial * columnPolynomial w %ₘ (X ^ 4 + 1) =
      ∑ r : Fin 4, C (AdjoinRoot.root modulus * residueOf (w r) +
        (AdjoinRoot.root modulus + 1) * residueOf (w (r + 1)) + residueOf (w (r + 2)) +
          residueOf (w (r + 3))) * X ^ (r : Nat) := by
  have hmonic : (X ^ 4 + 1 : Residue[X]).Monic := by monicity!
  have hdegree : (X ^ 4 + 1 : Residue[X]).degree = 4 := by compute_degree!
  have htwo : (2 : Residue[X]) = 0 := CharTwo.two_eq_zero
  obtain ⟨x, hx⟩ : ∃ x, x = AdjoinRoot.root modulus := ⟨_, rfl⟩
  obtain ⟨a, ha⟩ : ∃ a : Fin 4 → Residue, ∀ r, residueOf (w r) = a r := ⟨_, fun _ => rfl⟩
  simp only [mixPolynomial, columnPolynomial, ← hx, ha]
  -- What stands above the third power is the quotient.
  refine (div_modByMonic_unique (C (a 3 + a 2 + (x + 1) * a 1) + C (a 3 + (x + 1) * a 2) * X +
    C ((x + 1) * a 3) * X ^ 2) _ hmonic ⟨?_, ?_⟩).2
  · simp only [Fin.sum_univ_four, map_add, map_mul, map_one]
    simp
    linear_combination (C (a 3) + C (a 2) + (C x + 1) * C (a 1) +
      (C (a 3) + (C x + 1) * C (a 2)) * X + (C x + 1) * C (a 3) * X ^ 2) * htwo
  · rw [hdegree]
    exact degree_sum_fin_lt _

theorem residueOf_mixColumn (w : Word) (r : Fin 4) :
    residueOf (mixColumn w r) = AdjoinRoot.root modulus * residueOf (w r) +
      (AdjoinRoot.root modulus + 1) * residueOf (w (r + 1)) + residueOf (w (r + 2)) +
        residueOf (w (r + 3)) := by
  rw [mixColumn, residueOf_octetOf, mix_modByMonic, finsetSum_coeff]
  simp only [coeff_C_mul, coeff_X_pow]
  fin_cases r <;> simp [Fin.sum_univ_four]

end Standard

namespace Column

theorem residueOf_mixed (a b c d : UInt8) :
    residueOf (bits (Element.mixed ⟨a⟩ ⟨b⟩ ⟨c⟩ ⟨d⟩).byte) =
      AdjoinRoot.root modulus * residueOf (bits a) +
        (AdjoinRoot.root modulus + 1) * residueOf (bits b) + residueOf (bits c) +
          residueOf (bits d) := by
  have hhom : residueHom (Element.mixed ⟨a⟩ ⟨b⟩ ⟨c⟩ ⟨d⟩) = AdjoinRoot.root modulus * residueHom ⟨a⟩ +
      (AdjoinRoot.root modulus + 1) * residueHom ⟨b⟩ + residueHom ⟨c⟩ + residueHom ⟨d⟩ := by
    simp only [Element.mixed, map_add, map_mul, map_one, residueHom_x]
  exact hhom

theorem octets_mix (c : Column) : c.mix.octets = Standard.mixColumn c.octets := by
  funext r
  apply residueOf_injective
  rw [mix_eq, Standard.residueOf_mixColumn]
  fin_cases r <;> exact residueOf_mixed _ _ _ _

end Column

/-! ## The square -/

namespace State

/-- The square of octets. -/
def octets (s : State) : Standard.Square := fun r c => (![s.c0, s.c1, s.c2, s.c3] c).octets r

theorem octets_substitute (s : State) : s.substitute.octets = Standard.subBytes s.octets := by
  funext r c
  fin_cases c <;> exact congrFun (Column.octets_substitute _) r

theorem octets_shiftRows (s : State) : s.shiftRows.octets = Standard.shiftRows s.octets := by
  funext r c
  fin_cases r <;> fin_cases c <;> rfl

theorem octets_mixColumns (s : State) : s.mixColumns.octets = Standard.mixColumns s.octets := by
  funext r c
  fin_cases c <;> exact congrFun (Column.octets_mix _) r

theorem octets_ofBlock (block : FixedBytes 16) (r c : Fin 4) :
    (ofBlock block).octets r c = bits (block.get ⟨r + 4 * c, by omega⟩) := by
  fin_cases c <;> (refine (Column.octets_readAt block (by decide) r).trans ?_; simp [Nat.add_comm])

theorem bits_toBlock (s : State) (i : Fin 16) :
    bits (s.toBlock.get i) = s.octets ⟨i % 4, by omega⟩ ⟨i / 4, by omega⟩ := by
  fin_cases i <;> rfl

end State

/-! ## The schedule of keys -/

section Keys

variable (key : FixedBytes 32)

/-- The octets of a key. -/
def keyOctets : Fin 32 → Octet := fun i => bits (key.get i)

theorem octets_roundConstant {i : Nat} (h : i ≤ 8) :
    Column.octets ⟨roundConstant i, 0, 0, 0⟩ = Standard.roundConstant i := by
  have hpower : octetOf (AdjoinRoot.root modulus ^ (i - 1)) = bits (roundConstant i) := by
    have hresidue : AdjoinRoot.root modulus ^ (i - 1) = residueOf (bits (roundConstant i)) :=
      (residue_bit ⟨i - 1, by omega⟩).symm
    rw [hresidue, octetOf_residueOf]
  rw [Standard.roundConstant, hpower, ← bits_zero]
  rfl

/-- The first words are those of the key. -/
theorem octets_keyColumns {i : Nat} (h : i < 8) :
    ((keyColumns key).getD i .zero).octets = Standard.word (keyOctets key) i := by
  have hread : (keyColumns key).getD i .zero = Column.readAt key.toList (4 * i) := by
    interval_cases i <;> rfl
  funext r
  rw [hread, Column.octets_readAt key (by omega), Standard.word, dif_pos h]
  rfl

/-- The step lemma: the next column is the next word, if the columns so far are words. -/
theorem octets_nextColumn {columns : Array Column} (hkey : 8 ≤ columns.size)
    (hlt : columns.size < 60)
    (hwords : ∀ i < columns.size, (columns.getD i .zero).octets = Standard.word (keyOctets key) i) :
    (nextColumn columns).octets = Standard.word (keyOctets key) columns.size := by
  have hlast := hwords (columns.size - 1) (by omega)
  rw [Standard.word, dif_neg (Nat.not_lt.mpr hkey), ← hwords (columns.size - 8) (by omega), ← hlast,
    nextColumn, Column.octets_add]
  congr 1
  split_ifs
  · rw [Column.octets_add, Column.octets_substitute, Column.octets_rotate,
      octets_roundConstant (by omega)]
  · exact Column.octets_substitute _
  · rfl

/-- The run lemma: all columns of a schedule are words. -/
theorem octets_extend (count : Nat) {columns : Array Column} (hkey : 8 ≤ columns.size)
    (hle : columns.size + count ≤ 60)
    (hwords : ∀ i < columns.size, (columns.getD i .zero).octets = Standard.word (keyOctets key) i)
    {i : Nat} (hi : i < columns.size + count) :
    ((extend count columns).getD i .zero).octets = Standard.word (keyOctets key) i := by
  induction count generalizing columns with
  | zero => exact hwords i hi
  | succ count ih =>
    have hsize : (columns.push (nextColumn columns)).size = columns.size + 1 := Array.size_push ..
    refine @ih (columns.push (nextColumn columns)) (by omega) (by omega) (fun j hj => ?_) (by omega)
    rcases Nat.lt_or_eq_of_le (Nat.le_of_lt_succ (hsize ▸ hj)) with hbefore | rfl
    · rw [← hwords j hbefore]
      simp [Array.getD_eq_getD_getElem?, Array.getElem?_push, Nat.ne_of_lt hbefore]
    · rw [← octets_nextColumn key hkey (by omega) hwords]
      simp [Array.getD_eq_getD_getElem?]

/-- A round key is four words of the schedule. -/
theorem octets_key {i : Nat} (hi : i < 15) (r c : Fin 4) :
    ((Schedule.ofKey key).keys[i]).octets r c = Standard.word (keyOctets key) (4 * i + c) r := by
  have hsize : (keyColumns key).size = 8 := rfl
  have hword : ∀ j < 60, ((extend 52 (keyColumns key)).getD j .zero).octets =
      Standard.word (keyOctets key) j := fun j hj =>
    octets_extend key 52 hsize.ge (by omega) (fun i hi => octets_keyColumns key (hsize ▸ hi))
      (by omega)
  simp only [Schedule.ofKey, Vector.getElem_ofFn]
  generalize extend 52 (keyColumns key) = columns at hword
  rw [← hword _ (by omega)]
  fin_cases c <;> rfl

/-! ## Rounds -/

theorem octets_addRoundKey {i : Nat} (hi : i < 15) (s : State) :
    (s.add (Schedule.ofKey key).keys[i]).octets =
      Standard.addRoundKey (keyOctets key) i s.octets := by
  funext r c
  rw [Standard.addRoundKey, ← octets_key key hi]
  fin_cases c <;> exact congrFun (Column.octets_add _ _) r

theorem octets_round {i : Nat} (hi : i < 15) (s : State) :
    (Schedule.round s (Schedule.ofKey key).keys[i]).octets =
      Standard.round (keyOctets key) s.octets i := by
  rw [Schedule.round, octets_addRoundKey, State.octets_mixColumns, State.octets_shiftRows,
    State.octets_substitute]
  rfl

/-- Rounds after each other. -/
theorem octets_fold {n : Nat} (f : (i : Nat) → i < n → State → State)
    (g : Standard.Square → Nat → Standard.Square)
    (h : ∀ i hi s, (f i hi s).octets = g s.octets (i + 1)) (s : State) :
    (Nat.fold n f s).octets = (List.range' 1 n).foldl g s.octets := by
  induction n with
  | zero => rfl
  | succ n ih =>
    rw [Nat.fold_succ, h, ih _ fun i hi => h i _, List.range'_concat, List.foldl_append,
      Nat.one_mul, Nat.add_comm 1 n]
    rfl

end Keys

/-- Encryption with the schedule of a key is the standard's cipher on the octets of the key and of
the block. Bytes and octets are one to one, and the inverse of the substitution box is one in a
field, since the modulus is irreducible. -/
theorem encrypt_eq_cipher :
    Irreducible modulus ∧ Function.Bijective bits ∧
    ∀ (key : FixedBytes 32) (block : FixedBytes 16) (i : Fin 16),
      bits (((Schedule.ofKey key).encrypt block).get i) =
        Standard.cipher (fun j => bits (key.get j)) (fun j => bits (block.get j)) i := by
  refine ⟨irreducible_modulus, bits_bijective, fun key block i => ?_⟩
  have hload : (State.ofBlock block).octets =
      fun (r c : Fin 4) => bits (block.get ⟨r + 4 * c, by omega⟩) := by
    funext r c
    exact State.octets_ofBlock block r c
  rw [Schedule.encrypt, State.bits_toBlock, Schedule.encryptState,
    octets_addRoundKey key (by decide), State.octets_shiftRows, State.octets_substitute,
    octets_fold _ _ fun i hi s => octets_round key (by omega) s,
    octets_addRoundKey key (by decide), hload]
  rfl

end AuthEncryption.Aes
