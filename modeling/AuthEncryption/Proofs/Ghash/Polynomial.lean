import AuthEncryption.Proofs.Gcm
import AuthEncryption.Proofs.Ghash.Field
import AuthEncryption.Proofs.Horner

/-!
# The hash as a polynomial

The associated data and the ciphertext, each with zeros behind it up to a whole block, and a
block for their lengths in bits make one string. Its blocks are the coefficients of a polynomial
without a constant term, and the hash is the value at the subkey: every step adds a block and
multiplies. The zeros are not ambiguous, since the lengths at the end of the string tell where
the fields end.
-/
namespace AuthEncryption

namespace FieldElement

/-! ## Blocks and strings -/

theorem toNat_bits (v : FieldElement) : v.bits.toNat = v.high.toNat * 256 ^ 8 + v.low.toNat := by
  have hlow : v.low.toBitVec.toNat < 2 ^ 64 := v.low.toBitVec.isLt
  rw [bits, BitVec.toNat_append, ← Nat.shiftLeft_add_eq_or_of_lt hlow, Nat.shiftLeft_eq]
  rfl

/-- A block written out is its integer, the most significant byte first. -/
theorem toList_toBlock (v : FieldElement) : v.toBlock.toList = Bytes.ofNatBE 16 v.bits.toNat := by
  have hlow : v.low.toNat < 256 ^ 8 := v.low.toNat_lt
  have hmod : Bytes.ofNatBE 8 v.bits.toNat = Bytes.ofNatBE 8 v.low.toNat := by
    rw [Bytes.ofNatBE, ← Bytes.ofNatLE_mod, toNat_bits, Nat.mul_add_mod_self_right,
      Nat.mod_eq_of_lt hlow, Bytes.ofNatBE]
  have hdiv : v.bits.toNat / 256 ^ 8 = v.high.toNat := by
    rw [toNat_bits]
    omega
  rw [Bytes.ofNatBE_add 8 8, hdiv, hmod]
  rfl

theorem toBlock_injective : Function.Injective toBlock := by
  have hvalue : ∀ v : FieldElement, Bytes.toNatBE v.toBlock.toList = v.bits.toNat := by
    intro v
    rw [toList_toBlock, Bytes.toNatBE_ofNatBE]
    exact Nat.mod_eq_of_lt v.bits.isLt
  intro a b h
  apply bits_bijective.injective
  apply BitVec.eq_of_toNat_eq
  rw [← hvalue, ← hvalue, h]

@[simp] theorem toBlock_ofBytes (block : FixedBytes 16) :
    (ofBytes block.toList).toBlock = block := by
  have hword : ∀ half : Bytes, half.length = 8 →
      Bytes.ofNatBE 8 (UInt64.ofNat (Bytes.toNatBE half)).toNat = half := by
    intro half hlen
    have hlt := Bytes.toNatBE_lt half
    rw [hlen] at hlt
    rw [UInt64.toNat_ofNat_of_lt' hlt, ← hlen, Bytes.ofNatBE_toNatBE]
  apply FixedBytes.ext
  simp only [toBlock, ofBytes, FixedBytes.ofPadded_toList]
  rw [hword _ (by simp), hword _ (by simp), List.take_append_drop]

@[simp] theorem ofBytes_toBlock (v : FieldElement) : ofBytes v.toBlock.toList = v :=
  toBlock_injective (toBlock_ofBytes v.toBlock)

theorem ofBytes_append_zeros (bs : Bytes) (k : Nat) :
    ofBytes (bs ++ Bytes.zeros k) = ofBytes bs := by
  rw [ofBytes, FixedBytes.ofPadded_append_zeros, ofBytes]

theorem ofBytes_take (bs : Bytes) : ofBytes (bs.take 16) = ofBytes bs := by
  rw [ofBytes, FixedBytes.ofPadded_take, ofBytes]

theorem map_ofBytes_takePieces (count k : Nat) (bs : Bytes) :
    (Bytes.takePieces 16 count (bs ++ Bytes.zeros k)).map ofBytes =
      (Bytes.takePieces 16 count bs).map ofBytes := by
  induction count generalizing bs k with
  | zero => rfl
  | succ count ih =>
    -- The zeros that the first piece takes are zeros that fill its block.
    have hrest : (bs ++ Bytes.zeros k).drop 16 =
        bs.drop 16 ++ Bytes.zeros (k - (16 - bs.length)) := by
      simp [List.drop_append, Bytes.zeros]
    rw [Bytes.takePieces, Bytes.takePieces, List.map_cons, List.map_cons, hrest, ih, ofBytes_take,
      ofBytes_take, ofBytes_append_zeros]

end FieldElement

namespace Ghash

/-! ## The string that is hashed -/

/-- A string with zeros behind it that fill its last block. -/
def filled (bs : Bytes) : Bytes := bs ++ Bytes.zeros (Bytes.pad16 bs.length)

/-- Both fields, each filled up to whole blocks, and their lengths in bits, eight bytes each. -/
def input (ad ciphertext : Bytes) : Bytes :=
  filled ad ++ filled ciphertext ++
    (Bytes.ofNatBE 8 (8 * ad.length) ++ Bytes.ofNatBE 8 (8 * ciphertext.length))

/-- The blocks of the string. -/
def blocks (ad ciphertext : Bytes) : List FieldElement :=
  (Bytes.pieces blockSize (input ad ciphertext)).map .ofBytes

theorem dvd_length_filled (bs : Bytes) : 16 ∣ (filled bs).length := by
  rw [filled, List.length_append, Bytes.length_zeros, Bytes.pad16]
  omega

/-- The zeros do not change the blocks of a field. -/
theorem map_ofBytes_filled (bs : Bytes) :
    (Bytes.pieces 16 (filled bs)).map FieldElement.ofBytes =
      (Bytes.pieces 16 bs).map FieldElement.ofBytes := by
  have hcount : ((filled bs).length + 16 - 1) / 16 = (bs.length + 16 - 1) / 16 := by
    rw [filled, List.length_append, Bytes.length_zeros, Bytes.pad16]
    omega
  rw [Bytes.pieces, hcount, filled, FieldElement.map_ofBytes_takePieces, Bytes.pieces]

/-- The blocks one after the other are the string. -/
theorem flatMap_blocks (ad c : Bytes) :
    ((blocks ad c).flatMap fun b => Bytes.ofNatBE 16 b.bits.toNat) = input ad c := by
  have hinput : 16 ∣ (input ad c).length := by
    rw [input, List.length_append, List.length_append]
    exact Nat.dvd_add (Nat.dvd_add (dvd_length_filled ad) (dvd_length_filled c)) (by simp)
  obtain ⟨hrest, hpieces⟩ := Bytes.pieces_eq_fullPieces (by decide) hinput
  have hpiece : ∀ piece ∈ Bytes.fullPieces 16 (input ad c),
      Bytes.ofNatBE 16 (FieldElement.ofBytes piece).bits.toNat = piece := by
    intro piece hmem
    have hblock := FieldElement.toBlock_ofBytes ⟨piece, Bytes.length_of_mem_fullPieces hmem⟩
    rw [← FieldElement.toList_toBlock, hblock]
  have hflat := Bytes.flatten_fullPieces (n := 16) (input ad c)
  rw [hrest, List.append_nil] at hflat
  rw [blocks, blockSize, hpieces, List.flatMap_map, List.flatMap_def, List.map_congr_left hpiece,
    List.map_id', hflat]

variable {ad c : Bytes}

/-- Below the limit neither length runs out of its half of the block. -/
theorem toList_lengthBlock (had : ad.length < 2 ^ 61) (hc : c.length < 2 ^ 61) :
    (lengthBlock ad.length c.length).toBlock.toList =
      Bytes.ofNatBE 8 (8 * ad.length) ++ Bytes.ofNatBE 8 (8 * c.length) := by
  have hlength : ∀ n < 2 ^ 61, (UInt64.ofNat (n * 8)).toNat = 8 * n := by
    intro n hn
    rw [UInt64.toNat_ofNat_of_lt' (by rw [UInt64.size]; omega), Nat.mul_comm]
  have hover : c.length * 8 / UInt64.size = 0 := Nat.div_eq_of_lt (by rw [UInt64.size]; omega)
  have hhigh : UInt64.ofNat (ad.length * 8) ||| UInt64.ofNat (c.length * 8 / UInt64.size) =
      UInt64.ofNat (ad.length * 8) := by
    rw [hover]
    exact UInt64.or_zero
  simp only [lengthBlock, hhigh, FieldElement.toBlock, hlength _ had, hlength _ hc]

/-- The blocks are those that the two fields give one by one, and the block of the lengths. -/
theorem blocks_eq (had : ad.length < 2 ^ 61) (hc : c.length < 2 ^ 61) :
    blocks ad c = (Bytes.pieces 16 ad).map .ofBytes ++ (Bytes.pieces 16 c).map .ofBytes ++
      [lengthBlock ad.length c.length] := by
  have hlast : Bytes.pieces 16 (lengthBlock ad.length c.length).toBlock.toList =
      [(lengthBlock ad.length c.length).toBlock.toList] := by
    simp [Bytes.pieces, Bytes.takePieces]
  have hfields : 16 ∣ (filled ad ++ filled c).length := by
    rw [List.length_append]
    exact Nat.dvd_add (dvd_length_filled ad) (dvd_length_filled c)
  rw [blocks, input, blockSize, ← toList_lengthBlock had hc,
    Bytes.pieces_append (by decide) _ hfields,
    Bytes.pieces_append (by decide) _ (dvd_length_filled ad), hlast, List.map_append,
    List.map_append, List.map_singleton, FieldElement.ofBytes_toBlock, map_ofBytes_filled,
    map_ofBytes_filled]

/-- The lengths at the end of the string tell where its fields end. -/
theorem input_inj {ad' c' : Bytes} (had : ad.length < 2 ^ 61) (hc : c.length < 2 ^ 61)
    (had' : ad'.length < 2 ^ 61) (hc' : c'.length < 2 ^ 61) (h : input ad c = input ad' c') :
    ad = ad' ∧ c = c' := by
  obtain ⟨hfields, hlengths⟩ := List.append_inj' h (by simp)
  obtain ⟨hadBytes, hcBytes⟩ := List.append_inj hlengths (by simp)
  have hadLength : 8 * ad.length = 8 * ad'.length :=
    Bytes.ofNatBE_inj (by omega) (by omega) hadBytes
  have hcLength : 8 * c.length = 8 * c'.length := Bytes.ofNatBE_inj (by omega) (by omega) hcBytes
  rw [filled, filled, filled, filled, ← List.append_assoc, ← List.append_assoc] at hfields
  obtain ⟨hfront, hciphertext⟩ := Bytes.append_padded_inj (by omega) hfields
  obtain ⟨-, hdata⟩ := Bytes.append_padded_inj (a := []) (b := []) (by omega) hfront
  exact ⟨hdata, hciphertext⟩

/-! ## The run over the blocks -/

/-- Every step adds a block and multiplies by the key. -/
theorem foldl_step (hash : Ghash) (bs : List FieldElement) :
    bs.foldl step hash =
      { hash with value := bs.foldl (fun value b => (value + b) * hash.key) hash.value } := by
  induction bs generalizing hash with
  | nil => rfl
  | cons b bs ih =>
    rw [List.foldl_cons, List.foldl_cons, ih]
    rfl

theorem update_eq (hash : Ghash) (data : Bytes) :
    hash.update data = ((Bytes.pieces 16 data).map .ofBytes).foldl step hash := by
  rw [update, List.foldl_map]
  rfl

/-- The value at a point of the polynomial with these blocks as its coefficients, the last one
that of the first power. -/
def evaluate (h : FieldElement) (bs : List FieldElement) : FieldElement :=
  ∑ i ∈ Finset.range bs.length, bs.getD i 0 * h ^ (bs.length - i)

/-- In terms of polynomials over the two-element field the value is reduced at the end. -/
theorem polynomial_evaluate (h : FieldElement) (bs : List FieldElement) :
    (evaluate h bs).polynomial = (∑ i ∈ Finset.range bs.length,
      (bs.getD i 0).polynomial * h.polynomial ^ (bs.length - i)) %ₘ FieldElement.modulus := by
  apply FieldElement.polynomial_eq_mod
  have hsum : FieldElement.residueHom (evaluate h bs) = ∑ i ∈ Finset.range bs.length,
      FieldElement.residueHom (bs.getD i 0) * FieldElement.residueHom h ^ (bs.length - i) := by
    simp only [evaluate, map_sum, map_mul, map_pow]
  simp only [map_sum, map_mul, map_pow]
  exact hsum

theorem finish_eq_evaluate (key : FixedBytes 16) (had : ad.length < 2 ^ 61)
    (hc : c.length < 2 ^ 61) :
    (((new key).update ad).update c).finish ad.length c.length =
      (evaluate (.ofBytes key.toList) (blocks ad c)).toBlock := by
  have hrun : (((new key).update ad).update c).step (lengthBlock ad.length c.length) =
      (blocks ad c).foldl step (new key) := by
    rw [blocks_eq had hc, List.foldl_append, List.foldl_append, update_eq, update_eq]
    rfl
  have hvalue := foldl_horner id (FieldElement.ofBytes key.toList) 0 (blocks ad c)
  rw [finish, hrun, foldl_step]
  exact congrArg FieldElement.toBlock hvalue

end Ghash

namespace Gcm

/-- The tag is the value of the polynomial of the blocks at the encrypted zero block, masked by
the encrypted first counter block. The blocks are the big-endian integers that make up the
string of both fields and their lengths, and two fields with the same blocks are the same. -/
theorem tag_eq_polynomial (key : FixedBytes 32) (nonce : FixedBytes 12) (ad c : Bytes)
    (had : ad.length < 2 ^ 61) (hc : c.length < 2 ^ 61) :
    let k := Key.ofBytes key
    let h := FieldElement.ofBytes (k.schedule.encrypt (FixedBytes.zero 16)).toList
    let x := Ghash.blocks ad c
    let value := ∑ i ∈ Finset.range x.length, x.getD i 0 * h ^ (x.length - i)
    tag k nonce ad c = value.toBlock.xor (k.schedule.encrypt (firstBlock nonce)) ∧
    value.polynomial = (∑ i ∈ Finset.range x.length,
      (x.getD i 0).polynomial * h.polynomial ^ (x.length - i)) %ₘ FieldElement.modulus ∧
    (x.flatMap fun b => Bytes.ofNatBE 16 b.bits.toNat) = Ghash.input ad c ∧
    ∀ ad' c' : Bytes, ad'.length < 2 ^ 61 → c'.length < 2 ^ 61 → Ghash.blocks ad' c' = x →
      ad' = ad ∧ c' = c := by
  intro k h x value
  refine ⟨?_, Ghash.polynomial_evaluate h x, Ghash.flatMap_blocks ad c, ?_⟩
  · have hmask : counterBlock nonce 1 = firstBlock nonce := rfl
    rw [tag, Ghash.finish_eq_evaluate k.hashKey had hc, hmask]
    rfl
  · intro ad' c' had' hc' hx
    have hinput := congrArg (List.flatMap fun b => Bytes.ofNatBE 16 b.bits.toNat) hx
    rw [Ghash.flatMap_blocks, Ghash.flatMap_blocks] at hinput
    exact Ghash.input_inj had' hc' had hc hinput

/-- A ciphertext of one byte gives two blocks, and the same with a zero behind it has other
lengths and so another last block. -/
theorem tag_eq_polynomial_of_one_byte :
    let k := Key.ofBytes (.zero 32)
    let h := FieldElement.ofBytes (k.schedule.encrypt (FixedBytes.zero 16)).toList
    ([] : Bytes).length < 2 ^ 61 ∧ ([7] : Bytes).length < 2 ^ 61 ∧
      tag k (.zero 12) [] [7] =
        (⟨0x0700000000000000, 0⟩ * h ^ 2 + ⟨0, 8⟩ * h : FieldElement).toBlock.xor
          (k.schedule.encrypt (firstBlock (.zero 12))) ∧
      Ghash.filled [7, 0] = Ghash.filled [7] ∧ Ghash.blocks [] [7, 0] ≠ Ghash.blocks [] [7] := by
  intro k h
  have hnone : ([] : Bytes).length < 2 ^ 61 := by decide
  have hbyte : ([7] : Bytes).length < 2 ^ 61 := by decide
  have hblocks : Ghash.blocks [] [7] = [⟨0x0700000000000000, 0⟩, ⟨0, 8⟩] := by decide
  obtain ⟨htag, -, -, hunique⟩ := tag_eq_polynomial (.zero 32) (.zero 12) [] [7] hnone hbyte
  refine ⟨hnone, hbyte, ?_, by decide, fun hsame => ?_⟩
  · simpa [hblocks, Finset.sum_range_succ] using htag
  · exact absurd (hunique [] [7, 0] (by decide) (by decide) hsame).2 (by decide)

end Gcm

end AuthEncryption
