import AuthEncryption.Proofs.Words
import AuthEncryption.Proofs.Keystream.Places

/-!
# The input of a block

A block is a function of the key and of sixteen bytes, its input: the block number and the
nonce, in the order of the family. The narrow layout differs in nothing but where the number
ends and the nonce begins. A subkey is made of the permuted square of its key and input, a
block of the same square with its start added, so the words of a subkey are words of a block
less the constants and the input.
-/
namespace AuthEncryption

/-- The lowest bytes of a number, the least significant one first. -/
def FixedBytes.ofNatLE (n value : Nat) : FixedBytes n :=
  ⟨Bytes.ofNatLE n value, Bytes.length_ofNatLE n value⟩

/-- The words of the block that a key and an input make. -/
def Family.blockWords (family : Family) (key : FixedBytes 32) (input : FixedBytes 16) :
    List UInt32 :=
  let start := family.square key input
  ((family.permute start).zipWith (· + ·) start).toList

namespace Cipher

/-! ## Numbers and nonces as inputs -/

section Inputs

variable (key : FixedBytes 32) (number : UInt64)

/-- The words of a block number that is written in eight bytes. -/
theorem readAt_number :
    Word.readAt (Bytes.ofNatLE 8 number.toNat) 0 = number.toUInt32 ∧
      Word.readAt (Bytes.ofNatLE 8 number.toNat) 4 = (number >>> 32).toUInt32 := by
  constructor
  · apply UInt32.toNat_inj.mp
    rw [Word.toNat_readAt_ofNatLE _ (by decide), UInt64.toNat_toUInt32, Nat.pow_zero, Nat.div_one]
  · apply UInt32.toNat_inj.mp
    rw [Word.toNat_readAt_ofNatLE _ (by decide), UInt64.toNat_toUInt32, UInt64.toNat_shiftRight,
      Nat.shiftRight_eq_div_pow]
    rfl

/-- The four words of two halves. -/
theorem readAt_halves (a b : FixedBytes 8) :
    Word.readAt (a.toList ++ b.toList) 0 = Word.readAt a.toList 0 ∧
      Word.readAt (a.toList ++ b.toList) 4 = Word.readAt a.toList 4 ∧
      Word.readAt (a.toList ++ b.toList) 8 = Word.readAt b.toList 0 ∧
      Word.readAt (a.toList ++ b.toList) 12 = Word.readAt b.toList 4 := by
  have hback := Word.readAt_append_right a.toList b.toList
  rw [a.length_toList] at hback
  exact ⟨Word.readAt_append_left _ (by simp), Word.readAt_append_left _ (by simp), hback 0, hback 4⟩

theorem numbered_chacha (nonce : FixedBytes 8) :
    (chacha key nonce).numbered number =
      Family.chacha.square key ((FixedBytes.ofNatLE 8 number.toNat).append nonce) := by
  have hput : (chacha key nonce).numbered number =
      ((Family.chacha.square key ((FixedBytes.zero 8).append nonce)).put 12 number.toUInt32).put 13
        (number >>> 32).toUInt32 := rfl
  obtain ⟨hlow, hhigh⟩ := readAt_number number
  obtain ⟨-, -, hzero8, hzero12⟩ := readAt_halves (.zero 8) nonce
  obtain ⟨h0, h4, h8, h12⟩ := readAt_halves (.ofNatLE 8 number.toNat) nonce
  rw [hput]
  simp only [Family.square, FixedBytes.toList_append, hzero8, hzero12, h0, h4, h8, h12]
  simp only [FixedBytes.ofNatLE, hlow, hhigh]
  rfl

theorem numbered_salsa (nonce : FixedBytes 8) :
    (salsa key nonce).numbered number =
      Family.salsa.square key (nonce.append (FixedBytes.ofNatLE 8 number.toNat)) := by
  have hput : (salsa key nonce).numbered number =
      ((Family.salsa.square key (nonce.append (FixedBytes.zero 8))).put 8 number.toUInt32).put 9
        (number >>> 32).toUInt32 := rfl
  obtain ⟨hlow, hhigh⟩ := readAt_number number
  obtain ⟨hzero0, hzero4, -, -⟩ := readAt_halves nonce (.zero 8)
  obtain ⟨h0, h4, h8, h12⟩ := readAt_halves nonce (.ofNatLE 8 number.toNat)
  rw [hput]
  simp only [Family.square, FixedBytes.toList_append, hzero0, hzero4, h0, h4, h8, h12]
  simp only [FixedBytes.ofNatLE, hlow, hhigh]
  rfl

/-- In the narrow layout four bytes of the number are followed by the nonce. -/
theorem numbered_ietf (nonce : FixedBytes 12) :
    (ietf key nonce).numbered number =
      Family.chacha.square key ((FixedBytes.ofNatLE 4 number.toNat).append nonce) := by
  have hput : (ietf key nonce).numbered number =
      (Family.chacha.square key ((FixedBytes.zero 4).append nonce)).put 12 number.toUInt32 := rfl
  have hlow : Word.readAt (Bytes.ofNatLE 4 number.toNat ++ nonce.toList) 0 = number.toUInt32 := by
    apply UInt32.toNat_inj.mp
    rw [Word.readAt_append_left _ (by simp), Word.toNat_readAt_ofNatLE _ (by decide),
      UInt64.toNat_toUInt32, Nat.pow_zero, Nat.div_one]
  have hzero := Word.readAt_append_right (Bytes.zeros 4) nonce.toList
  have hback := Word.readAt_append_right (Bytes.ofNatLE 4 number.toNat) nonce.toList
  rw [Bytes.length_zeros] at hzero
  rw [Bytes.length_ofNatLE] at hback
  rw [hput]
  simp only [Family.square, FixedBytes.toList_append, FixedBytes.toList_zero, FixedBytes.ofNatLE,
    hlow, hzero 0, hzero 4, hzero 8, hback 0, hback 4, hback 8]
  rfl

theorem block_of_numbered {c : Cipher} {input : FixedBytes 16}
    (h : c.numbered number = c.family.square key input) :
    c.block number = Word.bytes (c.family.blockWords key input) := by
  simp only [block, Family.blockWords, h]

end Inputs

/-! ## Moving to a block -/

/-- The next bytes behind a move to a block. -/
def keystreamFrom (number : UInt64) (count : Nat) : Step Bytes := do
  seek number
  keystream count

/-- A move to a block that exists, and what comes next, as long as there are blocks. -/
theorem runOn_keystreamFrom {c : Cipher} {number : UInt64} {count : Nat}
    (hnumber : c.narrow = true → number.toNat < UInt32.size) (h : c.Within number count) :
    ((keystreamFrom number count).runOn c).1 = .ok (c.stretch number 0 count) := by
  obtain ⟨moved, hmoved⟩ : ∃ d : Cipher, d = { c with nextBlock := number, pending := [] } :=
    ⟨_, rfl⟩
  have hnarrow : moved.narrow = c.narrow := by rw [hmoved]
  have hseek : (seek number).runOn c = (.ok (), moved) := by
    rw [runOn_seek, hmoved, if_neg]
    intro hbeyond
    obtain ⟨hlayout, hlast⟩ := Bool.and_eq_true_iff.mp hbeyond
    have hlt : lastNarrowBlock.toNat < number.toNat :=
      UInt64.lt_iff_toNat_lt.mp (of_decide_eq_true hlast)
    exact absurd (hnumber hlayout) (Nat.not_lt_of_le hlt)
  have hstands : moved.StandsAt number 0 :=
    standsAt_block (by rw [hmoved]) (by rw [hmoved]) fun hlayout =>
      Nat.le_of_lt (hnumber (hnarrow ▸ hlayout))
  have hwithin : moved.Within number (0 + count) := by
    rw [Within, hnarrow, Nat.zero_add]
    exact h
  have hstretch : moved.stretch number 0 count = c.stretch number 0 count := by rw [hmoved]; rfl
  rw [keystreamFrom, Step.runOn_bind, hseek, ← hstretch]
  exact hstands.runOn_keystream_iff.mpr ⟨hwithin, rfl⟩

theorem runOn_keystreamFrom_of_wide {c : Cipher} (h : c.narrow = false) (number : UInt64)
    (count : Nat) : ((keystreamFrom number count).runOn c).1 = .ok (c.stretch number 0 count) :=
  runOn_keystreamFrom (fun hnarrow => absurd (h ▸ hnarrow) Bool.false_ne_true)
    (within_of_wide h number count)

/-- The first 64 bytes from a block on are the block. -/
theorem stretch_first_block (c : Cipher) (number : UInt64) :
    c.stretch number 0 64 = c.block number := by
  have hblock : c.stretch number 0 64 = c.block (number + 0) := c.stretch_block number 0
  rw [hblock, UInt64.add_zero]

end Cipher

namespace Family

/-! ## Subkeys -/

variable (family : Family) (key : FixedBytes 32) (input : FixedBytes 16)

/-- The words of the start whose places a subkey is read from: the constants and the input. -/
theorem start_subkeyPositions :
    family.subkeyPositions.map (family.square key input).get =
      Word.words sigma ++ Word.words input.toList := by
  have hinput : Word.words input.toList = [Word.readAt input.toList 0, Word.readAt input.toList 4,
      Word.readAt input.toList 8, Word.readAt input.toList 12] := by
    rw [Word.words_eq, input.length_toList]
    rfl
  rw [words_sigma, hinput]
  cases family <;> rfl

/-- A subkey is read from the block of the same input, once the start is taken away. -/
theorem words_subkey :
    Word.words (family.subkey key input).toList =
      List.zipWith (· - ·)
        (family.subkeyPositions.map fun p => (family.blockWords key input).getD p.val 0)
        (Word.words sigma ++ Word.words input.toList) := by
  obtain ⟨start, hstart⟩ : ∃ s, s = family.square key input := ⟨_, rfl⟩
  have hsubkey : (family.subkey key input).toList =
      Word.bytes (family.subkeyPositions.map (family.permute start).get) := by
    rw [hstart]
    rfl
  have hword : ∀ p : Fin 16, (family.blockWords key input).getD p.val 0 =
      (family.permute start).get p + start.get p := fun p => by
    have hsum : (family.blockWords key input).getD p.val 0 =
        (family.permute start)[p.val] + start[p.val] := by simp [blockWords, ← hstart]
    exact hsum
  rw [hsubkey, Word.words_bytes, ← start_subkeyPositions, ← hstart, List.zipWith_map,
    List.zipWith_self]
  refine List.map_congr_left fun p _ => ?_
  rw [hword, UInt32.add_sub_cancel]

/-- A subkey is the block of its input without the start that is added to a block. With the
block number in front of the nonce it is read from the first and the last row of a ChaCha20
block, with the number behind it from eight places of a Salsa20 block; taken away from these
words are the constants and the four words of the input. -/
theorem subkey_eq_block_less_start (nonce : FixedBytes 8) (number : UInt64) :
    let count := FixedBytes.ofNatLE 8 number.toNat
    (∃ block, ((Cipher.keystreamFrom number 64).runOn (Cipher.chacha key nonce)).1 = .ok block ∧
      Word.words (chacha.subkey key (count.append nonce)).toList =
        List.zipWith (· - ·)
          ([0, 1, 2, 3, 12, 13, 14, 15].map fun i => (Word.words block).getD i 0)
          (Word.words sigma ++ Word.words (count.toList ++ nonce.toList))) ∧
    (∃ block, ((Cipher.keystreamFrom number 64).runOn (Cipher.salsa key nonce)).1 = .ok block ∧
      Word.words (salsa.subkey key (nonce.append count)).toList =
        List.zipWith (· - ·)
          ([0, 5, 10, 15, 6, 7, 8, 9].map fun i => (Word.words block).getD i 0)
          (Word.words sigma ++ Word.words (nonce.toList ++ count.toList))) := by
  intro count
  have hchacha : (Cipher.chacha key nonce).block number =
      Word.bytes (chacha.blockWords key (count.append nonce)) :=
    Cipher.block_of_numbered key number (Cipher.numbered_chacha key number nonce)
  have hsalsa : (Cipher.salsa key nonce).block number =
      Word.bytes (salsa.blockWords key (nonce.append count)) :=
    Cipher.block_of_numbered key number (Cipher.numbered_salsa key number nonce)
  refine ⟨⟨_, Cipher.runOn_keystreamFrom_of_wide rfl number 64, ?_⟩,
    ⟨_, Cipher.runOn_keystreamFrom_of_wide rfl number 64, ?_⟩⟩
  · rw [Cipher.stretch_first_block, hchacha, Word.words_bytes, words_subkey]
    rfl
  · rw [Cipher.stretch_first_block, hsalsa, Word.words_bytes, words_subkey]
    rfl

end Family

end AuthEncryption
