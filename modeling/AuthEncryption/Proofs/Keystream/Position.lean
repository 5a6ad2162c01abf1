import AuthEncryption.Proofs.ByteStrings
import AuthEncryption.Cipher.Keystream

/-!
# One continuous keystream

The keystream from a block on is one string of bytes, the blocks one after the other.
A cipher that has handed out some of it is *positioned*: its block number and its
pending bytes are functions of how much was used. `draw_positioned` says that a
positioned cipher hands out the bytes that come next and is positioned behind them.
The narrow layout ends; a draw beyond the end takes what is left.
-/
namespace AuthEncryption.Cipher

/-! ## The keystream of a cipher -/

/-- Byte `i` of the keystream from block `first` on. -/
def keystreamByte (c : Cipher) (first : UInt64) (i : Nat) : UInt8 :=
  (c.block (first + UInt64.ofNat (i / 64))).getD (i % 64) 0

/-- The `len` bytes from byte `offset` of the keystream from block `first` on. -/
def stretch (c : Cipher) (first : UInt64) (offset len : Nat) : Bytes :=
  (List.range' offset len).map (c.keystreamByte first)

@[simp] theorem length_stretch (c : Cipher) (first : UInt64) (offset len : Nat) :
    (c.stretch first offset len).length = len := by
  simp [stretch]

@[simp] theorem stretch_zero (c : Cipher) (first : UInt64) (offset : Nat) :
    c.stretch first offset 0 = [] := rfl

theorem stretch_add (c : Cipher) (first : UInt64) (offset m n : Nat) :
    c.stretch first offset (m + n) = c.stretch first offset m ++ c.stretch first (offset + m) n := by
  rw [stretch, stretch, stretch, ← List.map_append, List.range'_append_1]

theorem take_stretch (c : Cipher) (first : UInt64) (offset : Nat) {m n : Nat} (h : m ≤ n) :
    (c.stretch first offset n).take m = c.stretch first offset m := by
  obtain ⟨k, rfl⟩ := Nat.exists_eq_add_of_le h
  rw [stretch_add, List.take_left' (length_stretch ..)]

theorem drop_stretch (c : Cipher) (first : UInt64) (offset : Nat) {m n : Nat} (h : m ≤ n) :
    (c.stretch first offset n).drop m = c.stretch first (offset + m) (n - m) := by
  obtain ⟨k, rfl⟩ := Nat.exists_eq_add_of_le h
  rw [stretch_add, List.drop_left' (length_stretch ..), Nat.add_sub_cancel_left]

/-- A stretch that begins and ends at block boundaries is a block. -/
theorem stretch_block (c : Cipher) (first : UInt64) (k : Nat) :
    c.stretch first (64 * k) 64 = c.block (first + UInt64.ofNat k) := by
  apply List.ext_getElem
  · simp
  · intro i hi _
    have hi64 : i < 64 := by simpa using hi
    have hdiv : (64 * k + i) / 64 = k := by omega
    have hmod : (64 * k + i) % 64 = i := by omega
    simp [stretch, keystreamByte, hdiv, hmod, hi64]

/-- Whether `total` bytes of the keystream from block `first` on exist: the narrow
layout has no block after number `2^32 - 1`. -/
def Within (c : Cipher) (first : UInt64) (total : Nat) : Prop :=
  c.narrow = true → total ≤ 64 * (UInt32.size - first.toNat)

theorem Within.mono {c : Cipher} {first : UInt64} {m n : Nat} (h : c.Within first n)
    (hmn : m ≤ n) : c.Within first m :=
  fun hnarrow => Nat.le_trans hmn (h hnarrow)

/-- How much of the keystream from block `first` on calls for `total` bytes get. -/
def reached (c : Cipher) (first : UInt64) (total : Nat) : Nat :=
  if c.narrow then min total (64 * (UInt32.size - first.toNat)) else total

theorem reached_le (c : Cipher) (first : UInt64) (total : Nat) : c.reached first total ≤ total := by
  unfold reached
  split <;> omega

theorem reached_of_within {c : Cipher} {first : UInt64} {total : Nat} (h : c.Within first total) :
    c.reached first total = total := by
  unfold reached
  split
  · exact Nat.min_eq_left (h ‹_›)
  · rfl

theorem within_reached (c : Cipher) (first : UInt64) (total : Nat) :
    c.Within first (c.reached first total) := by
  intro hnarrow
  rw [reached, if_pos hnarrow]
  exact Nat.min_le_right ..

theorem reached_lt_iff {c : Cipher} {first : UInt64} {total : Nat} :
    c.reached first total < total ↔ ¬ c.Within first total := by
  unfold reached Within
  cases c.narrow with
  | false => simp
  | true => simp only [if_true, forall_const]; omega

theorem le_reached {c : Cipher} {first : UInt64} {m n : Nat} (h : c.Within first m) (hmn : m ≤ n) :
    m ≤ c.reached first n := by
  unfold reached
  split
  · exact Nat.le_min.mpr ⟨hmn, h ‹_›⟩
  · exact hmn

/-- Calls that come later get their bytes from what the earlier ones left. -/
theorem reached_reached_add (c : Cipher) (first : UInt64) (m n : Nat) :
    c.reached first (c.reached first m + n) = c.reached first (m + n) := by
  unfold reached
  split <;> omega

/-! ## Positions -/

/-- The cipher after `used` bytes of the keystream from block `first` on. -/
def positioned (c : Cipher) (first : UInt64) (used : Nat) : Cipher :=
  { c with
    nextBlock := first + UInt64.ofNat ((used + 63) / 64)
    pending := c.stretch first used (64 * ((used + 63) / 64) - used) }

section Positioned

variable (c : Cipher) (first : UInt64) (used : Nat)

@[simp] theorem narrow_positioned : (c.positioned first used).narrow = c.narrow := rfl

theorem nextBlock_positioned :
    (c.positioned first used).nextBlock = first + UInt64.ofNat ((used + 63) / 64) := rfl

theorem length_pending_positioned :
    (c.positioned first used).pending.length = 64 * ((used + 63) / 64) - used :=
  length_stretch ..

/-- At a block boundary nothing is pending. -/
theorem positioned_block (k : Nat) :
    c.positioned first (64 * k) =
      { c with nextBlock := first + UInt64.ofNat k, pending := [] } := by
  have hblocks : (64 * k + 63) / 64 = k := by omega
  rw [positioned, hblocks, Nat.sub_self, stretch_zero]

end Positioned

/-- A cipher with nothing pending is at the start of the keystream from its next block. -/
theorem positioned_zero {c : Cipher} {first : UInt64} (hnext : c.nextBlock = first)
    (hpending : c.pending = []) : c.positioned first 0 = c := by
  rw [← Nat.mul_zero 64, positioned_block]
  cases c
  simp_all

/-! ## Drawing -/

theorem generate_add (m n : Nat) (c : Cipher) :
    generate (m + n) c =
      ((generate m c).1 ++ (generate n (generate m c).2).1, (generate n (generate m c).2).2) := by
  induction m generalizing c with
  | zero => simp [generate]
  | succ m ih =>
    rw [Nat.succ_add, generate, generate]
    split
    · cases n <;> simp_all [generate]
    · rw [ih]
      simp

theorem generate_of_exhausted {c : Cipher} (h : c.exhausted = true) (n : Nat) :
    generate n c = ([], c) := by
  cases n <;> simp [generate, h]

/-- Bytes that wait from earlier do not matter for new blocks. -/
theorem generate_pending (count : Nat) (c : Cipher) (waiting : Bytes) :
    generate count { c with pending := waiting } =
      ((generate count c).1, { (generate count c).2 with pending := waiting }) := by
  induction count generalizing c with
  | zero => rfl
  | succ count ih =>
    have hsame : ({ c with pending := waiting } : Cipher).exhausted = c.exhausted := rfl
    rw [generate, generate, hsame]
    split
    · rfl
    · rw [ih { c with nextBlock := c.nextBlock + 1 }]
      rfl

/-- Block by block, as long as there are blocks. -/
theorem generate_positioned {c : Cipher} {first : UInt64} {k count : Nat}
    (h : c.Within first (64 * (k + count))) :
    generate count (c.positioned first (64 * k)) =
      (c.stretch first (64 * k) (64 * count), c.positioned first (64 * (k + count))) := by
  induction count generalizing k with
  | zero => rfl
  | succ count ih =>
    have hblock : c.Within first (64 * (k + 1)) := h.mono (by omega)
    have hopen : (c.positioned first (64 * k)).exhausted = false := by
      rw [exhausted, narrow_positioned, positioned_block]
      cases hnarrow : c.narrow with
      | false => rfl
      | true =>
        have hlimit := hblock hnarrow
        have hfirst := first.toNat_lt
        simp only [UInt32.size] at hlimit
        simp only [Bool.true_and, decide_eq_false_iff_not, UInt64.lt_iff_toNat_lt,
          UInt64.toNat_add, UInt64.toNat_ofNat', lastNarrowBlock]
        show ¬ 4294967295 < _
        omega
    have hnext : { c.positioned first (64 * k) with
        nextBlock := (c.positioned first (64 * k)).nextBlock + 1 } =
          c.positioned first (64 * (k + 1)) := by
      rw [positioned_block, positioned_block, UInt64.ofNat_add, UInt64.add_assoc]
      rfl
    have hrest := ih (k := k + 1) (h.mono (by omega))
    rw [generate, hopen, if_neg Bool.false_ne_true, hnext, hrest]
    simp only [Prod.mk.injEq]
    constructor
    · rw [Nat.mul_add 64 count, Nat.add_comm (64 * count), stretch_add, stretch_block,
        positioned_block]
      rfl
    · congr 2
      omega

/-- The last position of the narrow layout is the end of its last block. -/
theorem exhausted_positioned {c : Cipher} {first : UInt64} (hnarrow : c.narrow = true)
    (hfirst : first.toNat ≤ UInt32.size) :
    (c.positioned first (64 * (UInt32.size - first.toNat))).exhausted = true := by
  rw [exhausted, narrow_positioned, positioned_block, hnarrow, Bool.true_and, decide_eq_true_iff,
    UInt64.lt_iff_toNat_lt, UInt64.toNat_add, UInt64.toNat_ofNat']
  simp only [UInt32.size] at hfirst ⊢
  show 4294967295 < _
  omega

/-- The next block number of the narrow layout never passes `2^32`. -/
theorem toNat_nextBlock_positioned {c : Cipher} {first : UInt64} {used : Nat}
    (hnarrow : c.narrow = true) (hfirst : first.toNat ≤ UInt32.size) (h : c.Within first used) :
    (c.positioned first used).nextBlock.toNat = first.toNat + (used + 63) / 64 ∧
      first.toNat + (used + 63) / 64 ≤ UInt32.size := by
  have hlimit := h hnarrow
  rw [nextBlock_positioned, UInt64.toNat_add, UInt64.toNat_ofNat']
  simp only [UInt32.size] at hfirst hlimit ⊢
  omega

/-- As many blocks as there are, when more are asked for. -/
theorem generate_to_end {c : Cipher} {first : UInt64} {k m count : Nat} (hnarrow : c.narrow = true)
    (hfirst : first.toNat ≤ UInt32.size) (hblocks : k + m = UInt32.size - first.toNat)
    (hcount : m ≤ count) :
    generate count (c.positioned first (64 * k)) =
      (c.stretch first (64 * k) (64 * m), c.positioned first (64 * (k + m))) := by
  obtain ⟨more, rfl⟩ := Nat.exists_eq_add_of_le hcount
  have hthere : c.Within first (64 * (k + m)) := fun _ => by omega
  have hend := exhausted_positioned hnarrow hfirst
  rw [← hblocks] at hend
  rw [generate_add, generate_positioned hthere, generate_of_exhausted hend, List.append_nil]

/-- A draw in terms of the blocks it produces: all that is there before the end of the
last of them is ready, and what is not taken waits. -/
theorem draw_of_generate {c : Cipher} {first : UInt64} {used n count : Nat}
    (h : generate ((n - (64 * ((used + 63) / 64) - used) + 63) / 64)
        (c.positioned first (64 * ((used + 63) / 64))) =
      (c.stretch first (64 * ((used + 63) / 64)) (64 * count),
        c.positioned first (64 * ((used + 63) / 64 + count)))) :
    (c.positioned first used).draw n =
      ((c.stretch first used (64 * ((used + 63) / 64 + count) - used)).take n,
        { c.positioned first (64 * ((used + 63) / 64 + count)) with
          pending := (c.stretch first used (64 * ((used + 63) / 64 + count) - used)).drop n }) := by
  have hsplit : 64 * ((used + 63) / 64 + count) - used =
      (64 * ((used + 63) / 64) - used) + 64 * count := by omega
  have hfresh : used + (64 * ((used + 63) / 64) - used) = 64 * ((used + 63) / 64) := by omega
  have hpending : c.positioned first used =
      { c.positioned first (64 * ((used + 63) / 64)) with
        pending := c.stretch first used (64 * ((used + 63) / 64) - used) } := by
    rw [positioned_block, positioned]
  rw [draw, length_pending_positioned, hpending, generate_pending, h, hsplit, stretch_add, hfresh]

/-- A positioned cipher hands out the bytes that come next, as far as there are any,
and is positioned behind them. -/
theorem draw_positioned {c : Cipher} {first : UInt64} {used : Nat}
    (hfirst : c.narrow = true → first.toNat ≤ UInt32.size) (hused : c.Within first used) (n : Nat) :
    (c.positioned first used).draw n =
      (c.stretch first used (c.reached first (used + n) - used),
        c.positioned first (c.reached first (used + n))) := by
  by_cases hall : c.Within first (used + n)
  · have hblocks : (used + 63) / 64 + (n - (64 * ((used + 63) / 64) - used) + 63) / 64 =
        (used + n + 63) / 64 := by omega
    have hthere : c.Within first (64 * ((used + 63) / 64 +
        (n - (64 * ((used + 63) / 64) - used) + 63) / 64)) := by
      intro hnarrow
      have hlimit := hall hnarrow
      omega
    rw [draw_of_generate (generate_positioned hthere), hblocks, reached_of_within hall,
      take_stretch _ _ _ (by omega), drop_stretch _ _ _ (by omega), positioned_block,
      Nat.add_sub_cancel_left, positioned, Nat.sub_sub]
  · have hnarrow : c.narrow = true := by
      by_contra hwide
      exact hall fun h => absurd h hwide
    have hlimit := hused hnarrow
    have hover : 64 * (UInt32.size - first.toNat) < used + n := by
      by_contra hle
      exact hall fun _ => by omega
    have hreached : c.reached first (used + n) = 64 * (UInt32.size - first.toNat) := by
      rw [reached, if_pos hnarrow]
      omega
    obtain ⟨m, hm⟩ := Nat.exists_eq_add_of_le
      (show (used + 63) / 64 ≤ UInt32.size - first.toNat by omega)
    rw [draw_of_generate (generate_to_end hnarrow (hfirst hnarrow) hm.symm (by omega)), hreached, hm,
      List.take_of_length_le (by rw [length_stretch]; omega),
      List.drop_of_length_le (by rw [length_stretch]; omega), positioned_block]

/-! ## Masking -/

section Masking

variable {c : Cipher} {first : UInt64} {used : Nat}
  (hfirst : c.narrow = true → first.toNat ≤ UInt32.size) (hused : c.Within first used)
include hfirst hused

/-- Masking reaches as far as there is keystream. -/
theorem mask_positioned (data : Bytes) :
    (c.positioned first used).mask data =
      { data := Bytes.xorFront data
          (c.stretch first used (c.reached first (used + data.length) - used))
        cipher := c.positioned first (c.reached first (used + data.length))
        complete := data.length ≤ c.reached first (used + data.length) - used } := by
  rw [mask, draw_positioned hfirst hused]
  simp

omit hused in
theorem mask_within {data : Bytes} (h : c.Within first (used + data.length)) :
    (c.positioned first used).mask data =
      { data := Bytes.xor data (c.stretch first used data.length)
        cipher := c.positioned first (used + data.length)
        complete := true } := by
  rw [mask_positioned hfirst (h.mono (Nat.le_add_right ..)), reached_of_within h,
    Nat.add_sub_cancel_left, Bytes.xorFront_eq_xor (length_stretch ..)]
  simp

theorem complete_mask_beyond {data : Bytes} (h : ¬ c.Within first (used + data.length)) :
    ((c.positioned first used).mask data).complete = false := by
  have hless := reached_lt_iff.mpr h
  have hkeep := le_reached hused (Nat.le_add_right used data.length)
  have hstuck : ¬ data.length ≤ c.reached first (used + data.length) - used := by omega
  rw [mask_positioned hfirst hused]
  exact decide_eq_false hstuck

end Masking

end AuthEncryption.Cipher
