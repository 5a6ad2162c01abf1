import AuthEncryption.Bytes.Fixed
import Mathlib.Tactic

/-!
# Laws of byte strings

Masking twice with one keystream gives the string back, the comparison without an
early exit is equality, and a length of eight bytes can be read back. The last part
follows the cutting of a string into full pieces across a concatenation: cutting what
the first part left over, followed by the second part, continues the cutting. Cutting all
of a string adds what the full pieces leave over.
-/
namespace AuthEncryption

/-- A string that is long enough ends in a string of a known length. -/
theorem FixedBytes.exists_append {n : Nat} {bs : Bytes} (h : n ≤ bs.length) :
    ∃ (front : Bytes) (back : FixedBytes n), bs = front ++ back.toList := by
  have hlen : (bs.drop (bs.length - n)).length = n := by
    rw [List.length_drop]
    omega
  exact ⟨bs.take (bs.length - n), ⟨_, hlen⟩, (List.take_append_drop ..).symm⟩

/-- A string that is long enough begins with a string of a known length. -/
theorem FixedBytes.exists_prepend {n : Nat} {bs : Bytes} (h : n ≤ bs.length) :
    ∃ (front : FixedBytes n) (back : Bytes), bs = front.toList ++ back :=
  ⟨⟨bs.take n, List.length_take_of_le h⟩, bs.drop n, (List.take_append_drop ..).symm⟩

/-- A string that is not empty has a first byte. -/
theorem FixedBytes.toList_eq_cons {n : Nat} (a : FixedBytes (n + 1)) :
    a.toList = a.get 0 :: a.toList.drop 1 := by
  obtain ⟨bytes, hlength⟩ := a
  cases bytes with
  | nil => cases hlength
  | cons b rest => rfl

namespace Bytes

/-! ## Zeros -/

@[simp] theorem take_zeros (n : Nat) : (zeros n).take n = zeros n :=
  List.take_of_length_le (Nat.le_of_eq (length_zeros n))

@[simp] theorem drop_zeros (n : Nat) : (zeros n).drop n = [] :=
  List.drop_of_length_le (Nat.le_of_eq (length_zeros n))

/-! ## Exclusive or -/

theorem xor_xor_cancel {data mask : Bytes} (h : data.length ≤ mask.length) :
    xor (xor data mask) mask = data := by
  induction data generalizing mask with
  | nil => rfl
  | cons d data ih =>
    cases mask with
    | nil => simp at h
    | cons m mask =>
      have hd : (d ^^^ m) ^^^ m = d := by rw [UInt8.xor_assoc, UInt8.xor_self, UInt8.xor_zero]
      have htail := ih (by simpa using h)
      simp only [xor, List.zipWith_cons_cons] at htail ⊢
      rw [hd, htail]

theorem zeros_xor {n : Nat} {mask : Bytes} (h : mask.length = n) : xor (zeros n) mask = mask := by
  subst h
  induction mask with
  | nil => rfl
  | cons m mask ih =>
    simp only [xor, zeros, List.length_cons, List.replicate_succ, List.zipWith_cons_cons] at ih ⊢
    rw [ih, UInt8.zero_xor]

/-- The two parts of a mask act on the two parts of the string. -/
theorem xor_append_right (data a b : Bytes) :
    xor data (a ++ b) = xor (data.take a.length) a ++ xor (data.drop a.length) b := by
  induction a generalizing data with
  | nil => simp [xor]
  | cons x a ih =>
    cases data with
    | nil => simp [xor]
    | cons d data => simpa [xor] using ih data

theorem xorFront_eq_xor {data mask : Bytes} (h : mask.length = data.length) :
    xorFront data mask = xor data mask := by
  rw [xorFront, h, List.drop_length, List.append_nil]

/-! ## Comparison -/

theorem foldl_or_eq_zero_iff (bs : Bytes) (acc : UInt8) :
    bs.foldl (· ||| ·) acc = 0 ↔ acc = 0 ∧ ∀ b ∈ bs, b = 0 := by
  induction bs generalizing acc with
  | nil => simp
  | cons b bs ih =>
    rw [List.foldl_cons, ih, UInt8.or_eq_zero_iff]
    simp only [List.forall_mem_cons, and_assoc]

theorem difference_eq_zero_iff {a b : Bytes} (h : a.length = b.length) :
    difference a b = 0 ↔ a = b := by
  rw [difference, foldl_or_eq_zero_iff, and_iff_right rfl]
  induction a generalizing b with
  | nil => simp [List.eq_nil_of_length_eq_zero h.symm, xor]
  | cons x a ih =>
    cases b with
    | nil => simp at h
    | cons y b =>
      have htail := ih (b := b) (by simpa using h)
      simp only [xor, List.zipWith_cons_cons, List.forall_mem_cons, List.cons.injEq] at htail ⊢
      rw [htail, UInt8.xor_eq_zero_iff]

/-- The comparison that looks at every byte is equality. -/
@[simp] theorem sameBytes_iff (a b : Bytes) : sameBytes a b = true ↔ a = b := by
  simp only [sameBytes, Bool.and_eq_true, beq_iff_eq]
  constructor
  · rintro ⟨hlen, hdiff⟩
    exact (difference_eq_zero_iff hlen).mp hdiff
  · rintro rfl
    exact ⟨rfl, (difference_eq_zero_iff rfl).mpr rfl⟩

/-! ## Lengths as bytes -/

theorem toNatLE_ofNatLE (width value : Nat) :
    toNatLE (ofNatLE width value) = value % 256 ^ width := by
  induction width generalizing value with
  | zero => simp [ofNatLE, toNatLE, Nat.mod_one]
  | succ width ih =>
    have hrest := ih (value / 256)
    simp only [toNatLE] at hrest
    simp only [ofNatLE, toNatLE, List.foldr_cons, hrest, UInt8.toNat_ofNat']
    rw [Nat.pow_succ' (m := 256)]
    exact Nat.mod_mul.symm

theorem le64_inj {m n : Nat} (hm : m < UInt64.size) (hn : n < UInt64.size)
    (h : le64 m = le64 n) : m = n := by
  have hsize : 256 ^ 8 = UInt64.size := by decide
  have hvalue := congrArg toNatLE h
  simp only [le64, toNatLE_ofNatLE, hsize] at hvalue
  rwa [Nat.mod_eq_of_lt hm, Nat.mod_eq_of_lt hn] at hvalue

/-! ## Fronts -/

/-- A front of a string, and not all of it. -/
structure ShortOf (front whole : Bytes) : Prop where
  isFront : front <+: whole
  ne : front ≠ whole

namespace ShortOf

variable {front whole : Bytes}

theorem length_lt (h : ShortOf front whole) : front.length < whole.length :=
  Nat.lt_of_le_of_ne h.isFront.length_le fun heq => h.ne (h.isFront.eq_of_length heq)

theorem of_ne_nil (h : whole ≠ []) : ShortOf [] whole := ⟨List.nil_prefix, h.symm⟩

theorem append (h : ShortOf front whole) (rest : Bytes) : ShortOf front (whole ++ rest) where
  isFront := h.isFront.trans (List.prefix_append whole rest)
  ne heq := by
    have hlt := h.length_lt
    rw [heq, List.length_append] at hlt
    omega

theorem append_left (h : ShortOf front whole) (before : Bytes) :
    ShortOf (before ++ front) (before ++ whole) where
  isFront := (List.prefix_append_right_inj before).mpr h.isFront
  ne heq := h.ne (List.append_cancel_left heq)

/-- A string cut short ends within its first part, or behind that within the second one. -/
theorem cases {rest : Bytes} (h : ShortOf front (whole ++ rest)) :
    ShortOf front whole ∨ ∃ more, front = whole ++ more ∧ ShortOf more rest := by
  rcases List.prefix_or_prefix_of_prefix h.isFront (List.prefix_append whole rest) with
    hwithin | ⟨more, rfl⟩
  · by_cases heq : front = whole
    · subst heq
      refine Or.inr ⟨[], (List.append_nil _).symm, of_ne_nil ?_⟩
      rintro rfl
      exact h.ne (List.append_nil _).symm
    · exact Or.inl ⟨hwithin, heq⟩
  · refine Or.inr ⟨more, rfl, (List.prefix_append_right_inj whole).mp h.isFront, ?_⟩
    rintro rfl
    exact h.ne rfl

end ShortOf

/-- Padding is part of a block of zeros. -/
theorem pad16_lt (n : Nat) : pad16 n < 16 := Nat.mod_lt _ (by decide)

/-- A field at the end whose length is known can be taken off with its padding. -/
theorem append_padded_inj {a b x y : Bytes} (hlen : x.length = y.length)
    (h : a ++ x ++ zeros (pad16 x.length) = b ++ y ++ zeros (pad16 y.length)) :
    a = b ∧ x = y := by
  obtain ⟨hfields, -⟩ := List.append_inj' h (by rw [hlen])
  exact List.append_inj' hfields hlen

/-! ## Full pieces -/

@[simp] theorem length_takePieces (n count : Nat) (bs : Bytes) :
    (takePieces n count bs).length = count := by
  induction count generalizing bs with
  | zero => rfl
  | succ count ih => rw [takePieces, List.length_cons, ih]

/-- The pieces of a string by their places. -/
theorem takePieces_eq_map (n count : Nat) (bs : Bytes) :
    takePieces n count bs = (List.range count).map fun i => (bs.drop (i * n)).take n := by
  induction count generalizing bs with
  | zero => rfl
  | succ count ih =>
    rw [takePieces, ih, List.range_succ_eq_map, List.map_cons, List.map_map, Nat.zero_mul,
      List.drop_zero]
    congr 1
    refine List.map_congr_left fun i _ => ?_
    rw [List.drop_drop, Function.comp_apply, Nat.succ_mul, Nat.add_comm]

theorem takePieces_add (n i j : Nat) (bs : Bytes) :
    takePieces n (i + j) bs = takePieces n i bs ++ takePieces n j (bs.drop (n * i)) := by
  induction i generalizing bs with
  | zero => simp [takePieces]
  | succ i ih =>
    rw [Nat.succ_add, takePieces, takePieces, ih, List.drop_drop, List.cons_append,
      Nat.mul_succ, Nat.add_comm n]

/-- Pieces that lie inside the first part do not see the second one. -/
theorem takePieces_append {n count : Nat} {a : Bytes} (b : Bytes) (h : n * count ≤ a.length) :
    takePieces n count (a ++ b) = takePieces n count a := by
  induction count generalizing a with
  | zero => rfl
  | succ count ih =>
    have hn : n ≤ a.length := by rw [Nat.mul_succ] at h; omega
    have hrest : n * count ≤ (a.drop n).length := by
      rw [Nat.mul_succ] at h
      rw [List.length_drop]
      omega
    rw [takePieces, takePieces, List.take_append_of_le_length hn,
      List.drop_append_of_le_length hn, ih hrest]

theorem flatten_takePieces (n count : Nat) (bs : Bytes) :
    (takePieces n count bs).flatten = bs.take (n * count) := by
  induction count generalizing bs with
  | zero => rfl
  | succ count ih =>
    rw [takePieces, List.flatten_cons, ih, Nat.mul_succ, Nat.add_comm, List.take_add]

variable {n : Nat}

/-- Cutting loses nothing. -/
theorem flatten_fullPieces (bs : Bytes) : (fullPieces n bs).flatten ++ leftover n bs = bs := by
  rw [fullPieces, flatten_takePieces, leftover, List.take_append_drop]

theorem length_leftover (bs : Bytes) : (leftover n bs).length = bs.length % n := by
  rw [leftover, List.length_drop, Nat.mod_def]

/-- How many full pieces a concatenation has: those of the first part, and those of
what it left over together with the second part. -/
theorem count_append (hn : 0 < n) (a b : Bytes) :
    (a ++ b).length / n = a.length / n + (leftover n a ++ b).length / n := by
  have hsplit := Nat.div_add_mod a.length n
  calc (a ++ b).length / n = (a.length % n + b.length + n * (a.length / n)) / n := by
        rw [List.length_append]
        congr 1
        omega
    _ = a.length / n + (leftover n a ++ b).length / n := by
        rw [Nat.add_mul_div_left _ _ hn, List.length_append, length_leftover, Nat.add_comm]

theorem drop_append_leftover (a b : Bytes) :
    (a ++ b).drop (n * (a.length / n)) = leftover n a ++ b := by
  rw [List.drop_append_of_le_length (Nat.mul_div_le _ _), leftover]

theorem fullPieces_append (hn : 0 < n) (a b : Bytes) :
    fullPieces n (a ++ b) = fullPieces n a ++ fullPieces n (leftover n a ++ b) := by
  rw [fullPieces, count_append hn, takePieces_add, takePieces_append b (Nat.mul_div_le _ _),
    drop_append_leftover]
  rfl

theorem leftover_append (hn : 0 < n) (a b : Bytes) :
    leftover n (a ++ b) = leftover n (leftover n a ++ b) := by
  rw [leftover, count_append hn, Nat.mul_add, ← List.drop_drop, drop_append_leftover]
  rfl

theorem length_of_mem_takePieces {count : Nat} {bs piece : Bytes} (h : n * count ≤ bs.length)
    (hmem : piece ∈ takePieces n count bs) : piece.length = n := by
  induction count generalizing bs with
  | zero => cases hmem
  | succ count ih =>
    rw [Nat.mul_succ] at h
    rw [takePieces, List.mem_cons] at hmem
    rcases hmem with rfl | hmem
    · rw [List.length_take_of_le (by omega)]
    · exact ih (by rw [List.length_drop]; omega) hmem

theorem length_of_mem_fullPieces {bs piece : Bytes} (hmem : piece ∈ fullPieces n bs) :
    piece.length = n :=
  length_of_mem_takePieces (Nat.mul_div_le _ _) hmem

/-- The pieces are the full ones and, if there is any, what they leave over. -/
theorem pieces_eq (hn : 0 < n) (bs : Bytes) :
    pieces n bs = fullPieces n bs ++ if leftover n bs = [] then [] else [leftover n bs] := by
  have hlen := length_leftover (n := n) bs
  have hsplit := Nat.div_add_mod bs.length n
  have hlt := Nat.mod_lt bs.length hn
  split
  · rename_i hnone
    have hzero : bs.length % n = 0 := by rw [← hlen, hnone, List.length_nil]
    have hcount : (bs.length + n - 1) / n = bs.length / n := by
      rw [show bs.length + n - 1 = (n - 1) + n * (bs.length / n) by omega,
        Nat.add_mul_div_left _ _ hn, Nat.div_eq_of_lt (by omega), Nat.zero_add]
    rw [pieces, hcount, List.append_nil, fullPieces]
  · rename_i hsome
    have hpos : 0 < bs.length % n := hlen ▸ List.length_pos_iff.mpr hsome
    have hcount : (bs.length + n - 1) / n = bs.length / n + 1 := by
      rw [show bs.length + n - 1 = (bs.length % n - 1) + n * (bs.length / n + 1) by
          rw [Nat.mul_succ]; omega,
        Nat.add_mul_div_left _ _ hn, Nat.div_eq_of_lt (by omega), Nat.zero_add]
    have hlast : takePieces n 1 (leftover n bs) = [leftover n bs] := by
      rw [takePieces, takePieces, List.take_of_length_le (by omega)]
    rw [pieces, hcount, takePieces_add, ← leftover, hlast, fullPieces]

/-- A string whose length is a multiple has no other pieces than full ones. -/
theorem pieces_eq_fullPieces (hn : 0 < n) {bs : Bytes} (h : n ∣ bs.length) :
    leftover n bs = [] ∧ pieces n bs = fullPieces n bs := by
  have hnone : leftover n bs = [] :=
    List.eq_nil_of_length_eq_zero ((length_leftover bs).trans (Nat.mod_eq_zero_of_dvd h))
  rw [pieces_eq hn, if_pos hnone, List.append_nil]
  exact ⟨hnone, rfl⟩

/-- Where the first part fills its pieces, a concatenation is cut part by part. -/
theorem pieces_append (hn : 0 < n) {a : Bytes} (b : Bytes) (h : n ∣ a.length) :
    pieces n (a ++ b) = pieces n a ++ pieces n b := by
  obtain ⟨hnone, hfull⟩ := pieces_eq_fullPieces hn h
  rw [pieces_eq hn, fullPieces_append hn, leftover_append hn, hnone, List.nil_append,
    List.append_assoc, ← pieces_eq hn, hfull]

theorem length_of_mem_pieces (hn : 0 < n) {bs piece : Bytes} (hmem : piece ∈ pieces n bs) :
    piece.length ≤ n := by
  rw [pieces_eq hn, List.mem_append] at hmem
  rcases hmem with hfull | hlast
  · exact Nat.le_of_eq (length_of_mem_fullPieces hfull)
  · split at hlast
    · cases hlast
    · rw [List.mem_singleton] at hlast
      rw [hlast, length_leftover]
      exact Nat.le_of_lt (Nat.mod_lt _ hn)

end Bytes

namespace FixedBytes

/-! ## Filling up -/

theorem toList_ofPadded_eq (n : Nat) (bs : Bytes) :
    (ofPadded n bs).toList = (bs ++ Bytes.zeros n).take n := by
  rw [List.take_append, ← Nat.min_eq_left (Nat.sub_le n bs.length)]
  simp [ofPadded, Bytes.zeros]

theorem ofPadded_append_zeros (n k : Nat) (bs : Bytes) :
    ofPadded n (bs ++ Bytes.zeros k) = ofPadded n bs := by
  have hcomm : Bytes.zeros k ++ Bytes.zeros n = Bytes.zeros n ++ Bytes.zeros k := by
    simp [Bytes.zeros, Nat.add_comm]
  apply FixedBytes.ext
  rw [toList_ofPadded_eq, toList_ofPadded_eq, List.append_assoc, hcomm, ← List.append_assoc,
    List.take_append_of_le_length (by simp)]

theorem ofPadded_take (n : Nat) (bs : Bytes) : ofPadded n (bs.take n) = ofPadded n bs := by
  have hrest : n - min n bs.length = n - bs.length := by omega
  apply FixedBytes.ext
  simp only [ofPadded, List.take_take, List.length_take, Nat.min_self, hrest]

@[simp] theorem ofPadded_toList {n : Nat} (a : FixedBytes n) : ofPadded n a.toList = a := by
  apply FixedBytes.ext
  rw [toList_ofPadded (by simp), List.take_of_length_le (by simp)]

end FixedBytes

end AuthEncryption
