import AuthEncryption.Proofs.ByteStrings
import AuthEncryption.Bytes.Word

/-!
# Values of strings and words

The value of a string follows its concatenation, and a part of the string is a part of the
value's digits. A word read at any offset is therefore a digit of the value, also where
words overlap. The two parts of a word that is put together by a shift do not meet, so
their union is their sum. Words written to a string are read back from it.
-/
namespace AuthEncryption

namespace Bytes

theorem toNatLE_cons (b : UInt8) (bs : Bytes) : toNatLE (b :: bs) = b.toNat + 256 * toNatLE bs := rfl

theorem toNatLE_append (a b : Bytes) :
    toNatLE (a ++ b) = toNatLE a + 256 ^ a.length * toNatLE b := by
  induction a with
  | nil => simp [toNatLE]
  | cons x a ih =>
    rw [List.cons_append, toNatLE_cons, toNatLE_cons, ih, List.length_cons]
    ring

theorem toNatLE_zeros (n : Nat) : toNatLE (zeros n) = 0 := by
  induction n with
  | zero => rfl
  | succ n ih =>
    have hstep : toNatLE (zeros (n + 1)) = 0 + 256 * toNatLE (zeros n) := rfl
    rw [hstep, ih]

theorem toNatLE_lt (bs : Bytes) : toNatLE bs < 256 ^ bs.length := by
  induction bs with
  | nil => simp [toNatLE]
  | cons b bs ih =>
    have hb := b.toNat_lt
    rw [toNatLE_cons, List.length_cons, Nat.pow_succ]
    omega

theorem toNatLE_drop (bs : Bytes) (i : Nat) : toNatLE (bs.drop i) = toNatLE bs / 256 ^ i := by
  induction i generalizing bs with
  | zero => simp
  | succ i ih =>
    cases bs with
    | nil => simp [toNatLE]
    | cons b bs =>
      have hb := b.toNat_lt
      have hrest : (b.toNat + 256 * toNatLE bs) / 256 = toNatLE bs := by omega
      rw [List.drop_succ_cons, ih, toNatLE_cons, Nat.pow_succ', ← Nat.div_div_eq_div_mul, hrest]

theorem toNatLE_take (bs : Bytes) (i : Nat) : toNatLE (bs.take i) = toNatLE bs % 256 ^ i := by
  by_cases h : i ≤ bs.length
  · have hsplit := toNatLE_append (bs.take i) (bs.drop i)
    have hlt := toNatLE_lt (bs.take i)
    rw [List.length_take_of_le h] at hsplit hlt
    rw [List.take_append_drop] at hsplit
    rw [hsplit, Nat.add_mul_mod_self_left, Nat.mod_eq_of_lt hlt]
  · have hlt : toNatLE bs < 256 ^ i :=
      Nat.lt_of_lt_of_le (toNatLE_lt bs) (Nat.pow_le_pow_right (by decide) (by omega))
    rw [List.take_of_length_le (by omega), Nat.mod_eq_of_lt hlt]

/-- A byte is a digit of the value; bytes beyond the end are zero. -/
theorem toNat_getD (bs : Bytes) (i : Nat) : (bs.getD i 0).toNat = toNatLE bs / 256 ^ i % 256 := by
  have hget : bs.getD i 0 = (bs.drop i).getD 0 0 := by simp [List.getD_eq_getElem?_getD]
  rw [← toNatLE_drop, hget]
  cases bs.drop i with
  | nil => rfl
  | cons b rest =>
    have hb := b.toNat_lt
    rw [toNatLE_cons, List.getD_cons_zero]
    omega

theorem ofNatLE_add (m n value : Nat) :
    ofNatLE (m + n) value = ofNatLE m value ++ ofNatLE n (value / 256 ^ m) := by
  induction m generalizing value with
  | zero => simp [ofNatLE]
  | succ m ih =>
    rw [Nat.succ_add, ofNatLE, ofNatLE, ih, Nat.div_div_eq_div_mul, List.cons_append,
      ← Nat.pow_succ']

/-- Only the value modulo the width counts. -/
theorem ofNatLE_mod (width value : Nat) :
    ofNatLE width (value % 256 ^ width) = ofNatLE width value := by
  induction width generalizing value with
  | zero => rfl
  | succ width ih =>
    have hhead : UInt8.ofNat (value % 256 ^ (width + 1)) = UInt8.ofNat value := by
      apply UInt8.toNat_inj.mp
      rw [UInt8.toNat_ofNat', UInt8.toNat_ofNat', Nat.pow_succ', Nat.mod_mul_right_mod]
    have hrest : value % 256 ^ (width + 1) / 256 = value / 256 % 256 ^ width := by
      rw [Nat.pow_succ', Nat.mod_mul_right_div_self]
    rw [ofNatLE, ofNatLE, hhead, hrest, ih]

/-- A string is the digits of its value. -/
theorem ofNatLE_toNatLE (bs : Bytes) : ofNatLE bs.length (toNatLE bs) = bs := by
  induction bs with
  | nil => rfl
  | cons b bs ih =>
    have hb := b.toNat_lt
    have hhead : UInt8.ofNat (b.toNat + 256 * toNatLE bs) = b := by
      apply UInt8.toNat_inj.mp
      rw [UInt8.toNat_ofNat']
      omega
    have hrest : (b.toNat + 256 * toNatLE bs) / 256 = toNatLE bs := by omega
    rw [List.length_cons, toNatLE_cons, ofNatLE, hhead, hrest, ih]

/-! ## The most significant byte first -/

theorem toNatBE_eq (bs : Bytes) : toNatBE bs = toNatLE bs.reverse := by
  rw [toNatLE, List.foldr_reverse, toNatBE]
  simp only [Nat.add_comm]

/-- Read from the other end, a string of this width has the same value. -/
theorem toNatBE_ofNatBE (width value : Nat) :
    toNatBE (ofNatBE width value) = value % 256 ^ width := by
  rw [toNatBE_eq, ofNatBE, List.reverse_reverse, toNatLE_ofNatLE]

theorem ofNatBE_inj {width m n : Nat} (hm : m < 256 ^ width) (hn : n < 256 ^ width)
    (h : ofNatBE width m = ofNatBE width n) : m = n := by
  have hvalue := congrArg toNatBE h
  rwa [toNatBE_ofNatBE, toNatBE_ofNatBE, Nat.mod_eq_of_lt hm, Nat.mod_eq_of_lt hn] at hvalue

theorem ofNatBE_toNatBE (bs : Bytes) : ofNatBE bs.length (toNatBE bs) = bs := by
  rw [ofNatBE, toNatBE_eq, ← List.length_reverse, ofNatLE_toNatLE, List.reverse_reverse]

theorem toNatBE_lt (bs : Bytes) : toNatBE bs < 256 ^ bs.length := by
  rw [toNatBE_eq, ← List.length_reverse]
  exact toNatLE_lt bs.reverse

theorem ofNatBE_add (m n value : Nat) :
    ofNatBE (m + n) value = ofNatBE m (value / 256 ^ n) ++ ofNatBE n value := by
  rw [ofNatBE, Nat.add_comm, ofNatLE_add, List.reverse_append]
  rfl

end Bytes

namespace Word

/-! ## Shifts -/

theorem toNat_shiftRight {a k : UInt32} (hk : k.toNat < 32) :
    (a >>> k).toNat = a.toNat / 2 ^ k.toNat := by
  rw [UInt32.toNat_shiftRight, Nat.mod_eq_of_lt hk, Nat.shiftRight_eq_div_pow]

/-- Where the low part ends below the shift, union is addition. -/
theorem toNat_or_shiftLeft {a b k : UInt32} (hk : k.toNat < 32) (ha : a.toNat < 2 ^ k.toNat) :
    (a ||| (b <<< k)).toNat = a.toNat + b.toNat * 2 ^ k.toNat % 2 ^ 32 := by
  have hsize : 2 ^ k.toNat * 2 ^ (32 - k.toNat) = 2 ^ 32 := by
    rw [← Nat.pow_add]
    congr 1
    omega
  have hshift : b.toNat * 2 ^ k.toNat % 2 ^ 32 = 2 ^ k.toNat * (b.toNat % 2 ^ (32 - k.toNat)) := by
    rw [← hsize, Nat.mul_comm, Nat.mul_mod_mul_left]
  rw [UInt32.toNat_or, UInt32.toNat_shiftLeft, Nat.mod_eq_of_lt hk, Nat.shiftLeft_eq, hshift,
    Nat.or_comm, ← Nat.two_pow_add_eq_or_of_lt ha, Nat.add_comm]

/-! ## Words in strings -/

theorem toNat_ofBytes (b0 b1 b2 b3 : UInt8) :
    (ofBytes b0 b1 b2 b3).toNat =
      b0.toNat + 2 ^ 8 * b1.toNat + 2 ^ 16 * b2.toNat + 2 ^ 24 * b3.toNat := by
  have h0 := b0.toNat_lt
  have h1 := b1.toNat_lt
  have h2 := b2.toNat_lt
  have h3 := b3.toNat_lt
  have htwo : (b0.toUInt32 ||| (b1.toUInt32 <<< 8)).toNat =
      b0.toNat + b1.toNat * 2 ^ 8 % 2 ^ 32 := toNat_or_shiftLeft (by decide) h0
  have hthree : (b0.toUInt32 ||| (b1.toUInt32 <<< 8) ||| (b2.toUInt32 <<< 16)).toNat =
      (b0.toUInt32 ||| (b1.toUInt32 <<< 8)).toNat + b2.toNat * 2 ^ 16 % 2 ^ 32 :=
    toNat_or_shiftLeft (by decide) (show _ < 2 ^ 16 by omega)
  have hfour : (ofBytes b0 b1 b2 b3).toNat =
      (b0.toUInt32 ||| (b1.toUInt32 <<< 8) ||| (b2.toUInt32 <<< 16)).toNat +
        b3.toNat * 2 ^ 24 % 2 ^ 32 :=
    toNat_or_shiftLeft (by decide) (show _ < 2 ^ 24 by omega)
  omega

/-- A word is a digit of the value of its string. -/
theorem toNat_readAt (bs : Bytes) (i : Nat) :
    (readAt bs i).toNat = Bytes.toNatLE bs / 256 ^ i % 2 ^ 32 := by
  simp only [readAt, toNat_ofBytes, Bytes.toNat_getD, Nat.pow_succ, ← Nat.div_div_eq_div_mul]
  omega

/-- A word that lies in the first part of a concatenation. -/
theorem readAt_append_left {a : Bytes} (b : Bytes) {i : Nat} (h : i + 4 ≤ a.length) :
    readAt (a ++ b) i = readAt a i := by
  have hget : ∀ k, k < a.length → (a ++ b).getD k 0 = a.getD k 0 := fun k hk => by
    rw [List.getD_eq_getElem?_getD, List.getElem?_append_left hk, ← List.getD_eq_getElem?_getD]
  rw [readAt, hget i (by omega), hget (i + 1) (by omega), hget (i + 2) (by omega),
    hget (i + 3) (by omega), readAt]

/-- A word that lies in the second part of a concatenation. -/
theorem readAt_append_right (a b : Bytes) (i : Nat) :
    readAt (a ++ b) (a.length + i) = readAt b i := by
  have hget : ∀ k, (a ++ b).getD (a.length + k) 0 = b.getD k 0 := fun k => by
    rw [List.getD_eq_getElem?_getD, List.getElem?_append_right (Nat.le_add_right ..),
      Nat.add_sub_cancel_left, ← List.getD_eq_getElem?_getD]
  simp only [readAt, Nat.add_assoc, hget]

/-- A word of the bytes of a number is a digit of the number. -/
theorem toNat_readAt_ofNatLE {width i : Nat} (value : Nat) (h : i + 4 ≤ width) :
    (readAt (Bytes.ofNatLE width value) i).toNat = value / 256 ^ i % 2 ^ 32 := by
  have hwidth : 256 ^ width = 256 ^ i * 256 ^ (width - i) := by
    rw [← Nat.pow_add, Nat.add_sub_of_le (by omega)]
  have hword : 2 ^ 32 ∣ 256 ^ (width - i) :=
    Nat.pow_dvd_pow 256 (show 4 ≤ width - i by omega)
  rw [toNat_readAt, Bytes.toNatLE_ofNatLE, hwidth, Nat.mod_mul_right_div_self,
    Nat.mod_mod_of_dvd _ hword]

/-- The upper part of a word is the digit that begins at a later bit. -/
theorem toNat_readAt_shiftRight (bs : Bytes) (i : Nat) {k : UInt32} (hk : k.toNat < 32) :
    (readAt bs i >>> k).toNat =
      Bytes.toNatLE bs / 2 ^ (8 * i + k.toNat) % 2 ^ (32 - k.toNat) := by
  have hsize : 2 ^ 32 = 2 ^ k.toNat * 2 ^ (32 - k.toNat) := by
    rw [← Nat.pow_add]
    congr 1
    omega
  have hbytes : 256 ^ i = 2 ^ (8 * i) := Nat.pow_mul 2 8 i ▸ rfl
  rw [toNat_shiftRight hk, toNat_readAt, hsize, Nat.mod_mul_right_div_self,
    Nat.div_div_eq_div_mul, hbytes, ← Nat.pow_add]

theorem toBytes_eq (w : UInt32) : toBytes w = Bytes.ofNatLE 4 w.toNat := by
  have hbyte : ∀ k : UInt32, k.toNat < 32 →
      (w >>> k).toUInt8 = UInt8.ofNat (w.toNat / 2 ^ k.toNat) := by
    intro k hk
    apply UInt8.toNat_inj.mp
    rw [UInt32.toNat_toUInt8, toNat_shiftRight hk, UInt8.toNat_ofNat']
  have h0 : w.toUInt8 = UInt8.ofNat w.toNat := by
    apply UInt8.toNat_inj.mp
    rw [UInt32.toNat_toUInt8, UInt8.toNat_ofNat']
  have h1 : (w >>> 8).toUInt8 = UInt8.ofNat (w.toNat / 2 ^ 8) := hbyte 8 (by decide)
  have h2 : (w >>> 16).toUInt8 = UInt8.ofNat (w.toNat / 2 ^ 16) := hbyte 16 (by decide)
  have h3 : (w >>> 24).toUInt8 = UInt8.ofNat (w.toNat / 2 ^ 24) := hbyte 24 (by decide)
  rw [toBytes, h0, h1, h2, h3]
  simp only [Bytes.ofNatLE, Nat.div_div_eq_div_mul]
  rfl

/-! ## Strings of words -/

theorem words_eq (bs : Bytes) :
    words bs = (List.range (bs.length / 4)).map fun i => readAt bs (4 * i) := by
  fun_induction words bs with
  | case1 b0 b1 b2 b3 rest ih =>
    have hcount : (b0 :: b1 :: b2 :: b3 :: rest).length / 4 = rest.length / 4 + 1 := by
      simp only [List.length_cons]
      omega
    rw [hcount, List.range_succ_eq_map, List.map_cons, List.map_map, ih]
    rfl
  | case2 bs hshort =>
    have hlen : bs.length < 4 := by
      match bs, hshort with
      | [], _ | [_], _ | [_, _], _ | [_, _, _], _ => simp
      | b0 :: b1 :: b2 :: b3 :: rest, hshort => exact (hshort b0 b1 b2 b3 rest rfl).elim
    rw [Nat.div_eq_of_lt hlen]
    rfl

theorem readAt_toBytes (w : UInt32) : readAt (toBytes w) 0 = w := by
  apply UInt32.toNat_inj.mp
  rw [toBytes_eq, toNat_readAt_ofNatLE _ (by decide), Nat.pow_zero, Nat.div_one,
    Nat.mod_eq_of_lt w.toNat_lt]

/-- Words are read back from their bytes. -/
theorem words_bytes (ws : List UInt32) : words (bytes ws) = ws := by
  induction ws with
  | nil => rfl
  | cons w ws ih =>
    have hfirst : words (bytes (w :: ws)) = readAt (toBytes w) 0 :: words (bytes ws) := rfl
    rw [hfirst, readAt_toBytes, ih]

/-! ## Numbers of several words -/

/-- The value of words, the least significant one first. -/
def valueLE (ws : List UInt32) : Nat := ws.foldr (fun w acc => w.toNat + 2 ^ 32 * acc) 0

theorem valueLE_cons (w : UInt32) (ws : List UInt32) :
    valueLE (w :: ws) = w.toNat + 2 ^ 32 * valueLE ws := rfl

theorem bytes_eq (ws : List UInt32) : bytes ws = Bytes.ofNatLE (4 * ws.length) (valueLE ws) := by
  induction ws with
  | nil => rfl
  | cons w ws ih =>
    have hw := w.toNat_lt
    have hlow : Bytes.ofNatLE 4 (valueLE (w :: ws)) = toBytes w := by
      rw [toBytes_eq, ← Bytes.ofNatLE_mod 4 (valueLE (w :: ws)), valueLE_cons]
      congr 1
      omega
    have hhigh : valueLE (w :: ws) / 256 ^ 4 = valueLE ws := by
      rw [valueLE_cons]
      omega
    rw [List.length_cons, Nat.mul_succ, Nat.add_comm, Bytes.ofNatLE_add, hlow, hhigh, ← ih]
    rfl

end Word

end AuthEncryption
