import AuthEncryption.Bytes.Basic

/-!
# Byte strings of a known length

Keys, nonces, tags, headers and cipher blocks have one length each, and it is
part of their type. `ofList?` is the only test; everything built from fixed
strings is again fixed.
-/
namespace AuthEncryption

/-- A string of exactly `n` bytes. -/
structure FixedBytes (n : Nat) where
  toList : Bytes
  length_eq : toList.length = n
deriving DecidableEq

namespace FixedBytes

variable {m n : Nat}

@[ext] theorem ext {a b : FixedBytes n} (h : a.toList = b.toList) : a = b := by
  cases a; cases b; cases h; rfl

@[simp] theorem length_toList (a : FixedBytes n) : a.toList.length = n := a.length_eq

/-- The string itself, if it has `n` bytes. -/
def ofList? (n : Nat) (bs : Bytes) : Option (FixedBytes n) :=
  if h : bs.length = n then some ⟨bs, h⟩ else none

@[simp] theorem ofList?_toList (a : FixedBytes n) : ofList? n a.toList = some a := by
  simp [ofList?]

theorem toList_of_ofList? {bs : Bytes} {a : FixedBytes n} (h : ofList? n bs = some a) :
    a.toList = bs := by
  unfold ofList? at h
  split at h
  · cases h; rfl
  · cases h

theorem ofList?_eq_none_iff {bs : Bytes} : ofList? n bs = none ↔ bs.length ≠ n := by
  unfold ofList?; split <;> simp_all

def zero (n : Nat) : FixedBytes n := ⟨Bytes.zeros n, Bytes.length_zeros n⟩

instance : Inhabited (FixedBytes n) := ⟨zero n⟩

@[simp] theorem toList_zero : (zero n).toList = Bytes.zeros n := rfl

def get (a : FixedBytes n) (i : Fin n) : UInt8 :=
  a.toList.get ⟨i.val, by rw [a.length_eq]; exact i.isLt⟩

/-- The first `n` bytes of a string, with zeros where it is too short. -/
def ofPadded (n : Nat) (bs : Bytes) : FixedBytes n :=
  ⟨bs.take n ++ Bytes.zeros (n - bs.length), by simp; omega⟩

theorem toList_ofPadded {bs : Bytes} (h : n ≤ bs.length) :
    (ofPadded n bs).toList = bs.take n := by
  simp [ofPadded, Bytes.zeros, Nat.sub_eq_zero_of_le h]

/-- The first `m` bytes, where there are as many. -/
def front (m : Nat) (a : FixedBytes n) : FixedBytes m := ofPadded m a.toList

/-- The last `m` bytes, where there are as many. -/
def back (m : Nat) (a : FixedBytes n) : FixedBytes m := ofPadded m (a.toList.drop (n - m))

@[simp] theorem toList_front (a : FixedBytes n) (h : m ≤ n) :
    (a.front m).toList = a.toList.take m :=
  toList_ofPadded (by simpa using h)

@[simp] theorem toList_back (a : FixedBytes n) (h : m ≤ n) :
    (a.back m).toList = a.toList.drop (n - m) := by
  have hl : (a.toList.drop (n - m)).length = m := by
    rw [List.length_drop, length_toList]; omega
  rw [back, toList_ofPadded (by omega), List.take_of_length_le (by omega)]

def append (a : FixedBytes m) (b : FixedBytes n) : FixedBytes (m + n) :=
  ⟨a.toList ++ b.toList, by simp⟩

@[simp] theorem toList_append (a : FixedBytes m) (b : FixedBytes n) :
    (a.append b).toList = a.toList ++ b.toList := rfl

def xor (a b : FixedBytes n) : FixedBytes n := ⟨Bytes.xor a.toList b.toList, by simp⟩

@[simp] theorem toList_xor (a b : FixedBytes n) :
    (a.xor b).toList = Bytes.xor a.toList b.toList := rfl

/-- The string after a change that keeps its length. -/
def mapList (f : Bytes → Bytes) (h : ∀ bs, (f bs).length = bs.length) (a : FixedBytes n) :
    FixedBytes n :=
  ⟨f a.toList, by simp [h]⟩

@[simp] theorem toList_mapList (f : Bytes → Bytes) (h : ∀ bs, (f bs).length = bs.length)
    (a : FixedBytes n) : (a.mapList f h).toList = f a.toList := rfl

/-- The string with `data` in place of the bytes from `offset` on. -/
def overwrite (a : FixedBytes n) (offset : Nat) (data : Bytes) : FixedBytes n :=
  ofPadded n (a.toList.take offset ++ data ++ a.toList.drop (offset + data.length))

theorem toList_overwrite (a : FixedBytes n) {offset : Nat} {data : Bytes}
    (h : offset + data.length ≤ n) :
    (a.overwrite offset data).toList =
      a.toList.take offset ++ data ++ a.toList.drop (offset + data.length) := by
  have hlen : (a.toList.take offset ++ data ++ a.toList.drop (offset + data.length)).length = n := by
    simp only [List.length_append, List.length_take, List.length_drop, length_toList]
    omega
  rw [overwrite, toList_ofPadded (Nat.le_of_eq hlen.symm),
    List.take_of_length_le (Nat.le_of_eq hlen)]

end FixedBytes

end AuthEncryption
