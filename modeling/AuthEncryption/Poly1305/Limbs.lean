import AuthEncryption.Bytes.Word

/-!
# Numbers in five limbs

The authenticator computes modulo `2^130 - 5` on numbers cut into limbs of 26
bits, so that every product of two limbs, and a sum of five of them, fits 64
bits. The limbs of a running value may exceed 26 bits by a carry that the next
step absorbs; `settle` removes it and `canonical` picks the residue below the
modulus.
-/
namespace AuthEncryption.Poly1305

/-- A number as limbs of 26 bits, least significant first. -/
@[ext] structure Limbs where
  l0 : UInt32
  l1 : UInt32
  l2 : UInt32
  l3 : UInt32
  l4 : UInt32
deriving DecidableEq

/-- The 26 bits of a limb. -/
def limbMask : UInt32 := 0x3ffffff

def wide (a b : UInt32) : UInt64 := a.toUInt64 * b.toUInt64

/-- The columns of a product before their carries. -/
@[ext] structure Columns where
  d0 : UInt64
  d1 : UInt64
  d2 : UInt64
  d3 : UInt64
  d4 : UInt64

namespace Limbs

def zero : Limbs := ⟨0, 0, 0, 0, 0⟩

/-- The multiplier in the first half of a key: some bits of every word are cleared. -/
def ofKey (key : Bytes) : Limbs :=
  { l0 := Word.readAt key 0 &&& 0x3ffffff
    l1 := (Word.readAt key 3 >>> 2) &&& 0x3ffff03
    l2 := (Word.readAt key 6 >>> 4) &&& 0x3ffc0ff
    l3 := (Word.readAt key 9 >>> 6) &&& 0x3f03fff
    l4 := (Word.readAt key 12 >>> 8) &&& 0x00fffff }

/-- The value of a block of sixteen bytes, with `high` added to its top limb. -/
def ofBlock (block : Bytes) (high : UInt32) : Limbs :=
  { l0 := Word.readAt block 0 &&& limbMask
    l1 := (Word.readAt block 3 >>> 2) &&& limbMask
    l2 := (Word.readAt block 6 >>> 4) &&& limbMask
    l3 := (Word.readAt block 9 >>> 6) &&& limbMask
    l4 := (Word.readAt block 12 >>> 8) ||| high }

/-- The sum, limb by limb. -/
def add (a b : Limbs) : Limbs :=
  ⟨a.l0 + b.l0, a.l1 + b.l1, a.l2 + b.l2, a.l3 + b.l3, a.l4 + b.l4⟩

/-- The columns of the product modulo `2^130 - 5`: what would land in a column
beyond the fifth comes back five times in a lower one. -/
def multiply (h r : Limbs) : Columns :=
  let s1 := r.l1 * 5
  let s2 := r.l2 * 5
  let s3 := r.l3 * 5
  let s4 := r.l4 * 5
  { d0 := wide h.l0 r.l0 + wide h.l1 s4 + wide h.l2 s3 + wide h.l3 s2 + wide h.l4 s1
    d1 := wide h.l0 r.l1 + wide h.l1 r.l0 + wide h.l2 s4 + wide h.l3 s3 + wide h.l4 s2
    d2 := wide h.l0 r.l2 + wide h.l1 r.l1 + wide h.l2 r.l0 + wide h.l3 s4 + wide h.l4 s3
    d3 := wide h.l0 r.l3 + wide h.l1 r.l2 + wide h.l2 r.l1 + wide h.l3 r.l0 + wide h.l4 s4
    d4 := wide h.l0 r.l4 + wide h.l1 r.l3 + wide h.l2 r.l2 + wide h.l3 r.l1 + wide h.l4 r.l0 }

end Limbs

/-- Carries the columns of a product into limbs. The carry out of the top comes
back five times at the bottom, and one more carry goes from there into the
second limb, where it stays. -/
def Columns.carry (d : Columns) : Limbs :=
  let c := (d.d0 >>> 26).toUInt32
  let h0 := d.d0.toUInt32 &&& limbMask
  let d1 := d.d1 + c.toUInt64
  let c := (d1 >>> 26).toUInt32
  let h1 := d1.toUInt32 &&& limbMask
  let d2 := d.d2 + c.toUInt64
  let c := (d2 >>> 26).toUInt32
  let h2 := d2.toUInt32 &&& limbMask
  let d3 := d.d3 + c.toUInt64
  let c := (d3 >>> 26).toUInt32
  let h3 := d3.toUInt32 &&& limbMask
  let d4 := d.d4 + c.toUInt64
  let c := (d4 >>> 26).toUInt32
  let h4 := d4.toUInt32 &&& limbMask
  let h0 := h0 + c * 5
  let c := h0 >>> 26
  ⟨h0 &&& limbMask, h1 + c, h2, h3, h4⟩

namespace Limbs

/-- One step of the authenticator: adds a block and multiplies. -/
def step (r h : Limbs) (block : Bytes) (high : UInt32) : Limbs :=
  ((h.add (ofBlock block high)).multiply r).carry

/-- The same residue with every limb below `2^26`. -/
def settle (h : Limbs) : Limbs :=
  let c := h.l1 >>> 26
  let h1 := h.l1 &&& limbMask
  let h2 := h.l2 + c
  let c := h2 >>> 26
  let h2 := h2 &&& limbMask
  let h3 := h.l3 + c
  let c := h3 >>> 26
  let h3 := h3 &&& limbMask
  let h4 := h.l4 + c
  let c := h4 >>> 26
  let h4 := h4 &&& limbMask
  let h0 := h.l0 + c * 5
  let c := h0 >>> 26
  let h0 := h0 &&& limbMask
  ⟨h0, h1 + c, h2, h3, h4⟩

/-- A number less the modulus, found by adding five and dropping `2^130`. The
top limb is negative as a 32-bit number if the modulus was larger. -/
def lessModulus (h : Limbs) : Limbs :=
  let g0 := h.l0 + 5
  let c := g0 >>> 26
  let g0 := g0 &&& limbMask
  let g1 := h.l1 + c
  let c := g1 >>> 26
  let g1 := g1 &&& limbMask
  let g2 := h.l2 + c
  let c := g2 >>> 26
  let g2 := g2 &&& limbMask
  let g3 := h.l3 + c
  let c := g3 >>> 26
  let g3 := g3 &&& limbMask
  ⟨g0, g1, g2, g3, h.l4 + c - 0x4000000⟩

/-- The bits of `a` where `mask` is set and those of `b` elsewhere. -/
def choose (mask : UInt32) (a b : Limbs) : Limbs :=
  let pick (x y : UInt32) : UInt32 := (y &&& ~~~mask) ||| (x &&& mask)
  ⟨pick a.l0 b.l0, pick a.l1 b.l1, pick a.l2 b.l2, pick a.l3 b.l3, pick a.l4 b.l4⟩

/-- The residue below the modulus, chosen by a mask and not by a branch. -/
def canonical (h : Limbs) : Limbs :=
  let g := h.lessModulus
  choose ((g.l4 >>> 31) - 1) g h

/-- The low 128 bits as four words. -/
def words (h : Limbs) : List UInt32 :=
  [h.l0 ||| (h.l1 <<< 26), (h.l1 >>> 6) ||| (h.l2 <<< 20),
    (h.l2 >>> 12) ||| (h.l3 <<< 14), (h.l3 >>> 18) ||| (h.l4 <<< 8)]

end Limbs

/-- The sum of two numbers given as words, least significant first, with a carry
coming in; the carry out of the top is dropped. -/
def addWords (carry : UInt64) : List UInt32 → List UInt32 → List UInt32
  | a :: as, b :: bs =>
    let sum := a.toUInt64 + b.toUInt64 + carry
    sum.toUInt32 :: addWords (sum >>> 32) as bs
  | _, _ => []

@[simp] theorem length_addWords (carry : UInt64) (as bs : List UInt32) :
    (addWords carry as bs).length = min as.length bs.length := by
  induction as generalizing carry bs with
  | nil => simp [addWords]
  | cons a as ih => cases bs <;> simp [addWords, ih]

end AuthEncryption.Poly1305
