import AuthEncryption.Aes.Field
import AuthEncryption.Bytes.Fixed

/-!
# The cipher state

A block is a square of four columns of four bytes, filled column by column. The
round transformations act on the square; all of them keep it a square, so
nothing is indexed.
-/
namespace AuthEncryption.Aes

/-- A column of the square, and also a word of the key schedule. -/
@[ext] structure Column where
  r0 : UInt8
  r1 : UInt8
  r2 : UInt8
  r3 : UInt8
deriving DecidableEq

namespace Column

/-- The column of zero bytes. -/
def zero : Column := ⟨0, 0, 0, 0⟩

/-- The exclusive or of two columns. -/
def add (a b : Column) : Column := ⟨a.r0 ^^^ b.r0, a.r1 ^^^ b.r1, a.r2 ^^^ b.r2, a.r3 ^^^ b.r3⟩

/-- The substitution box on every byte. -/
def substitute (c : Column) : Column :=
  ⟨Aes.substitute c.r0, Aes.substitute c.r1, Aes.substitute c.r2, Aes.substitute c.r3⟩

/-- The bytes moved up by one row, the first one to the end. -/
def rotate (c : Column) : Column := ⟨c.r1, c.r2, c.r3, c.r0⟩

/-- The product with the fixed polynomial of the cipher. -/
def mix (c : Column) : Column :=
  let all := c.r0 ^^^ c.r1 ^^^ c.r2 ^^^ c.r3
  { r0 := c.r0 ^^^ all ^^^ double (c.r0 ^^^ c.r1)
    r1 := c.r1 ^^^ all ^^^ double (c.r1 ^^^ c.r2)
    r2 := c.r2 ^^^ all ^^^ double (c.r2 ^^^ c.r3)
    r3 := c.r3 ^^^ all ^^^ double (c.r3 ^^^ c.r0) }

/-- The bytes from the first row to the last. -/
def toList (c : Column) : Bytes := [c.r0, c.r1, c.r2, c.r3]

/-- The column at byte offset `i` of a string. -/
def readAt (bs : Bytes) (i : Nat) : Column :=
  ⟨bs.getD i 0, bs.getD (i + 1) 0, bs.getD (i + 2) 0, bs.getD (i + 3) 0⟩

end Column

/-- A square of sixteen bytes. -/
@[ext] structure State where
  c0 : Column
  c1 : Column
  c2 : Column
  c3 : Column
deriving DecidableEq

namespace State

def zero : State := ⟨.zero, .zero, .zero, .zero⟩

def ofBlock (block : FixedBytes 16) : State :=
  let column := Column.readAt block.toList
  ⟨column 0, column 4, column 8, column 12⟩

def toBlock (s : State) : FixedBytes 16 :=
  ⟨s.c0.toList ++ s.c1.toList ++ s.c2.toList ++ s.c3.toList, rfl⟩

def add (a b : State) : State := ⟨a.c0.add b.c0, a.c1.add b.c1, a.c2.add b.c2, a.c3.add b.c3⟩

/-- The substitution box on every byte. -/
def substitute (s : State) : State :=
  ⟨s.c0.substitute, s.c1.substitute, s.c2.substitute, s.c3.substitute⟩

/-- Row `r` moved left by `r` columns. -/
def shiftRows (s : State) : State :=
  { c0 := ⟨s.c0.r0, s.c1.r1, s.c2.r2, s.c3.r3⟩
    c1 := ⟨s.c1.r0, s.c2.r1, s.c3.r2, s.c0.r3⟩
    c2 := ⟨s.c2.r0, s.c3.r1, s.c0.r2, s.c1.r3⟩
    c3 := ⟨s.c3.r0, s.c0.r1, s.c1.r2, s.c2.r3⟩ }

def mixColumns (s : State) : State := ⟨s.c0.mix, s.c1.mix, s.c2.mix, s.c3.mix⟩

end State

end AuthEncryption.Aes
