import AuthEncryption.Aes.State

/-!
# Round keys and encryption

A key of eight columns is expanded to sixty, four for each of fifteen round
keys. Encryption adds the first round key, runs thirteen full rounds and one
that does not mix columns. Only this direction exists: counter mode needs no
other.
-/
namespace AuthEncryption.Aes

def blockSize : Nat := 16

def keySize : Nat := 32

/-- The round constant for every eighth column. -/
def roundConstant (i : Nat) : UInt8 := 1 <<< UInt8.ofNat (i - 1)

/-- The column that follows those of a schedule so far. -/
def nextColumn (columns : Array Column) : Column :=
  let i := columns.size
  let last := columns.getD (i - 1) .zero
  let change :=
    if i % 8 = 0 then last.rotate.substitute.add ⟨roundConstant (i / 8), 0, 0, 0⟩
    else if i % 8 = 4 then last.substitute
    else last
  (columns.getD (i - 8) .zero).add change

/-- The columns of a schedule after `count` more. -/
def extend : (count : Nat) → Array Column → Array Column
  | 0, columns => columns
  | count + 1, columns => extend count (columns.push (nextColumn columns))

def keyColumns (key : FixedBytes 32) : Array Column :=
  let column := Column.readAt key.toList
  #[column 0, column 4, column 8, column 12, column 16, column 20, column 24, column 28]

/-- The round keys of a cipher. -/
structure Schedule where
  keys : Vector State 15

namespace Schedule

def ofKey (key : FixedBytes 32) : Schedule :=
  let columns := extend 52 (keyColumns key)
  let column (i : Nat) : Column := columns.getD i .zero
  ⟨Vector.ofFn fun round => ⟨column (4 * round), column (4 * round + 1), column (4 * round + 2),
    column (4 * round + 3)⟩⟩

/-- A schedule without its key: every round key is zero. -/
def wiped : Schedule := ⟨Vector.replicate 15 .zero⟩

def round (s key : State) : State := s.substitute.shiftRows.mixColumns.add key

def encryptState (schedule : Schedule) (s : State) : State :=
  let keys := schedule.keys
  let s := s.add keys[0]
  let s := Nat.fold 13 (fun i h s => round s keys[i + 1]) s
  s.substitute.shiftRows.add keys[14]

def encrypt (schedule : Schedule) (block : FixedBytes 16) : FixedBytes 16 :=
  (schedule.encryptState (.ofBlock block)).toBlock

end Schedule

end AuthEncryption.Aes
