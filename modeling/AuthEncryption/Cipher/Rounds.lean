import AuthEncryption.Bytes.Word
import AuthEncryption.Bytes.Fixed

/-!
# The two keyed permutations

ChaCha and Salsa arrange the same constants, a key of eight words and an input
of four words in a square of sixteen, and stir it for twenty rounds. A family
says where each word goes, how four words are mixed, and in which order.
-/
namespace AuthEncryption

/-- The square of sixteen words a permutation works on. -/
abbrev Words := Vector UInt32 16

/-- A word rotated towards its high end. -/
def Word.rotateLeft (w amount : UInt32) : UInt32 := (w <<< amount) ||| (w >>> (32 - amount))

/-- The constants of a 32-byte key, as text. -/
def sigma : Bytes := "expand 32-byte k".toList.map fun c => UInt8.ofNat c.toNat

def sigma0 : UInt32 := 0x61707865

def sigma1 : UInt32 := 0x3320646e

def sigma2 : UInt32 := 0x79622d32

def sigma3 : UInt32 := 0x6b206574

theorem words_sigma : Word.words sigma = [sigma0, sigma1, sigma2, sigma3] := by decide

def Words.put (s : Words) (position : Fin 16) (w : UInt32) : Words := s.set position w

namespace ChaCha

/-- Mixes the words at four positions. -/
def quarterRound (s : Words) (a b c d : Fin 16) : Words :=
  let x := s[a] + s[b]
  let w := Word.rotateLeft (s[d] ^^^ x) 16
  let z := s[c] + w
  let y := Word.rotateLeft (s[b] ^^^ z) 12
  let x := x + y
  let w := Word.rotateLeft (w ^^^ x) 8
  let z := z + w
  let y := Word.rotateLeft (y ^^^ z) 7
  (((s.put a x).put b y).put c z).put d w

/-- One round down the columns and one along the diagonals. -/
def doubleRound (s : Words) : Words :=
  let s := quarterRound s 0 4 8 12
  let s := quarterRound s 1 5 9 13
  let s := quarterRound s 2 6 10 14
  let s := quarterRound s 3 7 11 15
  let s := quarterRound s 0 5 10 15
  let s := quarterRound s 1 6 11 12
  let s := quarterRound s 2 7 8 13
  quarterRound s 3 4 9 14

end ChaCha

namespace Salsa

/-- Mixes the words at four positions. -/
def quarterRound (s : Words) (a b c d : Fin 16) : Words :=
  let y := s[b] ^^^ Word.rotateLeft (s[a] + s[d]) 7
  let z := s[c] ^^^ Word.rotateLeft (y + s[a]) 9
  let w := s[d] ^^^ Word.rotateLeft (z + y) 13
  let x := s[a] ^^^ Word.rotateLeft (w + z) 18
  (((s.put a x).put b y).put c z).put d w

/-- One round down the columns and one along the rows. -/
def doubleRound (s : Words) : Words :=
  let s := quarterRound s 0 4 8 12
  let s := quarterRound s 5 9 13 1
  let s := quarterRound s 10 14 2 6
  let s := quarterRound s 15 3 7 11
  let s := quarterRound s 0 1 2 3
  let s := quarterRound s 5 6 7 4
  let s := quarterRound s 10 11 8 9
  quarterRound s 15 12 13 14

end Salsa

inductive Family where
  | chacha
  | salsa
deriving DecidableEq, Repr

namespace Family

/-- The name of the cipher with twenty rounds. -/
def name : Family → String
  | chacha => "ChaCha20"
  | salsa => "Salsa20"

def doubleRound : Family → Words → Words
  | chacha => ChaCha.doubleRound
  | salsa => Salsa.doubleRound

/-- All twenty rounds, without adding the start square at the end. -/
def permute (family : Family) (s : Words) : Words :=
  Nat.repeat family.doubleRound 10 s

/-- The square that holds the constants, a key and an input. -/
def square (family : Family) (key : FixedBytes 32) (input : FixedBytes 16) : Words :=
  let k := Word.readAt key.toList
  let i := Word.readAt input.toList
  match family with
  | chacha =>
    #v[sigma0, sigma1, sigma2, sigma3,
      k 0, k 4, k 8, k 12,
      k 16, k 20, k 24, k 28,
      i 0, i 4, i 8, i 12]
  | salsa =>
    #v[sigma0, k 0, k 4, k 8,
      k 12, sigma1, i 0, i 4,
      i 8, i 12, sigma2, k 16,
      k 20, k 24, k 28, sigma3]

/-- Where the low and the high word of a block counter stand. -/
def counterPositions : Family → Fin 16 × Fin 16
  | chacha => (12, 13)
  | salsa => (8, 9)

/-- The words of the permuted square that make a subkey. -/
def subkeyPositions : Family → List (Fin 16)
  | chacha => [0, 1, 2, 3, 12, 13, 14, 15]
  | salsa => [0, 5, 10, 15, 6, 7, 8, 9]

theorem length_subkeyPositions (family : Family) : family.subkeyPositions.length = 8 := by
  cases family <;> rfl

/-- A key for further use, from a key and sixteen bytes of input: chosen words
of the permuted square, which is not added to its start. -/
def subkey (family : Family) (key : FixedBytes 32) (input : FixedBytes 16) : FixedBytes 32 :=
  let stirred := family.permute (family.square key input)
  ⟨Word.bytes (family.subkeyPositions.map fun p => stirred[p]), by
    simp [length_subkeyPositions]⟩

end Family

end AuthEncryption
