import AuthEncryption.Bytes.Basic

/-!
# Words of 32 bits

The permutations and the one-time authenticator work on 32-bit words read from
byte strings with the least significant byte first.
-/
namespace AuthEncryption.Word

/-- The word with these bytes, least significant first. -/
def ofBytes (b0 b1 b2 b3 : UInt8) : UInt32 :=
  b0.toUInt32 ||| (b1.toUInt32 <<< 8) ||| (b2.toUInt32 <<< 16) ||| (b3.toUInt32 <<< 24)

/-- The four bytes of a word, least significant first. -/
def toBytes (w : UInt32) : Bytes :=
  [w.toUInt8, (w >>> 8).toUInt8, (w >>> 16).toUInt8, (w >>> 24).toUInt8]

@[simp] theorem length_toBytes (w : UInt32) : (toBytes w).length = 4 := rfl

/-- The word at byte offset `i`; bytes beyond the end count as zero. -/
def readAt (bs : Bytes) (i : Nat) : UInt32 :=
  ofBytes (bs.getD i 0) (bs.getD (i + 1) 0) (bs.getD (i + 2) 0) (bs.getD (i + 3) 0)

def words : Bytes → List UInt32
  | b0 :: b1 :: b2 :: b3 :: rest => ofBytes b0 b1 b2 b3 :: words rest
  | _ => []

def bytes (ws : List UInt32) : Bytes := ws.flatMap toBytes

@[simp] theorem length_bytes (ws : List UInt32) : (bytes ws).length = 4 * ws.length := by
  induction ws with
  | nil => rfl
  | cons w ws ih =>
    simp only [bytes, List.flatMap_cons, List.length_append, List.length_cons,
      length_toBytes] at ih ⊢
    omega

end AuthEncryption.Word
