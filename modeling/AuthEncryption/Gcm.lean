import AuthEncryption.Aes.Schedule
import AuthEncryption.Ghash
import AuthEncryption.Buffer
import AuthEncryption.Nonce

/-!
# Counter mode with the field hash

The counter blocks of a nonce hold it in front of a number. Block one masks the
tag, the payload is masked from block two on. The tag hashes the associated data
and the ciphertext under a subkey that is the encrypted zero block.
-/
namespace AuthEncryption.Gcm

/-- A key: its round keys and the subkey of the hash. -/
structure Key where
  schedule : Aes.Schedule
  hashKey : FixedBytes 16

namespace Key

/-- The key made of 32 bytes. -/
def ofBytes (key : FixedBytes 32) : Key :=
  let schedule := Aes.Schedule.ofKey key
  { schedule, hashKey := schedule.encrypt (FixedBytes.zero 16) }

/-- A key without its round keys and its subkey. -/
def wiped : Key := { schedule := .wiped, hashKey := FixedBytes.zero 16 }

end Key

/-- A random nonce. None may come twice under one key, so a key serves few of them. -/
def randomNonce : Random (Nonce 12) := Nonce.random 12

/-- The counter block of a nonce with a given number. -/
def counterBlock (nonce : FixedBytes 12) (count : UInt32) : FixedBytes 16 :=
  nonce.append (⟨Bytes.ofNatBE 4 count.toNat, by simp⟩ : FixedBytes 4)

/-- Masks pieces of a message, the first one by the block after `count`. -/
def maskPieces (key : Key) (nonce : FixedBytes 12) : UInt32 → List Bytes → Bytes
  | _, [] => []
  | count, piece :: rest =>
    let block := key.schedule.encrypt (counterBlock nonce (count + 1))
    Bytes.xor piece block.toList ++ maskPieces key nonce (count + 1) rest

def mask (key : Key) (nonce : FixedBytes 12) (data : Bytes) : Bytes :=
  maskPieces key nonce 1 (Bytes.pieces Aes.blockSize data)

def tag (key : Key) (nonce : FixedBytes 12) (ad ciphertext : Bytes) : Tag 16 :=
  let hash := ((Ghash.new key.hashKey).update ad).update ciphertext
  (hash.finish ad.length ciphertext.length).xor (key.schedule.encrypt (counterBlock nonce 1))

def maskBuffer (key : Key) (nonce : FixedBytes 12) : OnBuffer Unit := modify (mask key nonce)

/-- Masks the buffer and returns the tag of what it then holds. -/
def sealInPlace (key : Key) (nonce : FixedBytes 12) (ad : Bytes) : OnBuffer (Tag 16) := do
  maskBuffer key nonce
  return tag key nonce ad (← get)

/-- Unmasks the buffer if `expected` is its tag. -/
def openInPlace (key : Key) (nonce : FixedBytes 12) (received ad : Bytes) (context : String) :
    OnBuffer Unit := do
  let expected := tag key nonce ad (← get)
  Check.authentication (Bytes.sameBytes expected.toList received) context
  maskBuffer key nonce

/-- Unmasks `ciphertext` into the front of the buffer if `received` is its tag. -/
def openTo (key : Key) (nonce : FixedBytes 12) (ciphertext received ad : Bytes)
    (context : String) : OnBuffer Unit := do
  let expected := tag key nonce ad ciphertext
  Check.authentication (Bytes.sameBytes expected.toList received) context
  OnBuffer.onFront ciphertext.length do
    OnBuffer.copy ciphertext
    maskBuffer key nonce

end AuthEncryption.Gcm
