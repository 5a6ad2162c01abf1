import AuthEncryption.Cipher.Rounds
import AuthEncryption.Buffer

/-!
# Keystream ciphers

A cipher is a keyed square, the number of the next block and the bytes of the
last block that were not used. `draw` hands out keystream; every other operation
is `draw` and an exclusive or, so any way of cutting the data consumes one
continuous keystream. In the narrow layout block numbers have 32 bits and end at
`lastNarrowBlock`; elsewhere they have 64 bits and start again from zero.
-/
namespace AuthEncryption

/-- A keyed cipher at a position of its keystream. -/
structure Cipher where
  family : Family
  /-- Constants, key and nonce; the counter words are filled in for each block. -/
  square : Words
  /-- Whether the block number has 32 bits, the other half of the nonce taking its place. -/
  narrow : Bool
  /-- The number of the next block to produce. -/
  nextBlock : UInt64
  /-- Keystream that was produced and not used yet. -/
  pending : Bytes
  /-- The length of the nonce the cipher was keyed with. -/
  nonceSize : Nat

namespace Cipher

def blockSize : Nat := 64

def keySize : Nat := 32

/-- The last block number of the narrow layout. -/
def lastNarrowBlock : UInt64 := 0xffffffff

/-- A cipher before its first block. -/
def start (family : Family) (key : FixedBytes 32) (input : FixedBytes 16) (narrow : Bool)
    (nonceSize : Nat) : Cipher :=
  { family, square := family.square key input, narrow, nextBlock := 0, pending := [], nonceSize }

def chacha (key : FixedBytes 32) (nonce : FixedBytes 8) : Cipher :=
  start .chacha key ((FixedBytes.zero 8).append nonce) false 8

/-- ChaCha20 with a 12-byte nonce and the narrow layout. -/
def ietf (key : FixedBytes 32) (nonce : FixedBytes 12) : Cipher :=
  start .chacha key ((FixedBytes.zero 4).append nonce) true 12

/-- ChaCha20 under the subkey of the first sixteen bytes of a 24-byte nonce. -/
def xchacha (key : FixedBytes 32) (nonce : FixedBytes 24) : Cipher :=
  { chacha (Family.chacha.subkey key (nonce.front 16)) (nonce.back 8) with nonceSize := 24 }

def salsa (key : FixedBytes 32) (nonce : FixedBytes 8) : Cipher :=
  start .salsa key (nonce.append (FixedBytes.zero 8)) false 8

/-- Salsa20 with an 8-byte nonce that is followed by the number of the first block. -/
def salsaFrom (key : FixedBytes 32) (nonce : FixedBytes 16) : Cipher :=
  { salsa key (nonce.front 8) with
    nextBlock := UInt64.ofNat (Bytes.toNatLE (nonce.back 8).toList), nonceSize := 16 }

/-- Salsa20 under the subkey of the first sixteen bytes of a 24-byte nonce. -/
def xsalsa (key : FixedBytes 32) (nonce : FixedBytes 24) : Cipher :=
  { salsa (Family.salsa.subkey key (nonce.front 16)) (nonce.back 8) with nonceSize := 24 }

/-- The cipher of a family whose layout the length of the nonce selects. -/
def ofNonce (family : Family) (key : FixedBytes 32) (nonce : Bytes) : Except Fault Cipher :=
  match family with
  | .chacha =>
    if h : nonce.length = 8 then .ok (chacha key ⟨nonce, h⟩)
    else if h : nonce.length = 12 then .ok (ietf key ⟨nonce, h⟩)
    else if h : nonce.length = 24 then .ok (xchacha key ⟨nonce, h⟩)
    else .error (.nonceLength family.name nonce.length)
  | .salsa =>
    if h : nonce.length = 8 then .ok (salsa key ⟨nonce, h⟩)
    else if h : nonce.length = 16 then .ok (salsaFrom key ⟨nonce, h⟩)
    else if h : nonce.length = 24 then .ok (xsalsa key ⟨nonce, h⟩)
    else .error (.nonceLength family.name nonce.length)

/-- The cipher of a family for a key and a nonce of any length, if both fit. -/
def keyed (family : Family) (key nonce : Bytes) : Except Fault Cipher :=
  if h : key.length = keySize then ofNonce family ⟨key, h⟩ nonce
  else .error (.keyLength family.name)

/-- The square with a block number in place. -/
def numbered (c : Cipher) (block : UInt64) : Words :=
  let (low, high) := c.family.counterPositions
  let s := Words.put c.square low block.toUInt32
  if c.narrow then s else s.put high (block >>> 32).toUInt32

/-- The keystream block with a given number. -/
def block (c : Cipher) (number : UInt64) : Bytes :=
  let input := c.numbered number
  Word.bytes ((c.family.permute input).zipWith (· + ·) input).toList

@[simp] theorem length_block (c : Cipher) (number : UInt64) : (c.block number).length = 64 := by
  simp [block]

/-- Whether the next block number lies beyond the narrow layout. -/
def exhausted (c : Cipher) : Bool := c.narrow && lastNarrowBlock < c.nextBlock

/-- Produces up to `count` blocks, fewer only if the block numbers run out. -/
def generate : (count : Nat) → Cipher → Bytes × Cipher
  | 0, c => ([], c)
  | count + 1, c =>
    if c.exhausted then ([], c)
    else
      let (later, after) := generate count { c with nextBlock := c.nextBlock + 1 }
      (c.block c.nextBlock ++ later, after)

/-- Hands out the next `n` bytes of keystream, fewer only if the block numbers
run out. What is left of the last block stays pending. -/
def draw (c : Cipher) (n : Nat) : Bytes × Cipher :=
  let (fresh, after) := generate ((n - c.pending.length + 63) / 64) c
  let ready := c.pending ++ fresh
  (ready.take n, { after with pending := ready.drop n })

/-- The next `n` bytes of keystream, all of them. -/
def drawFixed (c : Cipher) (n : Nat) : Except Fault (FixedBytes n × Cipher) :=
  let (keystream, after) := c.draw n
  if h : keystream.length = n then .ok (⟨keystream, h⟩, after) else .error .counterExhausted

/-- What masking a string leaves behind. -/
structure Masked where
  /-- The string, masked as far as the keystream reaches. -/
  data : Bytes
  cipher : Cipher
  /-- Whether the keystream reached the end. -/
  complete : Bool

/-- Exclusive or of a string with the keystream that follows. -/
def mask (c : Cipher) (data : Bytes) : Masked :=
  let (keystream, cipher) := c.draw data.length
  { data := Bytes.xorFront data keystream, cipher, complete := data.length ≤ keystream.length }

/-- Masks the whole buffer. -/
def maskBuffer (c : Cipher) : OnBuffer Cipher := do
  let masked := c.mask (← get)
  set masked.data
  if masked.complete then return masked.cipher else throw (.fault .counterExhausted)

/-- Writes `source` to the front of the buffer and masks it there. -/
def maskInto (c : Cipher) (source : Bytes) : OnBuffer Cipher := do
  if source.length ≤ (← OnBuffer.length) then
    OnBuffer.onFront source.length do
      OnBuffer.copy source
      c.maskBuffer
  else
    throw (.fault (.shortDestination "xor_keystream"))

/-- An operation on a cipher that may break a rule; the cipher keeps the
position it had reached. -/
abbrev Step (α : Type) := ExceptT Fault (StateM Cipher) α

/-- The result of a step and the cipher it leaves. -/
def Step.runOn {α : Type} (step : Step α) (c : Cipher) : Except Fault α × Cipher :=
  step.run.run c

/-- The string masked with the keystream that follows. -/
def apply (data : Bytes) : Step Bytes := do
  let masked := (← get).mask data
  set masked.cipher
  if masked.complete then return masked.data else throw .counterExhausted

def keystream (n : Nat) : Step Bytes := apply (Bytes.zeros n)

/-- `destination` with `source`, masked, at its front. -/
def xorKeystream (destination source : Bytes) : Step Bytes := do
  if source.length ≤ destination.length then
    return (← apply source) ++ destination.drop source.length
  else
    throw (.shortDestination "xor_keystream")

/-- Moves to the start of a block. Pending keystream is dropped. -/
def seek (number : UInt64) : Step Unit := do
  let c ← get
  if c.narrow && lastNarrowBlock < number then throw .counterExhausted
  set { c with nextBlock := number, pending := [] }

/-- Starts afresh with another key and nonce; the cipher stays if they do not fit. -/
def rekey (key nonce : Bytes) : Step Unit := do
  set (← keyed (← get).family key nonce)

/-- The cipher without its key: every field is zero and nothing is pending. -/
def wipe (c : Cipher) : Cipher :=
  { c with square := Vector.replicate 16 0, narrow := false, nextBlock := 0, pending := [],
           nonceSize := 0 }

end Cipher

end AuthEncryption
