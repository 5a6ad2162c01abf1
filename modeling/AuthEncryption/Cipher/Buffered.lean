import AuthEncryption.Cipher.Keystream

/-!
# A cipher and its block

A running cipher keeps the last block of keystream and a position in it. The bytes behind the
position are still to be used; at the end of the block there are none. Masking a string uses these
first. Each piece of 64 bytes behind them gets a block of its own, which stays in the buffer, and
the length of the piece is the new position. Sizes and splits are checked where they are taken: a
position behind the end of the block would be a broken rule, like a block number without a block.
-/
namespace AuthEncryption.Cipher

/-- A cipher with the last block it has produced. -/
structure Buffered where
  family : Family
  /-- Constants, key and nonce; the counter words are filled in for each block. -/
  square : Words
  /-- Whether the block number has 32 bits. -/
  narrow : Bool
  /-- The number of the next block to produce. -/
  nextBlock : UInt64
  /-- The length of the nonce the cipher was keyed with. -/
  nonceSize : Nat
  buffer : FixedBytes 64
  /-- How many bytes at the front of the buffer are used up. -/
  position : Nat

namespace Buffered

/-- A cipher that has nothing to use up. Its buffer is empty: the position is at the end. -/
def ofCipher (c : Cipher) : Buffered :=
  { family := c.family, square := c.square, narrow := c.narrow, nextBlock := c.nextBlock,
    nonceSize := c.nonceSize, buffer := .zero 64, position := blockSize }

/-- The cipher that keeps the bytes behind the position themselves. -/
def view (b : Buffered) : Cipher :=
  { family := b.family, square := b.square, narrow := b.narrow, nextBlock := b.nextBlock,
    pending := b.buffer.toList.drop b.position, nonceSize := b.nonceSize }

/-- Puts the next block into the buffer. -/
def generate (b : Buffered) : Except Fault Buffered :=
  if b.view.exhausted then .error .counterExhausted
  else
    .ok { b with
      nextBlock := b.nextBlock + 1
      buffer := ⟨b.view.block b.nextBlock, length_block ..⟩
      position := 0 }

/-- Masks pieces of a string, each with a block of its own. -/
def maskPieces : Buffered → List Bytes → Except Fault Bytes × Buffered
  | b, [] => (.ok [], b)
  | b, piece :: rest =>
    match b.generate with
    | .error rule => (.error rule, b)
    | .ok b =>
      let (later, after) := maskPieces { b with position := piece.length } rest
      (later.map (Bytes.xorFront piece b.buffer.toList ++ ·), after)

/-- A string and a buffer, cut where the one meets the end of the other. -/
structure Cut where
  /-- The front of the string, which the bytes behind the position mask. -/
  head : Bytes
  /-- The bytes behind the position. -/
  ready : Bytes
  /-- The string behind its front. -/
  tail : Bytes
  /-- The position behind the bytes that mask the front. -/
  position : Nat

def cut (b : Buffered) (data : Bytes) : Except Fault Cut := do
  let left ← subSizes blockSize b.position
  let (head, tail) ← splitBytes data (min left data.length)
  let (_, ready) ← splitBytes b.buffer.toList b.position
  return { head, ready, tail, position := ← addSizes b.position head.length }

/-- The string masked with the keystream that follows. A broken rule leaves the cipher
where it had come to. -/
def apply (b : Buffered) (data : Bytes) : Except Fault Bytes × Buffered :=
  match b.cut data with
  | .error rule => (.error rule, b)
  | .ok { head, ready, tail, position } =>
    let (later, after) := { b with position }.maskPieces (Bytes.pieces blockSize tail)
    (later.map (Bytes.xorFront head ready ++ ·), after)

/-- `destination` with `source`, masked, at its front. -/
def xorKeystream (b : Buffered) (destination source : Bytes) : Except Fault Bytes × Buffered :=
  if source.length ≤ destination.length then
    let (masked, after) := b.apply source
    (masked.map (· ++ destination.drop source.length), after)
  else
    (.error (.shortDestination "xor_keystream"), b)

/-- Goes on from where a step of the cipher leads, with nothing to use up. -/
def restart (b : Buffered) (step : Step Unit) : Except Fault Unit × Buffered :=
  match step.runOn b.view with
  | (.ok _, c) => (.ok (), ofCipher c)
  | (.error rule, _) => (.error rule, b)

/-- The cipher without its key and its block. -/
def wipe (b : Buffered) : Buffered := ofCipher b.view.wipe

end Buffered

end AuthEncryption.Cipher
