import AuthEncryption.SecretStream.State

/-!
# Chunks

The keystream of a chunk serves, in this order, the authenticator, the tag and
the plaintext. The tag has a block of its own of which one byte is sent; all of
the block is authenticated, between the associated data and the ciphertext. The
sender masks the block of the tag; the receiver masks a block with the byte it
got, finds the tag in front and puts the byte back. A chunk is the tag byte, the
ciphertext and the authenticator's tag.
-/
namespace AuthEncryption.SecretStream

/-- What the first two blocks of a chunk's keystream provide. -/
structure Opening where
  /-- The authenticator under the one-time key. -/
  mac : Poly1305
  /-- The block that masks the tag. -/
  tagMask : FixedBytes 64
  /-- The cipher at the first byte of the plaintext. -/
  payload : Cipher

/-- The opening of the next chunk. -/
def opening (s : SecretStream) : Except Fault Opening := do
  let (mac, cipher) ← Composition.ietf.authenticator s.cipher
  let (tagMask, payload) ← cipher.drawFixed 64
  return { mac, tagMask, payload }

namespace Opening

/-- A block with `b` in front and zeros behind it, masked. -/
def maskBlock (o : Opening) (b : UInt8) : FixedBytes 64 :=
  FixedBytes.xor ⟨b :: Bytes.zeros 63, by simp⟩ o.tagMask

/-- The first byte of such a block: what is sent for a tag, and the tag for what was sent. -/
def maskByte (o : Opening) (b : UInt8) : UInt8 := (o.maskBlock b).get 0

/-- The block of which the receiver got the first byte. -/
def restoreBlock (o : Opening) (sent : UInt8) : FixedBytes 64 :=
  (o.maskBlock sent).mapList (·.set 0 sent) fun _ => List.length_set

/-- The parts of the authenticated string, in order. -/
def macParts (ad : Bytes) (block : FixedBytes 64) (ciphertext : Bytes) : List Bytes :=
  [ad, Bytes.zeros (Bytes.pad16 ad.length), block.toList,
    ciphertext, Bytes.zeros (Bytes.pad16 (64 + ciphertext.length)),
    Bytes.le64 ad.length ++ Bytes.le64 (64 + ciphertext.length)]

/-- The authenticator's tag of a chunk. -/
def tag (o : Opening) (ad : Bytes) (block : FixedBytes 64) (ciphertext : Bytes) : Tag 16 :=
  ((macParts ad block ciphertext).foldl Poly1305.update o.mac).finalize

end Opening

/-- Writes a chunk to the first `total` bytes of the buffer and returns its
authenticator's tag. The first byte is the tag's, the plaintext has its length, and the
authenticator's tag takes what is left. -/
def writeChunk (o : Opening) (total : Nat) (plaintext ad : Bytes) (tag : ChunkTag) :
    OnBuffer (Tag 16) :=
  OnBuffer.onFront total do
    OnBuffer.onFront 1 (OnBuffer.put 0 (o.maskByte tag.toByte))
    OnBuffer.onBack 1 do
      let ciphertext ← OnBuffer.onFront plaintext.length do
        let _ ← o.payload.maskInto plaintext
        get
      let mac := o.tag ad (o.maskBlock tag.toByte) ciphertext
      OnBuffer.onBack plaintext.length (OnBuffer.copy mac.toList)
      return mac

/-- Encrypts a chunk into the front of the buffer and returns its length. -/
def pushInto (plaintext ad : Bytes) (tag : ChunkTag) : Session (WithBuffer SecretStream) Nat := do
  let { state, buffer } ← get
  Check.streamState (!state.finalized) "secretstream push after final chunk"
  Check.messageLength context plaintext.length messageMax
  let total ← addSizes plaintext.length overhead
  Check.bufferLength context buffer.length total
  let o ← state.opening
  let mac ← WithBuffer.onBuffer (writeChunk o total plaintext ad tag)
  emit (.pushed plaintext.length tag)
  WithBuffer.onState (advance mac tag)
  return total

/-- Encrypts a chunk. -/
def push (plaintext ad : Bytes) (tag : ChunkTag) : Session SecretStream Bytes := do
  let total ← addSizes plaintext.length overhead
  let (_, chunk) ← WithBuffer.fresh total (pushInto plaintext ad tag)
  return chunk

/-- The tag byte, the ciphertext and the authenticator's tag of a chunk. -/
def splitChunk (chunk : Bytes) : Except Failure (UInt8 × Bytes × Tag 16) := do
  Check.ciphertextLength context chunk.length overhead
  match chunk with
  | [] => throw (.fault (.indexOutOfBounds 0 0))
  | sent :: rest =>
    let (ciphertext, mac) ← splitBytes rest (← subSizes chunk.length overhead)
    return (sent, ciphertext, .ofPadded 16 mac)

/-- Checks a chunk, decrypts it into the front of the buffer and returns the
length of the plaintext and the tag. A chunk that is not accepted changes
neither the buffer nor the state. -/
def pullInto (chunk ad : Bytes) : Session (WithBuffer SecretStream) (Nat × ChunkTag) := do
  let { state, buffer } ← get
  Check.streamState (!state.finalized) "secretstream pull after final chunk"
  let (sent, ciphertext, received) ← splitChunk chunk
  Check.bufferLength context buffer.length ciphertext.length
  let o ← state.opening
  let expected := o.tag ad (o.restoreBlock sent) ciphertext
  unless Bytes.sameBytes expected.toList received.toList do
    emit (.rejected chunk.length)
    throw (.error (.forgedOrCorrupted context))
  match ChunkTag.ofByte? (o.maskByte sent) with
  | none =>
    emit .unknownTag
    throw (.error (.forgedOrCorrupted context))
  | some tag =>
    let _ ← WithBuffer.onBuffer
      (OnBuffer.onFront ciphertext.length (o.payload.maskInto ciphertext))
    emit (.pulled ciphertext.length tag)
    WithBuffer.onState (advance received tag)
    return (ciphertext.length, tag)

/-- Checks and decrypts a chunk. -/
def pull (chunk ad : Bytes) : Session SecretStream (Bytes × ChunkTag) := do
  let ((_, tag), plaintext) ← WithBuffer.fresh (chunk.length - overhead) (pullInto chunk ad)
  return (plaintext, tag)

end AuthEncryption.SecretStream
