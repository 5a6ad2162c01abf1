import AuthEncryption.SecretStream.Chunk
import AuthEncryption.Transfer.Sink

/-!
# Writing a stream

A writer cuts what it is given into chunks of one size and sends each with its
length in front, after the header. The final chunk carries what is left over.
Full chunks leave the buffer before they are encrypted, so a chunk whose sending
fails is not sent again.
-/
namespace AuthEncryption

structure Writer where
  sink : Sink
  stream : SecretStream
  /-- Plaintext that has not been encrypted. -/
  buffer : Bytes
  chunkSize : Nat
  ad : Bytes
  chunks : Nat
  chunkSize_pos : 0 < chunkSize

namespace Writer

/-- The plaintext bytes of a chunk where no size is given. -/
def defaultChunkSize : Nat := 16384

/-- Starts a stream: sends the header. -/
def create (key : FixedBytes 32) (header : Header) (ad : Bytes) (chunkSize : Nat) :
    Session Sink Writer := do
  if h : 0 < chunkSize then
    let stream ← SecretStream.initPush key header
    Sink.send "stream header" header.toList
    checkCapacity chunkSize
    return { sink := ← get, stream, buffer := [], chunkSize, ad, chunks := 0, chunkSize_pos := h }
  else
    throw (.error (.invalidParameter "SecretStreamWriter" "chunk size must be non-zero"))

def createRandom (key : FixedBytes 32) (random : RandomSource) (ad : Bytes) (chunkSize : Nat) :
    Session Sink Writer := do
  let header ← (Header.random.runOn random).1
  create key header ad chunkSize

def onStream {α : Type} (op : Session SecretStream α) : Session Writer α :=
  op.focus Writer.stream fun w stream => { w with stream }

def onSink {α : Type} (op : Session Sink α) : Session Writer α :=
  op.focus Writer.sink fun w sink => { w with sink }

/-- The length of a chunk as it is sent, if four bytes can hold it. -/
def lengthField (length : Nat) : Except Error Bytes :=
  if length < UInt32.size then .ok (Bytes.ofNatLE 4 length)
  else .error (.invalidLength "stream chunk" (UInt32.size - 1) length)

/-- Encrypts one chunk and sends it with its length. -/
def sendChunk (plaintext : Bytes) (tag : ChunkTag) : Session Writer Unit := do
  let chunk ← onStream (SecretStream.push plaintext (← get).ad tag)
  onSink (Sink.send "stream write" (← lengthField chunk.length))
  onSink (Sink.send "stream write" chunk)
  modify fun w => { w with chunks := w.chunks + 1 }
  emit (.chunkWritten (← get).chunks chunk.length)

/-- Sends `count` chunks from the front of the buffer. -/
def sendFull : (count : Nat) → Session Writer Unit
  | 0 => pure ()
  | count + 1 => do
    let w ← get
    set { w with buffer := w.buffer.drop w.chunkSize }
    sendChunk (w.buffer.take w.chunkSize) .message
    sendFull count

/-- Takes more plaintext and sends every chunk that is full. -/
def write (data : Bytes) : Session Writer Unit := do
  modify fun w => { w with buffer := w.buffer ++ data }
  let w ← get
  sendFull (w.buffer.length / w.chunkSize)

/-- Sends what is left as the final chunk. Nothing can be written afterwards. -/
def finalize : Session Writer Unit := do
  let w ← get
  set { w with buffer := [] }
  sendChunk w.buffer .final
  onSink (Sink.sync "stream flush")
  emit (.streamWritten (← get).chunks)

end Writer

end AuthEncryption
