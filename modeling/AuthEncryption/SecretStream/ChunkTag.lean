import AuthEncryption.Check
import AuthEncryption.Random

/-!
# Chunk tags and headers

Every chunk of a stream carries one of four tags, encrypted as one byte. A
header is sent in the clear ahead of the first chunk.
-/
namespace AuthEncryption

/-- What a chunk means for the stream. -/
inductive ChunkTag where
  | message
  /-- The end of a message within the stream. -/
  | push
  /-- The stream is rekeyed after this chunk. -/
  | rekey
  /-- The last chunk; the stream is rekeyed after it too. -/
  | final
deriving DecidableEq, Repr

namespace ChunkTag

def toByte : ChunkTag → UInt8
  | message => 0
  | push => 1
  | rekey => 2
  | final => 3

def ofByte? (b : UInt8) : Option ChunkTag :=
  if b = 0 then some message
  else if b = 1 then some push
  else if b = 2 then some rekey
  else if b = 3 then some final
  else none

@[simp] theorem ofByte?_toByte (tag : ChunkTag) : ofByte? tag.toByte = some tag := by
  cases tag <;> rfl

/-- Whether the stream is rekeyed after a chunk with this tag: its second bit. -/
def shouldRekey (tag : ChunkTag) : Bool := tag.toByte &&& 2 != 0

def isFinal : ChunkTag → Bool
  | final => true
  | _ => false

def name : ChunkTag → String
  | message => "Message"
  | push => "Push"
  | rekey => "Rekey"
  | final => "Final"

end ChunkTag

/-- The public start of a stream. -/
abbrev Header := FixedBytes 24

namespace Header

/-- The header with these bytes, if there are 24. -/
def ofBytes (bs : Bytes) : Except Error Header := Check.fixed "secretstream header" 24 bs

def random : Random Header := Random.fixed 24

def text (header : Header) : String := s!"Header({Bytes.listing header.toList})"

end Header

end AuthEncryption
