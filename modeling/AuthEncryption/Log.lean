import AuthEncryption.SecretStream.ChunkTag

/-!
# Log records

What streams report while they run. A record holds lengths, counts and tags,
and nothing else of what passes through, so its text cannot give away more.
-/
namespace AuthEncryption

/-- How much a record matters. -/
inductive Level where
  | error
  | warn
  | info
  | debug
  | trace
deriving DecidableEq, Repr

def Level.name : Level → String
  | error => "ERROR"
  | warn => "WARN"
  | info => "INFO"
  | debug => "DEBUG"
  | trace => "TRACE"

/-- The two ends of a stream. -/
inductive Direction where
  | push
  | pull
deriving DecidableEq, Repr

def Direction.name : Direction → String
  | push => "push"
  | pull => "pull"

inductive Record where
  | initialized (direction : Direction)
  | rekeyed
  | finalChunk
  | pushed (bytes : Nat) (tag : ChunkTag)
  | pulled (bytes : Nat) (tag : ChunkTag)
  | rejected (bytes : Nat)
  | unknownTag
  | chunkWritten (index bytes : Nat)
  | streamWritten (chunks : Nat)
  | chunkRead (bytes : Nat) (tag : ChunkTag)
  | streamRead
  | inputEnded
deriving DecidableEq, Repr

namespace Record

def level : Record → Level
  | initialized _ | rekeyed | finalChunk | streamWritten _ | streamRead => .debug
  | pushed .. | pulled .. | chunkWritten .. | chunkRead .. => .trace
  | rejected _ | unknownTag | inputEnded => .warn

def message : Record → String
  | initialized direction => s!"secretstream: initialized for {direction.name}"
  | rekeyed => "secretstream: rekeyed"
  | finalChunk => "secretstream: final chunk processed"
  | pushed bytes tag => s!"secretstream push: {bytes} bytes, tag {tag.name}"
  | pulled bytes tag => s!"secretstream pull: {bytes} bytes, tag {tag.name}"
  | rejected bytes => s!"secretstream pull: chunk of {bytes} bytes failed authentication"
  | unknownTag => "secretstream pull: unknown chunk tag"
  | chunkWritten index bytes => s!"stream writer: chunk {index} of {bytes} bytes"
  | streamWritten chunks => s!"stream writer: finalized after {chunks} chunks"
  | chunkRead bytes tag => s!"stream reader: chunk of {bytes} bytes, tag {tag.name}"
  | streamRead => "stream reader: final chunk authenticated"
  | inputEnded => "stream reader: input ended before the final chunk"

def line (record : Record) : String := s!"{record.level.name} {record.message}"

end Record

/-- The reports so far, the latest first. -/
abbrev Log := List Record

/-- The reports in the order in which they were made. -/
def Log.inOrder (log : Log) : List Record := log.reverse

/-- A computation that reports. -/
abbrev Logged (α : Type) := StateM Log α

def emit (record : Record) : Logged Unit := modify (record :: ·)

end AuthEncryption
