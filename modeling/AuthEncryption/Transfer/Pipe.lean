import AuthEncryption.Transfer.Writer
import AuthEncryption.Transfer.Reader

/-!
# From a source to a sink

`encrypt` writes all that a source delivers as one stream; `decrypt` reads a
stream and passes its plaintext on, chunk by chunk as each one is accepted. Both
stop at the first failure, and what the sink had taken stays there.
-/
namespace AuthEncryption.Pipe

/-- How many bytes are passed on at a time. -/
def portion : Nat := 8192

/-- Writes all that a source delivers. Interruptions are passed over. -/
def pump (source : Source) : Session Writer Unit :=
  match _h : source.read portion with
  | (.ok [], _) => pure ()
  | (.ok (b :: bs), rest) => do
    Writer.write (b :: bs)
    pump rest
  | (.error .interrupted, rest) => pump rest
  | (.error kind, _) => throw (.error (.io "stream read" kind))
termination_by source.weight
decreasing_by
  all_goals exact Source.weight_of_read (by decide) (by simp) _h

/-- Encrypts all that a source delivers under a random header. -/
def encrypt (key : FixedBytes 32) (ad : Bytes) (random : RandomSource) (source : Source) :
    Session Sink Unit := do
  let writer ← Writer.createRandom key random ad Writer.defaultChunkSize
  (do pump source; Writer.finalize : Session Writer Unit).focus
    (fun sink => { writer with sink }) (fun _ w => w.sink)

/-- Passes on all the plaintext of a stream. -/
def drain (reader : Reader) (sink : Sink) (log : Log) : Outcome Sink Unit :=
  match _h : (Reader.read portion).runFrom reader log with
  | { result := .error f, state := _, log } => { result := .error f, state := sink, log }
  | { result := .ok [], state := _, log } => { result := .ok (), state := sink, log }
  | { result := .ok (b :: bs), state := reader, log } =>
    match (Sink.send "stream write" (b :: bs)).runFrom sink log with
    | { result := .error f, state := sink, log } => { result := .error f, state := sink, log }
    | { result := .ok (), state := sink, log } => drain reader sink log
termination_by (reader.source.remaining, reader.unread.length)
decreasing_by
  rcases Reader.progress_of_read _h (by simp) with hlt | ⟨heq, hlt⟩
  · exact Prod.Lex.left _ _ hlt
  · rw [heq]; exact Prod.Lex.right _ hlt

/-- Decrypts the stream that a source delivers. -/
def decrypt (key : FixedBytes 32) (ad : Bytes) (source : Source) : Session Sink Unit := do
  let create := Reader.create key ad Reader.defaultLimit
  let reader ← create.focus (fun _ => source) fun sink _ => sink
  Session.ofRun (drain reader)
  Sink.sync "stream flush"

end AuthEncryption.Pipe
