import AuthEncryption.SecretStream.Chunk
import AuthEncryption.Transfer.Frame

/-!
# Reading a stream

A reader takes the header from its source, then one frame after the other, and
hands out the plaintext of each chunk that was accepted. Empty chunks are
skipped. After the final chunk it delivers nothing more and leaves the source
alone.
-/
namespace AuthEncryption

structure Reader where
  source : Source
  stream : SecretStream
  /-- Accepted plaintext that was not handed out yet. -/
  unread : Bytes
  /-- The longest plaintext of a chunk. -/
  limit : Nat
  ad : Bytes
  finished : Bool

namespace Reader

/-- The longest plaintext of a chunk where no limit is given. -/
def defaultLimit : Nat := 1024 * 1024

/-- Starts reading: takes the header. -/
def create (key : FixedBytes 32) (ad : Bytes) (limit : Nat) : Session Source Reader := do
  let header ← Frame.readOrTruncated SecretStream.headerSize
  let stream ← SecretStream.initPull key (← Header.ofBytes header)
  return { source := ← get, stream, unread := [], limit, ad, finished := false }

def onStream {α : Type} (op : Session SecretStream α) : Session Reader α :=
  op.focus Reader.stream fun r stream => { r with stream }

def onSource {α : Type} (op : Session Source α) : Session Reader α :=
  op.focus Reader.source fun r source => { r with source }

/-- Checks and decrypts a chunk, whose plaintext is to be handed out next. -/
def accept (chunk : Bytes) : Session Reader Unit := do
  let (plaintext, tag) ← onStream (SecretStream.pull chunk (← get).ad)
  emit (.chunkRead chunk.length tag)
  modify fun r => { r with unread := plaintext }
  if tag.isFinal then
    modify ({ · with finished := true })
    emit .streamRead

/-- Reads, checks and decrypts the next chunk. -/
def nextChunk : Session Reader Unit := do
  let chunk ← onSource (Frame.readFrame (← get).limit)
  accept chunk

theorem source_of_accept (chunk : Bytes) (r : Reader) (log : Log) :
    ((accept chunk).runFrom r log).state.source = r.source := by
  have hget : (get : Session Reader Reader).runFrom r log = { result := .ok r, state := r, log } :=
    rfl
  simp only [accept, Session.runFrom_bind, hget, onStream, Session.runFrom_focus]
  rcases (SecretStream.pull chunk r.ad).runFrom r.stream log with ⟨result, stream, log₁⟩
  cases result with
  | error f => rfl
  | ok pulled => cases hf : pulled.2.isFinal <;> simp only [hf] <;> rfl

/-- A chunk that is accepted took at least 21 bytes from the source. -/
theorem remaining_of_nextChunk {r r' : Reader} {log log' : Log}
    (h : nextChunk.runFrom r log = { result := .ok (), state := r', log := log' }) :
    r'.source.remaining + 21 ≤ r.source.remaining := by
  have hget : (get : Session Reader Reader).runFrom r log = { result := .ok r, state := r, log } :=
    rfl
  simp only [nextChunk, Session.runFrom_bind, hget, onSource, Session.runFrom_focus] at h
  rcases hf : (Frame.readFrame r.limit).runFrom r.source log with ⟨result, source, log₁⟩
  rw [hf] at h
  cases result with
  | error f => cases h
  | ok chunk =>
    have hs := source_of_accept chunk { r with source } log₁
    simp only at h
    rw [h] at hs
    have := Frame.remaining_of_readFrame hf
    simp only at hs
    rw [hs]
    omega

/-- Accepts chunks until there is plaintext to hand out or the stream has ended. -/
def skipToPlaintext (r : Reader) (log : Log) : Outcome Reader Unit :=
  if r.unread.isEmpty && !r.finished then
    match _h : nextChunk.runFrom r log with
    | { result := .ok (), state, log } => skipToPlaintext state log
    | { result := .error f, state, log } => { result := .error f, state, log }
  else
    { result := .ok (), state := r, log }
termination_by r.source.remaining
decreasing_by
  have := remaining_of_nextChunk _h
  omega

/-- Hands out at most `n` bytes of plaintext: none only if the stream has ended,
or if none were asked for. -/
def read (n : Nat) : Session Reader Bytes := do
  if 0 < n then
    Session.ofRun skipToPlaintext
  let r ← get
  set { r with unread := r.unread.drop n }
  return r.unread.take n

theorem source_of_skipToPlaintext (r : Reader) (log : Log) :
    (skipToPlaintext r log).state.source = r.source ∧ (skipToPlaintext r log).state = r ∨
      (skipToPlaintext r log).state.source.remaining < r.source.remaining ∨
        ∃ f, (skipToPlaintext r log).result = .error f := by
  fun_induction skipToPlaintext r log with
  | case1 r log hc state log' h ih =>
    have := remaining_of_nextChunk h
    rcases ih with ⟨_, hs⟩ | hs | hs
    · right; left; rw [hs]; omega
    · right; left; omega
    · right; right; exact hs
  | case2 r log hc f state log' h => right; right; exact ⟨f, rfl⟩
  | case3 r log hc => left; exact ⟨rfl, rfl⟩

/-- A read that hands something out brings the end of the stream nearer: bytes
are gone from the source, or from what was decrypted already. -/
theorem progress_of_read {n : Nat} {r r' : Reader} {log log' : Log} {bytes : Bytes}
    (h : (read n).runFrom r log = { result := .ok bytes, state := r', log := log' })
    (nonempty : bytes ≠ []) :
    r'.source.remaining < r.source.remaining ∨
      r'.source.remaining = r.source.remaining ∧ r'.unread.length < r.unread.length := by
  have take_ne {m : Nat} {bs : Bytes} (hb : bs.take m ≠ []) : (bs.drop m).length < bs.length := by
    cases m with
    | zero => simp at hb
    | succ m => cases bs with
      | nil => simp at hb
      | cons b bs => simp only [List.drop_succ_cons, List.length_drop, List.length_cons]; omega
  unfold read at h
  split at h
  · rw [Session.runFrom_bind, Session.runFrom_ofRun] at h
    rcases hs : skipToPlaintext r log with ⟨result, state, log₁⟩
    have hp := source_of_skipToPlaintext r log
    rw [hs] at h hp
    cases result with
    | error f => cases h
    | ok u =>
      cases h
      rcases hp with ⟨hsource, hstate⟩ | hlt | ⟨f, hf⟩
      · right; subst hstate; exact ⟨rfl, take_ne nonempty⟩
      · left; exact hlt
      · cases hf
  · cases h
    right; exact ⟨rfl, take_ne nonempty⟩

end Reader

end AuthEncryption
