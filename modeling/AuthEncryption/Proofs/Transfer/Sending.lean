import AuthEncryption.Proofs.SecretStream.Order
import AuthEncryption.Proofs.Transfer.Delivery
import AuthEncryption.Transfer.Writer

/-!
# What reaches a sink

A writer sends its chunks as frames, one after the other, and stops at the first failure.
Whatever the sink does, either all the frames of a run were taken, or a front of them that
is not all of them. This is shown for one chunk and then follows for the full chunks of a
write, for a sequence of writes and for the end of a stream. The strings that a writer is
given are one text, however it is cut: what was sent so far is the frames of the pieces
that this text fills, and the buffer holds what they leave over.
-/
namespace AuthEncryption

open Bytes (ShortOf)

/-! ## Frames of a run of chunks -/

namespace SecretStream

/-- The state behind a run of chunks. -/
def afterAll (s : SecretStream) (outs : List Outgoing) : SecretStream := outs.foldl after s

/-- The frames of a run of chunks. -/
def frames (s : SecretStream) : List Outgoing → Bytes
  | [] => []
  | out :: rest => Frame.ofChunk (s.outChunk out) ++ frames (s.after out) rest

theorem frames_append (s : SecretStream) (outs rest : List Outgoing) :
    s.frames (outs ++ rest) = s.frames outs ++ (s.afterAll outs).frames rest := by
  induction outs generalizing s with
  | nil => rfl
  | cons out outs ih => rw [List.cons_append, frames, frames, ih, List.append_assoc]; rfl

/-- A run of chunks ends the stream if one of them is final. -/
theorem finalized_afterAll (s : SecretStream) (outs : List Outgoing) :
    (s.afterAll outs).finalized = (s.finalized || outs.any (·.tag.isFinal)) := by
  induction outs generalizing s with
  | nil => simp [afterAll]
  | cons out outs ih =>
    have hrest := ih (s.after out)
    rw [after, finalized_next, Bool.or_assoc] at hrest
    rw [List.any_cons]
    exact hrest

/-- Chunks that are not final leave a stream open. -/
theorem unfinished_afterAll {s : SecretStream} {outs : List Outgoing}
    (hgoing : ∀ out ∈ outs, out.tag.isFinal = false) (hopen : s.finalized = false) :
    (s.afterAll outs).finalized = false := by
  rw [finalized_afterAll, hopen, Bool.false_or, List.any_eq_false]
  intro out hmem
  simp [hgoing out hmem]

/-- A plaintext whose chunk has a length of four bytes is within the limit of a chunk. -/
theorem le_messageMax {n : Nat} (h : n + overhead < UInt32.size) : n ≤ messageMax := by
  have hlimit : UInt32.size ≤ messageMax := by decide
  omega

theorem frames_singleton (s : SecretStream) (out : Outgoing) :
    s.frames [out] = Frame.ofChunk (s.outChunk out) := List.append_nil _

theorem runFrom_initPush {σ : Type} (key : FixedBytes 32) (header : Header) (state : σ)
    (log : Log) :
    (liftM (initPush key header) : Session σ SecretStream).runFrom state log =
      { result := .ok (ofHeader key header), state, log := .initialized .push :: log } := rfl

end SecretStream

open SecretStream

/-! ## A sink that may fail -/

namespace Sink

/-- A sink that fails has taken less than it was offered. -/
theorem deliver_cases (events : List SinkEvent) (data : Bytes) :
    (∃ rest, deliver events data = (.ok (), data, rest)) ∨
      ∃ kind front rest, deliver events data = (.error kind, front, rest) ∧ ShortOf front data := by
  fun_induction deliver events data with
  | case1 events => exact Or.inl ⟨events, rfl⟩
  | case2 data hdata => exact Or.inl ⟨[], rfl⟩
  | case3 rest data hdata => exact Or.inr ⟨_, _, _, rfl, .of_ne_nil hdata⟩
  | case4 count rest data hdata hcount result more events heq ih =>
    rcases ih with ⟨last, hall⟩ | ⟨kind, front, last, hfail, hfront⟩
    · rw [heq] at hall
      cases hall
      exact Or.inl ⟨events, by rw [List.take_append_drop]⟩
    · rw [heq] at hfail
      cases hfail
      have hwhole := hfront.append_left (data.take count)
      rw [List.take_append_drop] at hwhole
      exact Or.inr ⟨_, _, _, rfl, hwhole⟩
  | case5 rest data hdata ih => exact ih
  | case6 kind rest data hdata hkind => exact Or.inr ⟨_, _, _, rfl, .of_ne_nil hdata⟩

/-- A string is sent as a whole, or the sink fails within it. -/
theorem send_cases (sink : Sink) (context : String) (data : Bytes) :
    (∃ after : Sink, (∀ log, (send context data).runFrom sink log =
        { result := .ok (), state := after, log }) ∧
      after.taken = sink.taken ++ data ∧ (sink.Smooth → after.Smooth)) ∨
    ∃ kind front, ∃ after : Sink, (∀ log, (send context data).runFrom sink log =
        { result := .error (.error (.io context kind)), state := after, log }) ∧
      after.taken = sink.taken ++ front ∧ ShortOf front data ∧ ¬ sink.Smooth := by
  rcases deliver_cases sink.events data with ⟨rest, hall⟩ | ⟨kind, front, rest, hfail, hfront⟩
  · have hrun : ∀ log, (send context data).runFrom sink log =
        { result := .ok (), state := { sink.keep data with events := rest }, log } := by
      intro log
      simp only [send, Session.runFrom_ofRun, writeAll, hall]
      rfl
    refine Or.inl ⟨_, hrun, taken_keep sink data, fun hs => ?_⟩
    obtain ⟨after, hsmooth, hafter, -⟩ := runFrom_send_smooth hs context data
    have hsame := (hrun []).symm.trans (hsmooth [])
    cases hsame
    exact hafter
  · have hrun : ∀ log, (send context data).runFrom sink log =
        { result := .error (.error (.io context kind))
          state := { sink.keep front with events := rest }, log } := by
      intro log
      simp only [send, Session.runFrom_ofRun, writeAll, hfail]
      rfl
    refine Or.inr ⟨kind, front, _, hrun, taken_keep sink front, hfront, fun hs => ?_⟩
    obtain ⟨after, hsmooth, -, -⟩ := runFrom_send_smooth hs context data
    have hsame := (hrun []).symm.trans (hsmooth [])
    cases hsame

theorem runFrom_sync (sink : Sink) (context : String) (log : Log) :
    (sync context).runFrom sink log =
      { result := sink.flush.mapError fun kind => .error (.io context kind)
        state := sink
        log } := by
  simp only [sync, Session.runFrom_bind, Session.runFrom_get]
  cases sink.flush <;> rfl

end Sink

namespace Writer

/-! ## The chunks of a text -/

/-- A chunk that does not end the stream. -/
def message (ad piece : Bytes) : Outgoing := { plaintext := piece, ad, tag := .message }

theorem goesOn_messages (ad : Bytes) (pieces : List Bytes) :
    ∀ out ∈ pieces.map (message ad), out.tag.isFinal = false := by
  simp [message, ChunkTag.isFinal]

/-- The chunks that leave before the end of a text. -/
def fullChunks (ad : Bytes) (c : Nat) (text : Bytes) : List Outgoing :=
  (Bytes.fullPieces c text).map (message ad)

/-- The chunks of a text. The final one is shorter than the others, and may be empty. -/
def chunksOf (ad : Bytes) (c : Nat) (text : Bytes) : List Outgoing :=
  fullChunks ad c text ++ [{ plaintext := Bytes.leftover c text, ad, tag := .final }]

theorem length_of_mem_fullChunks {ad : Bytes} {c : Nat} {text : Bytes} {out : Outgoing}
    (h : out ∈ fullChunks ad c text) : out.plaintext.length = c := by
  obtain ⟨piece, hpiece, rfl⟩ := List.mem_map.mp h
  exact Bytes.length_of_mem_fullPieces hpiece

/-- No chunk of a text is longer than the size at which it was cut. -/
theorem of_mem_chunksOf {ad : Bytes} {c : Nat} (hc : 0 < c) {t : Bytes} {out : Outgoing}
    (h : out ∈ chunksOf ad c t) : out.ad = ad ∧ out.plaintext.length ≤ c := by
  rcases List.mem_append.mp h with hfull | hlast
  · obtain ⟨piece, hpiece, rfl⟩ := List.mem_map.mp hfull
    exact ⟨rfl, Nat.le_of_eq (Bytes.length_of_mem_fullPieces hpiece)⟩
  · obtain rfl := List.mem_singleton.mp hlast
    have hlt := Nat.mod_lt t.length hc
    refine ⟨rfl, ?_⟩
    rw [Bytes.length_leftover]
    omega

theorem size_of_mem_chunksOf {ad : Bytes} {c : Nat} (hc : 0 < c)
    (hsize : c + overhead < UInt32.size) {t : Bytes} {out : Outgoing}
    (h : out ∈ chunksOf ad c t) : out.plaintext.length + overhead < UInt32.size :=
  Nat.lt_of_le_of_lt (Nat.add_le_add_right (of_mem_chunksOf hc h).2 overhead) hsize

/-! ## All of a run of chunks, or a front of it -/

/-- What a writer `w` is after the frames of some chunks were taken. -/
structure Put (w : Writer) (outs : List Outgoing) (w' : Writer) : Prop where
  taken : w'.sink.taken = w.sink.taken ++ w.stream.frames outs
  stream : w'.stream = w.stream.afterAll outs
  ad : w'.ad = w.ad
  chunkSize : w'.chunkSize = w.chunkSize
  smooth : w.sink.Smooth → w'.sink.Smooth
  sizes : ∀ out ∈ outs, out.plaintext.length + overhead < UInt32.size

/-- What a writer `w` is if sending some chunks failed: the sink did, or a chunk was too long. -/
structure Stopped (w : Writer) (outs : List Outgoing) (w' : Writer) (f : Failure) : Prop where
  taken : ∃ front, w'.sink.taken = w.sink.taken ++ front ∧ ShortOf front (w.stream.frames outs)
  cause : (∃ kind, f = .error (.io "stream write" kind)) ∧ ¬ w.sink.Smooth ∨
    ∃ out ∈ outs, UInt32.size ≤ out.plaintext.length + overhead
  /-- Only a final chunk ends the stream, taken or not. -/
  unfinished : (∀ out ∈ outs, out.tag.isFinal = false) → w.stream.finalized = false →
    w'.stream.finalized = false

/-- How an operation that sends some chunks ends, and what it leaves in the buffer if it ends
well. -/
inductive Sends (w : Writer) (outs : List Outgoing) (buffer : Bytes) : Outcome Writer Unit → Prop
  | all {w' : Writer} {log : Log} : Put w outs w' → w'.buffer = buffer →
      Sends w outs buffer { result := .ok (), state := w', log }
  | stopped {w' : Writer} {f : Failure} {log : Log} : Stopped w outs w' f →
      Sends w outs buffer { result := .error f, state := w', log }

variable {w w₁ w₂ : Writer} {outs rest : List Outgoing} {f : Failure}

theorem put_nil (w : Writer) : Put w [] w :=
  ⟨(List.append_nil _).symm, rfl, rfl, rfl, id, fun _ h => absurd h List.not_mem_nil⟩

namespace Put

theorem trans (h : Put w outs w₁) (h' : Put w₁ rest w₂) : Put w (outs ++ rest) w₂ where
  taken := by rw [h'.taken, h.taken, h.stream, frames_append, List.append_assoc]
  stream := by rw [h'.stream, h.stream, afterAll, afterAll, afterAll, List.foldl_append]
  ad := h'.ad.trans h.ad
  chunkSize := h'.chunkSize.trans h.chunkSize
  smooth := h'.smooth ∘ h.smooth
  sizes out hmem := (List.mem_append.mp hmem).elim (h.sizes out) (h'.sizes out)

/-- What was taken does not depend on the buffer. -/
theorem of_withBuffer {buffer : Bytes} (h : Put { w with buffer } outs w₁) : Put w outs w₁ :=
  ⟨h.taken, h.stream, h.ad, h.chunkSize, h.smooth, h.sizes⟩

/-- A sink whose flush fails does not take everything. -/
theorem not_smooth (h : Put w outs w₁) {kind : IoKind}
    (hflush : w₁.sink.flushFailure = some kind) : ¬ w.sink.Smooth := by
  intro hs
  have hnone := (h.smooth hs).flush
  rw [hflush] at hnone
  cases hnone

theorem isFront (h : Put w outs w₁) : w.sink.taken <+: w₁.sink.taken :=
  h.taken ▸ List.prefix_append ..

theorem unfinished (h : Put w outs w₁) (hgoing : ∀ out ∈ outs, out.tag.isFinal = false)
    (hopen : w.stream.finalized = false) : w₁.stream.finalized = false := by
  rw [h.stream]
  exact unfinished_afterAll hgoing hopen

end Put

namespace Stopped

theorem append (h : Stopped w outs w₁ f) (rest : List Outgoing) :
    Stopped w (outs ++ rest) w₁ f where
  taken := by
    obtain ⟨front, htaken, hfront⟩ := h.taken
    refine ⟨front, htaken, ?_⟩
    rw [frames_append]
    exact hfront.append _
  cause := h.cause.imp_right fun ⟨out, hmem, hsize⟩ =>
    ⟨out, List.mem_append_left rest hmem, hsize⟩
  unfinished hgoing := h.unfinished fun out hmem => hgoing out (List.mem_append_left rest hmem)

theorem of_withBuffer {buffer : Bytes} (h : Stopped { w with buffer } outs w₁ f) :
    Stopped w outs w₁ f := ⟨h.taken, h.cause, h.unfinished⟩

end Stopped

/-- A failure behind chunks that were taken. -/
theorem Put.stopped (h : Put w outs w₁) (h' : Stopped w₁ rest w₂ f) :
    Stopped w (outs ++ rest) w₂ f where
  taken := by
    obtain ⟨front, htaken, hfront⟩ := h'.taken
    refine ⟨w.stream.frames outs ++ front, ?_, ?_⟩
    · rw [htaken, h.taken, List.append_assoc]
    · rw [frames_append, ← h.stream]
      exact hfront.append_left _
  cause := h'.cause.imp (fun ⟨hkind, hrough⟩ => ⟨hkind, hrough ∘ h.smooth⟩)
    fun ⟨out, hmem, hsize⟩ => ⟨out, List.mem_append_right outs hmem, hsize⟩
  unfinished hgoing hopen := by
    refine h'.unfinished (fun out hmem => hgoing out (List.mem_append_right outs hmem)) ?_
    exact h.unfinished (fun out hmem => hgoing out (List.mem_append_left rest hmem)) hopen

namespace Sends

variable {buffer buffer' : Bytes} {outcome : Outcome Writer Unit}

theorem of_withBuffer {old : Bytes} (h : Sends { w with buffer := old } outs buffer outcome) :
    Sends w outs buffer outcome := by
  cases h with
  | all hput hbuffer => exact .all hput.of_withBuffer hbuffer
  | stopped hstopped => exact .stopped hstopped.of_withBuffer

/-- What a sink had taken stays taken. -/
theorem isFront (h : Sends w outs buffer outcome) :
    w.sink.taken <+: outcome.state.sink.taken := by
  cases h with
  | all hput hbuffer => exact hput.isFront
  | stopped hstopped =>
    obtain ⟨front, htaken, -⟩ := hstopped.taken
    exact htaken ▸ List.prefix_append ..

theorem unfinished (h : Sends w outs buffer outcome)
    (hgoing : ∀ out ∈ outs, out.tag.isFinal = false) (hopen : w.stream.finalized = false) :
    outcome.state.stream.finalized = false := by
  cases h with
  | all hput hbuffer => exact hput.unfinished hgoing hopen
  | stopped hstopped => exact hstopped.unfinished hgoing hopen

/-- Chunks that are not too long are all sent to a sink that takes everything. -/
theorem of_smooth (h : Sends w outs buffer outcome) (hs : w.sink.Smooth)
    (hsizes : ∀ out ∈ outs, out.plaintext.length + overhead < UInt32.size) :
    ∃ w' log', outcome = { result := .ok (), state := w', log := log' } ∧ Put w outs w' ∧
      w'.buffer = buffer := by
  cases h with
  | all hput hbuffer => exact ⟨_, _, rfl, hput, hbuffer⟩
  | stopped hstopped =>
    rcases hstopped.cause with ⟨-, hrough⟩ | ⟨out, hmem, hlong⟩
    · exact absurd hs hrough
    · exact absurd (hsizes out hmem) (Nat.not_lt.mpr hlong)

/-- Chunks sent behind others. -/
theorem of_put (h : Put w outs w₁) (h' : Sends w₁ rest buffer outcome) :
    Sends w (outs ++ rest) buffer outcome := by
  cases h' with
  | all hput hbuffer => exact .all (h.trans hput) hbuffer
  | stopped hstopped => exact .stopped (h.stopped hstopped)

/-- Two operations that send chunks, one after the other. -/
theorem bind {op : Session Writer Unit} {next : Unit → Session Writer Unit} {log : Log}
    (h : Sends w outs buffer (op.runFrom w₁ log))
    (hnext : ∀ w₂ log', Put w outs w₂ → w₂.buffer = buffer →
      Sends w (outs ++ rest) buffer' ((next ()).runFrom w₂ log')) :
    Sends w (outs ++ rest) buffer' ((op >>= next).runFrom w₁ log) := by
  rw [Session.runFrom_bind]
  generalize op.runFrom w₁ log = first at h
  cases h with
  | all hput hbuffer => exact hnext _ _ hput hbuffer
  | stopped hstopped => exact .stopped (hstopped.append rest)

end Sends

/-! ## One chunk -/

/-- A chunk whose length four bytes cannot hold is not sent. -/
theorem sends_sendChunk_of_long (hopen : w.stream.finalized = false) {plaintext : Bytes}
    (hlong : UInt32.size ≤ plaintext.length + overhead) (tag : ChunkTag) (log : Log) :
    Sends w [{ plaintext, ad := w.ad, tag }] w.buffer
      ((sendChunk plaintext tag).runFrom w log) := by
  have hcause : ∃ out ∈ [({ plaintext, ad := w.ad, tag } : Outgoing)],
      UInt32.size ≤ out.plaintext.length + overhead := ⟨_, List.mem_singleton_self _, hlong⟩
  have hnone : ShortOf [] (w.stream.frames [{ plaintext, ad := w.ad, tag }]) := by
    rw [frames_singleton]
    exact .of_ne_nil (Frame.ofChunk_ne_nil _)
  by_cases hmax : plaintext.length ≤ messageMax
  · have hpush := w.stream.runFrom_push hopen hmax w.ad tag log
    have hfield : lengthField (w.stream.chunk plaintext w.ad tag).length =
        .error (.invalidLength "stream chunk" (UInt32.size - 1) (plaintext.length + overhead)) := by
      rw [length_chunk]
      exact if_neg (Nat.not_lt.mpr hlong)
    simp only [sendChunk, onStream, Session.runFrom_bind, Session.runFrom_get,
      Session.runFrom_focus, Session.runFrom_liftError, Failure.mapError_error, hpush, hfield]
    exact .stopped ⟨⟨[], (List.append_nil _).symm, hnone⟩, Or.inr hcause, unfinished_afterAll⟩
  · obtain ⟨f, hpush⟩ := w.stream.runFrom_push_of_gt (Nat.lt_of_not_le hmax) w.ad tag log
    simp only [sendChunk, onStream, Session.runFrom_bind, Session.runFrom_get,
      Session.runFrom_focus, hpush]
    exact .stopped ⟨⟨[], (List.append_nil _).symm, hnone⟩, Or.inr hcause, fun _ => id⟩

/-- The step lemma: a chunk is sent as its frame, or the sink fails within it. -/
theorem sends_sendChunk (hopen : w.stream.finalized = false) (plaintext : Bytes) (tag : ChunkTag)
    (log : Log) :
    Sends w [{ plaintext, ad := w.ad, tag }] w.buffer
      ((sendChunk plaintext tag).runFrom w log) := by
  by_cases hsize : plaintext.length + overhead < UInt32.size
  · have hpush := w.stream.runFrom_push hopen (le_messageMax hsize) w.ad tag log
    obtain ⟨chunk, hchunk⟩ : ∃ chunk, chunk = w.stream.chunk plaintext w.ad tag := ⟨_, rfl⟩
    rw [← hchunk] at hpush
    have hfield : lengthField chunk.length = .ok (Bytes.ofNatLE 4 chunk.length) :=
      if_pos (by rwa [hchunk, length_chunk])
    have hframe : w.stream.frames [{ plaintext, ad := w.ad, tag }] =
        Bytes.ofNatLE 4 chunk.length ++ chunk := by
      rw [frames_singleton, hchunk]
      rfl
    have hsizes : ∀ out ∈ [({ plaintext, ad := w.ad, tag } : Outgoing)],
        out.plaintext.length + overhead < UInt32.size := by simpa using hsize
    simp only [sendChunk, onStream, onSink, Session.runFrom_bind, Session.runFrom_get,
      Session.runFrom_focus, Session.runFrom_liftError, Session.runFrom_modify,
      Session.runFrom_emit, Failure.mapError_ok, hpush, hfield]
    -- The sink fails within the length, within the chunk, or not at all.
    rcases w.sink.send_cases "stream write" (Bytes.ofNatLE 4 chunk.length) with
      ⟨sink₁, hsend₁, htaken₁, hsmooth₁⟩ | ⟨kind, front, sink₁, hsend₁, htaken₁, hfront, hrough⟩
    · rcases sink₁.send_cases "stream write" chunk with
        ⟨sink₂, hsend₂, htaken₂, hsmooth₂⟩ | ⟨kind, front, sink₂, hsend₂, htaken₂, hfront, hrough⟩
      · simp only [hsend₁, hsend₂]
        refine .all ⟨?_, rfl, rfl, rfl, hsmooth₂ ∘ hsmooth₁, hsizes⟩ rfl
        rw [hframe, htaken₂, htaken₁, List.append_assoc]
      · simp only [hsend₁, hsend₂]
        refine .stopped ⟨⟨Bytes.ofNatLE 4 chunk.length ++ front, ?_, ?_⟩,
          Or.inl ⟨⟨kind, rfl⟩, hrough ∘ hsmooth₁⟩, unfinished_afterAll⟩
        · rw [htaken₂, htaken₁, List.append_assoc]
        · rw [hframe]
          exact hfront.append_left _
    · simp only [hsend₁]
      refine .stopped ⟨⟨front, htaken₁, ?_⟩, Or.inl ⟨⟨kind, rfl⟩, hrough⟩, unfinished_afterAll⟩
      rw [hframe]
      exact hfront.append chunk
  · exact sends_sendChunk_of_long hopen (Nat.le_of_not_lt hsize) tag log

/-- Full chunks leave the front of the buffer. -/
theorem sends_sendFull (hopen : w.stream.finalized = false) (count : Nat) (log : Log) :
    Sends w ((Bytes.takePieces w.chunkSize count w.buffer).map (message w.ad))
      (w.buffer.drop (w.chunkSize * count)) ((sendFull count).runFrom w log) := by
  induction count generalizing w log with
  | zero => exact .all (put_nil w) rfl
  | succ count ih =>
    simp only [sendFull, Session.runFrom_bind, Session.runFrom_get, Session.runFrom_set]
    rw [← Session.runFrom_bind, Bytes.takePieces, List.map_cons, ← List.singleton_append]
    refine .bind (sends_sendChunk (w := { w with buffer := w.buffer.drop w.chunkSize }) hopen
      _ .message log).of_withBuffer fun w₂ log' hput hbuffer => ?_
    have hrest := Sends.of_put hput (ih (hput.unfinished (goesOn_messages _ [_]) hopen) log')
    rw [hbuffer, hput.ad, hput.chunkSize, List.drop_drop] at hrest
    rwa [Nat.mul_succ, Nat.add_comm]

/-! ## Writes and the end of a stream -/

variable {text : Bytes}

theorem fullChunks_append (ad : Bytes) {c : Nat} (hc : 0 < c) (a b : Bytes) :
    fullChunks ad c (a ++ b) = fullChunks ad c a ++ fullChunks ad c (Bytes.leftover c a ++ b) := by
  rw [fullChunks, Bytes.fullPieces_append hc, List.map_append]
  rfl

/-- What a writer `w` at the start of a text is behind that text. -/
structure Behind (w : Writer) (text : Bytes) (w' : Writer) : Prop where
  put : Put w (fullChunks w.ad w.chunkSize text) w'
  buffer : w'.buffer = Bytes.leftover w.chunkSize text

theorem behind_nil (hbuffer : w.buffer = []) : Behind w [] w := by
  have hnone : fullChunks w.ad w.chunkSize [] = [] := by
    simp [fullChunks, Bytes.fullPieces, Bytes.takePieces]
  refine ⟨?_, by simp [hbuffer, Bytes.leftover]⟩
  rw [hnone]
  exact put_nil w

/-- A write sends the full chunks of what is in the buffer already and of what it is given. -/
theorem sends_write_buffer (hopen : w.stream.finalized = false) (data : Bytes) (log : Log) :
    Sends w (fullChunks w.ad w.chunkSize (w.buffer ++ data))
      (Bytes.leftover w.chunkSize (w.buffer ++ data)) ((write data).runFrom w log) := by
  have hfull := sends_sendFull (w := { w with buffer := w.buffer ++ data }) hopen
    ((w.buffer ++ data).length / w.chunkSize) log
  simp only [write, Session.runFrom_bind, Session.runFrom_modify, Session.runFrom_get]
  exact hfull.of_withBuffer

/-- A write goes on with the text. -/
theorem sends_write (hopen : w.stream.finalized = false) (h : Behind w text w₁) (data : Bytes)
    (log : Log) :
    Sends w (fullChunks w.ad w.chunkSize (text ++ data))
      (Bytes.leftover w.chunkSize (text ++ data)) ((write data).runFrom w₁ log) := by
  have hopen₁ := h.put.unfinished (goesOn_messages _ _) hopen
  have hall := Sends.of_put h.put (sends_write_buffer hopen₁ data log)
  rw [fullChunks_append w.ad w.chunkSize_pos, Bytes.leftover_append w.chunkSize_pos]
  rwa [h.put.ad, h.put.chunkSize, h.buffer] at hall

/-- The run lemma: all the writes go on with the text, up to the first failure. -/
theorem sends_writes (hopen : w.stream.finalized = false) (h : Behind w text w₁)
    (writes : List Bytes) (log : Log) :
    Sends w (fullChunks w.ad w.chunkSize (text ++ writes.flatten))
      (Bytes.leftover w.chunkSize (text ++ writes.flatten))
      ((forM writes write).runFrom w₁ log) := by
  induction writes generalizing text w₁ log with
  | nil =>
    rw [List.flatten_nil, List.append_nil]
    exact .all h.put h.buffer
  | cons data writes ih =>
    rw [List.forM_cons, List.flatten_cons, ← List.append_assoc,
      fullChunks_append w.ad w.chunkSize_pos]
    refine (sends_write hopen h data log).bind fun w₂ log' hput hbuffer => ?_
    rw [← fullChunks_append w.ad w.chunkSize_pos]
    exact ih ⟨hput, hbuffer⟩ log'

/-- The end of a stream sends the buffer as the final chunk. Only then the sink is flushed. -/
theorem sends_finalize_buffer (hopen : w.stream.finalized = false) (log : Log) :
    Sends w [{ plaintext := w.buffer, ad := w.ad, tag := .final }] [] (finalize.runFrom w log) ∨
      ∃ kind w₂ log', finalize.runFrom w log =
          { result := .error (.error (.io "stream flush" kind)), state := w₂, log := log' } ∧
        Put w [{ plaintext := w.buffer, ad := w.ad, tag := .final }] w₂ ∧
        w₂.sink.flushFailure = some kind := by
  have hlast : Sends w [{ plaintext := w.buffer, ad := w.ad, tag := .final }] []
      ((sendChunk w.buffer .final).runFrom { w with buffer := [] } log) :=
    (sends_sendChunk (w := { w with buffer := [] }) hopen w.buffer .final log).of_withBuffer
  simp only [finalize, Session.runFrom_bind, Session.runFrom_get, Session.runFrom_set]
  generalize (sendChunk w.buffer .final).runFrom { w with buffer := [] } log = outcome at hlast
  cases hlast with
  | @all w₂ log₂ hput hbuffer =>
    simp only [onSink, Session.runFrom_focus, Session.runFrom_emit, Sink.runFrom_sync, Sink.flush]
    cases hflush : w₂.sink.flushFailure with
    | none => exact Or.inl (.all hput hbuffer)
    | some kind => exact Or.inr ⟨kind, w₂, log₂, rfl, hput, hflush⟩
  | stopped hstopped => exact Or.inl (.stopped hstopped)

/-- The end of a stream sends the rest of the text. -/
theorem sends_finalize (hopen : w.stream.finalized = false) (h : Behind w text w₁) (log : Log) :
    Sends w (chunksOf w.ad w.chunkSize text) [] (finalize.runFrom w₁ log) ∨
      ∃ kind w₂ log', finalize.runFrom w₁ log =
          { result := .error (.error (.io "stream flush" kind)), state := w₂, log := log' } ∧
        Put w (chunksOf w.ad w.chunkSize text) w₂ ∧ w₂.sink.flushFailure = some kind := by
  have hchunks : fullChunks w.ad w.chunkSize text ++
      [{ plaintext := w₁.buffer, ad := w₁.ad, tag := .final }] =
        chunksOf w.ad w.chunkSize text := by
    rw [chunksOf, h.buffer, h.put.ad]
  rw [← hchunks]
  rcases sends_finalize_buffer (h.put.unfinished (goesOn_messages _ _) hopen) log with
    hsends | ⟨kind, w₂, log', hrun, hput, hflush⟩
  · exact Or.inl (.of_put h.put hsends)
  · exact Or.inr ⟨kind, w₂, log', hrun, h.put.trans hput, hflush⟩

/-! ## The start of a stream -/

/-- What a sink takes of a whole stream. -/
def streamOf (key : FixedBytes 32) (header : Header) (ad : Bytes) (c : Nat) (text : Bytes) :
    Bytes :=
  header.toList ++ (ofHeader key header).frames (chunksOf ad c text)

/-- What a writer is behind the header. -/
structure Started (key : FixedBytes 32) (header : Header) (ad : Bytes) (c : Nat) (sink : Sink)
    (w : Writer) : Prop where
  taken : w.sink.taken = sink.taken ++ header.toList
  stream : w.stream = ofHeader key header
  buffer : w.buffer = []
  chunkSize : w.chunkSize = c
  ad : w.ad = ad
  smooth : sink.Smooth → w.sink.Smooth

variable {key : FixedBytes 32} {header : Header} {ad : Bytes} {c : Nat} {sink : Sink}

theorem Started.unfinished (h : Started key header ad c sink w) : w.stream.finalized = false := by
  rw [h.stream]
  rfl

/-- The header is sent, or the sink fails within it. -/
theorem create_cases (hc : 0 < c) (hcapacity : c ≤ capacityLimit) (key : FixedBytes 32)
    (header : Header) (ad : Bytes) (sink : Sink) (log : Log) :
    (∃ w log', (create key header ad c).runFrom sink log =
        { result := .ok w, state := w.sink, log := log' } ∧ Started key header ad c sink w) ∨
    ∃ kind front, ∃ after : Sink, ∃ log', (create key header ad c).runFrom sink log =
        { result := .error (.error (.io "stream header" kind)), state := after, log := log' } ∧
      after.taken = sink.taken ++ front ∧ ShortOf front header.toList ∧ ¬ sink.Smooth := by
  have hcheck : checkCapacity c = .ok () := if_pos hcapacity
  simp only [create, hc, dif_pos, Session.runFrom_bind, runFrom_initPush, hcheck,
    Session.runFrom_liftFault, Failure.mapError_ok, Session.runFrom_get, Session.runFrom_pure]
  rcases sink.send_cases "stream header" header.toList with
    ⟨after, hsend, htaken, hsmooth⟩ | ⟨kind, front, after, hsend, htaken, hfront, hrough⟩
  · simp only [hsend]
    exact Or.inl ⟨_, _, rfl, htaken, rfl, rfl, rfl, rfl, hsmooth⟩
  · simp only [hsend]
    exact Or.inr ⟨kind, front, after, _, rfl, htaken, hfront, hrough⟩

/-- A writer that was created has sent the header. -/
theorem started_of_create {after : Sink} {log log' : Log}
    (h : (create key header ad c).runFrom sink log =
      { result := .ok w, state := after, log := log' }) :
    after = w.sink ∧ Started key header ad c sink w := by
  by_cases hc : 0 < c
  · by_cases hcapacity : c ≤ capacityLimit
    · rcases create_cases hc hcapacity key header ad sink log with
        ⟨w', log₁, hrun, hstarted⟩ | ⟨kind, front, after', log₁, hrun, -⟩
      · rw [hrun] at h
        cases h
        exact ⟨rfl, hstarted⟩
      · rw [hrun] at h
        cases h
    · have hcheck : checkCapacity c = .error .capacityOverflow := if_neg hcapacity
      simp only [create, hc, dif_pos, Session.runFrom_bind, runFrom_initPush, hcheck,
        Session.runFrom_liftFault, Failure.mapError_error] at h
      split at h <;> cases h
  · simp only [create, hc] at h
    cases h

end Writer

end AuthEncryption
