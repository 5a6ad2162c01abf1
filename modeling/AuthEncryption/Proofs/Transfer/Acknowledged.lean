import AuthEncryption.Proofs.Transfer.Cutting
import AuthEncryption.Proofs.Transfer.Truncation

/-!
# What the end of a stream acknowledges

A caller may go on behind a write that failed, and the end of the stream may succeed all the same.
A write that fails loses the chunk within which it does, with what earlier writes had left in the
buffer, and may leave a part of the chunk's frame in the sink. So an end that succeeds acknowledges
what was written before the first failure, less than one chunk excepted, and all that was written
if no write failed. It does not report the loss, and nothing behind a lost chunk can be read.
-/
namespace AuthEncryption

open Bytes (ShortOf)
open SecretStream

namespace Writer

/-! ## Writes, whatever they give -/

/-- Writes one string after the other, whatever each write gives, and gives how they ended. -/
def writeEach (writes : List Bytes) : Session Writer (List (Except Failure Unit)) :=
  writes.mapM fun data => (write data).attempt

/-- Starts a stream, writes to it whatever each write gives, and ends it. -/
def sendEach (key : FixedBytes 32) (header : Header) (ad : Bytes) (chunkSize : Nat)
    (writes : List Bytes) : Session Sink (List (Except Failure Unit)) := do
  let writer ← create key header ad chunkSize
  (do
    let results ← writeEach writes
    finalize
    return results : Session Writer (List (Except Failure Unit))).focus
      (fun sink => { writer with sink }) fun _ w => w.sink

/-- The text of the writes before the first one that failed. -/
def acknowledged : List Bytes → List (Except Failure Unit) → Bytes
  | data :: writes, .ok () :: results => data ++ acknowledged writes results
  | _, _ => []

theorem runFrom_writeEach_cons (data : Bytes) (writes : List Bytes) (w : Writer) (log : Log) :
    (writeEach (data :: writes)).runFrom w log =
      (do
        let results ← writeEach writes
        return ((write data).runFrom w log).result :: results :
          Session Writer (List (Except Failure Unit))).runFrom
            ((write data).runFrom w log).state ((write data).runFrom w log).log := by
  simp only [writeEach, List.mapM_cons, Session.runFrom_bind, Session.runFrom_attempt]

variable {w w₁ w₂ : Writer} {before text : Bytes} {log log₁ : Log}

/-- Writes leave an open stream open, and what was sent before them stays sent. -/
theorem runFrom_writeEach (hopen : w.stream.finalized = false) (writes : List Bytes) (log : Log) :
    ∃ results w' log', (writeEach writes).runFrom w log =
        { result := .ok results, state := w', log := log' } ∧
      w'.stream.finalized = false ∧ w.sink.taken <+: w'.sink.taken := by
  induction writes generalizing w log with
  | nil => exact ⟨[], w, log, rfl, hopen, List.prefix_refl _⟩
  | cons data writes ih =>
    have hwrite := sends_write_buffer hopen data log
    obtain ⟨results, w', log', hrun, hopen', hfront⟩ :=
      ih (hwrite.unfinished (goesOn_messages _ _) hopen) ((write data).runFrom w log).log
    refine ⟨((write data).runFrom w log).result :: results, w', log', ?_, hopen',
      hwrite.isFront.trans hfront⟩
    rw [runFrom_writeEach_cons, Session.runFrom_bind, hrun]
    rfl

/-- What a sink has behind writes of which one failed: whole chunks of the text in order, and then
something else. They hold what was written before the failure, less than one chunk excepted. -/
def Kept (w : Writer) (before text : Bytes) (w' : Writer) : Prop :=
  ∃ (pieces : List Bytes) (back : Bytes),
    w'.sink.taken = w.sink.taken ++ (w.stream.frames (pieces.map (message w.ad)) ++ back) ∧
    (∀ piece ∈ pieces, piece.length = w.chunkSize) ∧ pieces.flatten <+: text ∧
    before.length < pieces.flatten.length + w.chunkSize

/-- What comes later makes no difference. -/
theorem Kept.append (h : Kept w before text w₁) (hfront : w₁.sink.taken <+: w₂.sink.taken)
    (more : Bytes) : Kept w before (text ++ more) w₂ := by
  obtain ⟨pieces, back, htaken, hlengths, htext, hlong⟩ := h
  obtain ⟨later, hlater⟩ := hfront
  refine ⟨pieces, back ++ later, ?_, hlengths, htext.trans (List.prefix_append ..), hlong⟩
  rw [← hlater, htaken, List.append_assoc, List.append_assoc]

/-- The step lemma for a write that fails: the chunk within which it does is lost. -/
theorem kept_of_write (hopen : w.stream.finalized = false) (h : Behind w text w₁) {data : Bytes}
    {f : Failure} (hfail : ((write data).runFrom w₁ log).result = .error f) :
    Kept w text (text ++ data) ((write data).runFrom w₁ log).state := by
  have hwrite := sends_write_buffer (h.put.unfinished (goesOn_messages _ _) hopen) data log
  generalize (write data).runFrom w₁ log = outcome at hfail hwrite ⊢
  cases hwrite with
  | all => cases hfail
  | stopped hstopped =>
    -- The sink has the frames of some of the full pieces, and a part of the next frame.
    obtain ⟨front, htaken, hfront⟩ := hstopped.taken
    obtain ⟨done, next, rest, cut, hchunks, rfl, -⟩ := exists_cut hfront
    obtain ⟨pieces, more, hpieces, rfl, -⟩ := List.map_eq_append_iff.mp hchunks
    have hdata := Bytes.flatten_fullPieces (n := w₁.chunkSize) (w₁.buffer ++ data)
    have htext := Bytes.flatten_fullPieces (n := w.chunkSize) text
    rw [hpieces, List.flatten_append, List.append_assoc, h.buffer] at hdata
    have hwithin : pieces.flatten <+: Bytes.leftover w.chunkSize text ++ data := ⟨_, hdata⟩
    refine ⟨Bytes.fullPieces w.chunkSize text ++ pieces, cut, ?_, ?_, ?_, ?_⟩
    · rw [htaken, h.put.taken, h.put.stream, h.put.ad, List.map_append, frames_append,
        List.append_assoc, List.append_assoc]
      rfl
    · intro piece hmem
      rcases List.mem_append.mp hmem with hbefore | hlater
      · exact Bytes.length_of_mem_fullPieces hbefore
      · rw [← h.put.chunkSize]
        exact Bytes.length_of_mem_fullPieces (hpieces ▸ List.mem_append_left more hlater)
    · have hfront := (List.prefix_append_right_inj
        (Bytes.fullPieces w.chunkSize text).flatten).mpr hwithin
      rwa [← List.append_assoc, htext, ← List.flatten_append] at hfront
    · -- Of the text only what its full pieces leave over can be missing.
      have hleft := Nat.mod_lt text.length w.chunkSize_pos
      rw [← Bytes.length_leftover] at hleft
      have hlength := congrArg List.length htext
      rw [List.length_append] at hlength
      rw [List.flatten_append, List.length_append]
      omega

/-- The run lemma: either every write succeeds and goes on with the text, or one of them fails. -/
theorem writeEach_cases (hopen : w.stream.finalized = false) (h : Behind w text w₁)
    (writes : List Bytes) (log : Log) :
    ∃ results w' log', (writeEach writes).runFrom w₁ log =
        { result := .ok results, state := w', log := log' } ∧ w'.stream.finalized = false ∧
      ((∀ result ∈ results, result = .ok ()) ∧ acknowledged writes results = writes.flatten ∧
          Behind w (text ++ writes.flatten) w' ∨
        ¬ (∀ result ∈ results, result = .ok ()) ∧
          Kept w (text ++ acknowledged writes results) (text ++ writes.flatten) w') := by
  induction writes generalizing text w₁ log with
  | nil =>
    refine ⟨[], w₁, log, rfl, h.put.unfinished (goesOn_messages _ _) hopen,
      Or.inl ⟨by simp, rfl, ?_⟩⟩
    rw [List.flatten_nil, List.append_nil]
    exact h
  | cons data writes ih =>
    have hopen₁ := h.put.unfinished (goesOn_messages _ _) hopen
    rw [List.flatten_cons, ← List.append_assoc]
    cases hresult : ((write data).runFrom w₁ log).result with
    | ok u =>
      have hwrite := sends_write hopen h data log
      have hbehind : Behind w (text ++ data) ((write data).runFrom w₁ log).state := by
        generalize (write data).runFrom w₁ log = outcome at hresult hwrite ⊢
        cases hwrite with
        | all hput hbuffer => exact ⟨hput, hbuffer⟩
        | stopped => cases hresult
      obtain ⟨results, w', log', hrun, hopen', hcases⟩ :=
        ih hbehind ((write data).runFrom w₁ log).log
      refine ⟨.ok () :: results, w', log', ?_, hopen', ?_⟩
      · rw [runFrom_writeEach_cons, Session.runFrom_bind, hrun, hresult]
        rfl
      · simpa [acknowledged] using hcases
    | error f =>
      have hwrite := sends_write_buffer hopen₁ data log
      obtain ⟨results, w', log', hrun, hopen', hfront⟩ := runFrom_writeEach
        (hwrite.unfinished (goesOn_messages _ _) hopen₁) writes ((write data).runFrom w₁ log).log
      refine ⟨.error f :: results, w', log', ?_, hopen', Or.inr ⟨by simp, ?_⟩⟩
      · rw [runFrom_writeEach_cons, Session.runFrom_bind, hrun, hresult]
        rfl
      · rw [acknowledged, List.append_nil]
        · exact (kept_of_write hopen h hresult).append hfront _
        · simp

/-- An end that succeeds has sent the buffer. -/
theorem put_of_finalize (hopen : w.stream.finalized = false)
    (hend : finalize.runFrom w log = { result := .ok (), state := w₁, log := log₁ }) :
    Put w [{ plaintext := w.buffer, ad := w.ad, tag := .final }] w₁ := by
  rcases sends_finalize_buffer hopen log with hsends | ⟨kind, w', log', hrun, -⟩
  · rw [hend] at hsends
    cases hsends with
    | all hput hbuffer => exact hput
  · rw [hend] at hrun
    cases hrun

/-- A writer in front of a sink that takes everything ends its stream. -/
theorem runFrom_finalize_smooth (hopen : w.stream.finalized = false) (hs : w.sink.Smooth)
    (hsize : w.buffer.length + overhead < UInt32.size) (log : Log) :
    ∃ w' log', finalize.runFrom w log = { result := .ok (), state := w', log := log' } ∧
      w'.sink.taken = w.sink.taken ++ Frame.ofChunk (w.stream.chunk w.buffer w.ad .final) := by
  rcases sends_finalize_buffer hopen log with hsends | ⟨kind, w', log', -, hput, hflush⟩
  · obtain ⟨w', log', hrun, hput, -⟩ := hsends.of_smooth hs (by simpa using hsize)
    refine ⟨w', log', hrun, ?_⟩
    rw [hput.taken, frames_singleton]
    rfl
  · exact absurd hs (hput.not_smooth hflush)

/-- How a stream ends well behind writes that may have failed. -/
theorem sendEach_cases {key : FixedBytes 32} {header : Header} {ad : Bytes} {c : Nat}
    {writes : List Bytes} {sink : Sink} {log : Log} {results : List (Except Failure Unit)}
    (h : ((sendEach key header ad c writes).runFrom sink log).result = .ok results) :
    0 < c ∧
      ((∀ result ∈ results, result = .ok ()) ∧ acknowledged writes results = writes.flatten ∧
          ((sendEach key header ad c writes).runFrom sink log).state.taken =
            sink.taken ++ streamOf key header ad c writes.flatten ∨
        ¬ (∀ result ∈ results, result = .ok ()) ∧
          ∃ (pieces : List Bytes) (back : Bytes),
            ((sendEach key header ad c writes).runFrom sink log).state.taken = sink.taken ++
              (header.toList ++
                ((ofHeader key header).frames (pieces.map (message ad)) ++ back)) ∧
            (∀ piece ∈ pieces, piece.length = c) ∧ pieces.flatten <+: writes.flatten ∧
            (acknowledged writes results).length < pieces.flatten.length + c) := by
  simp only [sendEach, Session.runFrom_bind] at h ⊢
  rcases hcreate : (create key header ad c).runFrom sink log with ⟨result, after, log₁⟩
  rw [hcreate] at h
  cases result with
  | error f => cases h
  | ok w =>
    obtain ⟨rfl, hstarted⟩ := started_of_create hcreate
    obtain ⟨results', w', log', hrun, hopen', hcases⟩ :=
      writeEach_cases hstarted.unfinished (behind_nil hstarted.buffer) writes log₁
    refine ⟨hstarted.chunkSize ▸ w.chunkSize_pos, ?_⟩
    simp only [Session.runFrom_focus, Session.runFrom_bind, hrun] at h ⊢
    rcases hend : finalize.runFrom w' log' with ⟨result, w'', log''⟩
    rw [hend] at h
    cases result with
    | error f => cases h
    | ok u =>
      cases h
      rcases hcases with ⟨hall, hacked, hbehind⟩ | ⟨hsome, hkept⟩
      · have hput := hbehind.put.trans (put_of_finalize hopen' hend)
        rw [hbehind.buffer, hbehind.put.ad, List.nil_append, ← chunksOf] at hput
        refine Or.inl ⟨hall, hacked, ?_⟩
        simp only [Session.runFrom_pure]
        rw [hput.taken, hstarted.taken, hstarted.stream, hstarted.ad, hstarted.chunkSize,
          List.append_assoc]
        rfl
      · obtain ⟨pieces, back, htaken, hlengths, htext, hlong⟩ :=
          hkept.append (put_of_finalize hopen' hend).isFront []
        refine Or.inr ⟨hsome, pieces, back, ?_, ?_, ?_, ?_⟩
        · simp only [Session.runFrom_pure]
          rw [htaken, hstarted.taken, hstarted.stream, hstarted.ad, List.append_assoc]
        · rwa [hstarted.chunkSize] at hlengths
        · rwa [List.append_nil] at htext
        · rwa [hstarted.chunkSize] at hlong

end Writer

namespace Reader

/-- A reader of whole chunks with something behind them has their plaintexts to hand out first. -/
theorem holding_of_written {key : FixedBytes 32} {header : Header} {ad : Bytes} {c limit : Nat}
    (hlimit : c ≤ limit) (hsize : c + overhead < UInt32.size) {source : Source}
    (hs : source.Smooth) {pieces : List Bytes} (hlengths : ∀ piece ∈ pieces, piece.length = c)
    {back : Bytes} (hbytes : source.bytes =
      (ofHeader key header).frames (pieces.map (Writer.message ad)) ++ back) :
    Holding (atStart key header ad limit source) pieces.flatten back := by
  refine ⟨pieces.map (Writer.message ad),
    ⟨hs, rfl, rfl, Writer.goesOn_messages ad pieces, fun out hmem => ?_, hbytes⟩, ?_⟩
  · obtain ⟨piece, hpiece, rfl⟩ := List.mem_map.mp hmem
    have hlength : (Writer.message ad piece).plaintext.length = c := hlengths piece hpiece
    exact ⟨rfl, hlength ▸ hlimit, hlength ▸ hsize⟩
  · rw [Writer.joined_messages]
    rfl

end Reader

open Reader Writer in
/-- The end of a stream acknowledges what was written before the first failure, less than one chunk
excepted. Whatever the sink does on the way and whatever the writes give, if the end of the stream
succeeds then a reader with the same key and associated data, over what the sink took and any other
bytes behind it, hands out a front of what was written before anything else; this front is all of
it if no write failed, and then the reader gives nothing more and is finished. -/
theorem finalized_stream_reads_back {key : FixedBytes 32} {header : Header} {ad : Bytes}
    {c limit : Nat} {writes : List Bytes} {sink : Sink} {results : List (Except Failure Unit)}
    (hsize : c + 17 < 2 ^ 32) (hlimit : c ≤ limit)
    (hended : ((sendEach key header ad c writes).runOn sink).result = .ok results) :
    ∃ output text : Bytes,
      ((sendEach key header ad c writes).runOn sink).state.taken = sink.taken ++ output ∧
      text <+: writes.flatten ∧ (acknowledged writes results).length < text.length + c ∧
      ((∀ result ∈ results, result = .ok ()) → text = writes.flatten) ∧
      ∀ (trailing : Bytes) (source : Source), source.Smooth → source.bytes = output ++ trailing →
        ∃ reader, ((Reader.create key ad limit).runOn source).result = .ok reader ∧
          ∀ (log : Log) (sizes : List Nat), (∀ n ∈ sizes, 1 ≤ n) → text.length < sizes.length →
            text <+: handedOut ((Reading.start reader log).calls sizes).results ∧
            ((∀ result ∈ results, result = .ok ()) →
              handedOut ((Reading.start reader log).calls sizes).results = text ∧
              ((Reading.start reader log).calls sizes).reader.finished = true) := by
  obtain ⟨hc, ⟨-, hacked, htaken⟩ | ⟨hsome, pieces, back, htaken, hlengths, hfront, hlong⟩⟩ :=
    sendEach_cases hended
  · refine ⟨_, writes.flatten, htaken, List.prefix_refl _, ?_, fun _ => rfl,
      fun trailing source hs hbytes => ?_⟩
    · rw [hacked]
      exact Nat.lt_add_of_pos_right hc
    rw [streamOf, List.append_assoc] at hbytes
    obtain ⟨source', log₀, hcreate, hsmooth, hleft⟩ := runFrom_create hs hbytes key ad limit []
    refine ⟨_, by rw [Session.runOn, hcreate], fun log sizes hpos henough => ?_⟩
    obtain ⟨htext, hfinished⟩ := Pending.calls (Reading.start _ log)
      (pending_of_written hc hlimit hsize hsmooth writes.flatten hleft) hpos henough
    exact ⟨htext ▸ List.prefix_refl _, fun _ => ⟨htext, hfinished⟩⟩
  · refine ⟨_, pieces.flatten, htaken, hfront, hlong, fun hall => absurd hall hsome,
      fun trailing source hs hbytes => ?_⟩
    rw [List.append_assoc, List.append_assoc] at hbytes
    obtain ⟨source', log₀, hcreate, hsmooth, hleft⟩ := runFrom_create hs hbytes key ad limit []
    refine ⟨_, by rw [Session.runOn, hcreate], fun log sizes hpos henough => ?_⟩
    exact ⟨Holding.calls (Reading.start _ log)
      (holding_of_written hlimit hsize hsmooth hlengths hleft) hpos (Nat.le_of_lt henough),
      fun hall => absurd hall hsome⟩

open Reader Writer in
/-- One byte that fills no chunk, through a sink that takes three bytes first. -/
theorem finalized_stream_reads_back_of_one_byte :
    ∃ (output : Bytes) (reader : Reader),
      ((sendEach (.zero 32) (.zero 24) [5] 2 [[1]]).runOn
        ⟨[], [.accept 24, .accept 3, .fail .interrupted], none⟩).result = .ok [.ok ()] ∧
      ((sendEach (.zero 32) (.zero 24) [5] 2 [[1]]).runOn
        ⟨[], [.accept 24, .accept 3, .fail .interrupted], none⟩).state.taken = output ∧
      ((Reader.create (.zero 32) [5] 2).runOn [.fail .interrupted, .data (output ++ [9])]).result =
        .ok reader ∧
      handedOut ((Reading.start reader []).calls [4, 4]).results = [1] ∧
      ((Reading.start reader []).calls [4, 4]).reader.finished = true := by
  obtain ⟨w, hcreate, hsink, hopen, hbuffer, hsize⟩ : ∃ w : Writer,
      (create (.zero 32) (.zero 24) [5] 2).runFrom
          ⟨[], [.accept 24, .accept 3, .fail .interrupted], none⟩ [] =
        { result := .ok w, state := w.sink, log := [.initialized .push] } ∧
      w.sink = ⟨[(FixedBytes.zero 24).toList], [.accept 3, .fail .interrupted], none⟩ ∧
      w.stream.finalized = false ∧ w.buffer = [] ∧ w.chunkSize = 2 :=
    ⟨_, rfl, rfl, rfl, rfl, rfl⟩
  have hsmooth : w.sink.Smooth := hsink ▸ ⟨by simp [SinkEvent.Smooth], rfl⟩
  have hwrite : (write [1]).runFrom w [.initialized .push] =
      { result := .ok (), state := w.withBuffer [1], log := [.initialized .push] } := by
    rw [runFrom_write_of_lt (by rw [hbuffer, hsize]; decide), hbuffer]
    rfl
  obtain ⟨w', log, hend, -⟩ := runFrom_finalize_smooth (w := w.withBuffer [1]) hopen hsmooth
    (show 1 + overhead < UInt32.size by decide) [.initialized .push]
  have hended : ((sendEach (.zero 32) (.zero 24) [5] 2 [[1]]).runOn
      ⟨[], [.accept 24, .accept 3, .fail .interrupted], none⟩).result = .ok [.ok ()] := by
    simp only [sendEach, writeEach, List.mapM_cons, List.mapM_nil, Session.runOn,
      Session.runFrom_bind, hcreate, Session.runFrom_focus, Session.runFrom_attempt, hwrite, hend,
      Session.runFrom_pure]
  obtain ⟨output, text, htaken, -, -, hall, hback⟩ :=
    finalized_stream_reads_back (by norm_num) (Nat.le_refl 2) hended
  obtain rfl : text = [1] := hall (by simp)
  obtain ⟨reader, hreader, hreads⟩ := hback [9] [.fail .interrupted, .data (output ++ [9])]
    (by simp [Source.Smooth, SourceEvent.Smooth]) (List.append_nil _)
  obtain ⟨-, hfinished⟩ := hreads [] [4, 4] (by simp) (by decide)
  obtain ⟨htext, hdone⟩ := hfinished (by simp)
  exact ⟨output, reader, hended, htaken, hreader, htext, hdone⟩

/-! ## A write that failed -/

namespace Writer

/-- A chunk within whose length the sink fails is lost: the stream has moved on behind it. -/
theorem runFrom_sendChunk_of_error {w : Writer} {f : Failure} {after : Sink}
    (hopen : w.stream.finalized = false) (plaintext : Bytes)
    (hsize : plaintext.length + overhead < UInt32.size)
    (hfail : ∀ log, (Sink.send "stream write"
      (Bytes.ofNatLE 4 (plaintext.length + overhead))).runFrom w.sink log =
        { result := .error f, state := after, log }) (tag : ChunkTag) (log : Log) :
    ∃ log', (sendChunk plaintext tag).runFrom w log =
      { result := .error f
        state := { w with sink := after, stream := w.stream.after ⟨plaintext, w.ad, tag⟩ }
        log := log' } := by
  have hpush := w.stream.runFrom_push hopen (le_messageMax hsize) w.ad tag log
  have hfield : lengthField (w.stream.chunk plaintext w.ad tag).length =
      .ok (Bytes.ofNatLE 4 (plaintext.length + overhead)) := by
    rw [length_chunk]
    exact if_pos hsize
  simp only [sendChunk, onStream, onSink, Session.runFrom_bind, Session.runFrom_get,
    Session.runFrom_focus, Session.runFrom_liftError, Failure.mapError_ok, hpush, hfield, hfail]
  exact ⟨_, rfl⟩

/-- The first write is kept back, the second one loses the chunk of both, and the end succeeds. -/
theorem runFrom_sendEach_of_lost_chunk :
    ∃ (s : SecretStream) (after : Sink) (log : Log),
      (sendEach (.zero 32) (.zero 24) [] 2 [[7], [8]]).runFrom
          ⟨[], [.accept 24, .accept 1, .fail .brokenPipe], none⟩ [] =
        { result := .ok [.ok (), .error (.error (.io "stream write" .brokenPipe))]
          state := after, log } ∧
      after.taken = (FixedBytes.zero 24).toList ++ 19 :: Frame.ofChunk (s.chunk [] [] .final) := by
  obtain ⟨w, hcreate, hsink, hopen, hbuffer, had, hsize⟩ : ∃ w : Writer,
      (create (.zero 32) (.zero 24) [] 2).runFrom
          ⟨[], [.accept 24, .accept 1, .fail .brokenPipe], none⟩ [] =
        { result := .ok w, state := w.sink, log := [.initialized .push] } ∧
      w.sink = ⟨[(FixedBytes.zero 24).toList], [.accept 1, .fail .brokenPipe], none⟩ ∧
      w.stream.finalized = false ∧ w.buffer = [] ∧ w.ad = [] ∧ w.chunkSize = 2 :=
    ⟨_, rfl, rfl, rfl, rfl, rfl, rfl⟩
  have hfirst : (write [7]).runFrom w [.initialized .push] =
      { result := .ok (), state := w.withBuffer [7], log := [.initialized .push] } := by
    rw [runFrom_write_of_lt (by rw [hbuffer, hsize]; decide), hbuffer]
    rfl
  obtain ⟨w₁, log₁, hsecond, htaken₁, hsmooth₁, hopen₁, hbuffer₁, had₁⟩ : ∃ w₁ log₁,
      (write [8]).runFrom (w.withBuffer [7]) [.initialized .push] =
        { result := .error (.error (.io "stream write" .brokenPipe)), state := w₁, log := log₁ } ∧
      w₁.sink.taken = (FixedBytes.zero 24).toList ++ [19] ∧ w₁.sink.Smooth ∧
      w₁.stream.finalized = false ∧ w₁.buffer = [] ∧ w₁.ad = [] := by
    have hfail : ∀ log,
        (Sink.send "stream write" (Bytes.ofNatLE 4 (2 + overhead))).runFrom w.sink log =
        { result := .error (.error (.io "stream write" .brokenPipe))
          state := ⟨[[19], (FixedBytes.zero 24).toList], [], none⟩, log } := by
      intro log
      rw [hsink]
      rfl
    obtain ⟨log₁, hlost⟩ := runFrom_sendChunk_of_error (w := w.withBuffer []) hopen [7, 8]
      (by decide) hfail .message [.initialized .push]
    have hfull : ((w.withBuffer [7]).buffer ++ [8]).length = (w.withBuffer [7]).chunkSize :=
      hsize.symm
    refine ⟨_, log₁, (runFrom_write_of_eq hfull _).trans hlost, by simp [Sink.taken],
      ⟨by simp, rfl⟩, ?_, rfl, had⟩
    exact (finalized_next ..).trans (by rw [Bool.or_eq_false_iff]; exact ⟨hopen, rfl⟩)
  obtain ⟨w₂, log₂, hend, htaken₂⟩ := runFrom_finalize_smooth hopen₁ hsmooth₁
    (by rw [hbuffer₁]; decide) log₁
  rw [hbuffer₁] at htaken₂
  have hwrites : (writeEach [[7], [8]]).runFrom w [.initialized .push] =
      { result := .ok [.ok (), .error (.error (.io "stream write" .brokenPipe))], state := w₁
        log := log₁ } := by
    simp only [writeEach, List.mapM_cons, List.mapM_nil, Session.runFrom_bind,
      Session.runFrom_attempt, hfirst, hsecond, Session.runFrom_pure]
  refine ⟨w₁.stream, w₂.sink, log₂, ?_, ?_⟩
  · simp only [sendEach, Session.runFrom_bind, hcreate, Session.runFrom_focus, hwrites, hend,
      Session.runFrom_pure]
  · rw [htaken₂, htaken₁, had₁, List.append_assoc]
    rfl

end Writer

/-- One byte of the length of a lost chunk, and the final frame behind it, is the front of a frame
of 4371 bytes: 19 and 17 times 256. -/
theorem shortOf_of_lost_chunk {final : Bytes} (h : final.length = overhead) :
    ShortOf (19 :: Frame.ofChunk final) (Frame.ofChunk (0 :: final ++ Bytes.zeros 4353)) := by
  have hlength : (0 :: final ++ Bytes.zeros 4353).length = 4371 := by
    rw [List.length_append, List.length_cons, h, Bytes.length_zeros]
    rfl
  have hfinal : Frame.ofChunk final = [17, 0, 0, 0] ++ final := by
    rw [Frame.ofChunk, h]
    rfl
  have hlonger : Frame.ofChunk (0 :: final ++ Bytes.zeros 4353) =
      19 :: Frame.ofChunk final ++ Bytes.zeros 4353 := by
    rw [hfinal, Frame.ofChunk, hlength]
    rfl
  have hnone : ShortOf [] (Bytes.zeros 4353) :=
    .of_ne_nil (List.ne_nil_of_length_pos (by rw [Bytes.length_zeros]; decide))
  have hfront := hnone.append_left (19 :: Frame.ofChunk final)
  rwa [List.append_nil, ← hlonger] at hfront

open Reader Writer in
/-- A writer whose sink fails within the frame of the only full chunk, and then goes on: the first
write and the end of the stream succeed, and nothing can be read. -/
theorem finalize_hides_lost_chunk :
    ∃ (after : Sink) (log : Log),
      (sendEach (.zero 32) (.zero 24) [] 2 [[7], [8]]).runOn
          ⟨[], [.accept 24, .accept 1, .fail .brokenPipe], none⟩ =
        { result := .ok [.ok (), .error (.error (.io "stream write" .brokenPipe))]
          state := after, log } ∧
      ∀ limit, 4354 ≤ limit → ∀ source : Source, source.Smooth → source.bytes = after.taken →
        ∃ reader, ((Reader.create (.zero 32) [] limit).runOn source).result = .ok reader ∧
          ∀ (log : Log) (sizes : List Nat),
            handedOut ((Reading.start reader log).calls sizes).results = [] ∧
              ((Reading.start reader log).calls sizes).reader.finished = false := by
  obtain ⟨s, after, log, hrun, htaken⟩ := runFrom_sendEach_of_lost_chunk
  refine ⟨after, log, hrun, fun limit hlimit source hs hbytes => ?_⟩
  rw [htaken] at hbytes
  obtain ⟨source', log', hcreate, hsmooth, hleft⟩ := runFrom_create hs hbytes (.zero 32) [] limit []
  refine ⟨_, by rw [Session.runOn, hcreate], fun log sizes => ?_⟩
  have hlength : (s.chunk [] [] .final).length = overhead := length_chunk ..
  have hpending : PendingCut (atStart (.zero 32) (.zero 24) [] limit source') [] := by
    have hlong : (0 :: s.chunk [] [] .final ++ Bytes.zeros 4353).length = 4354 + overhead := by
      rw [List.length_append, List.length_cons, hlength, Bytes.length_zeros]
      rfl
    refine ⟨_, ⟨[], ⟨hsmooth, rfl, rfl, by simp, by simp, hleft⟩, rfl⟩, _,
      shortOf_of_lost_chunk hlength, ?_, ?_, ?_⟩
    all_goals rw [hlong]
    · exact Nat.le_add_left ..
    · exact Nat.add_le_add_right hlimit overhead
    · decide
  have hreading := hpending.cutReading log sizes
  exact ⟨List.prefix_nil.mp hreading.isFront, hreading.unfinished⟩

end AuthEncryption
