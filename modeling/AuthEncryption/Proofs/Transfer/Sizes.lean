import AuthEncryption.Proofs.Transfer.Acknowledged

/-!
# The sizes of the chunks

Whatever its sink does and whatever the writes give, a writer pushes full chunks and, at the end,
one final chunk. What is pushed is seen from the stream, which moves on by it, and from the
reports. One chunk moves the stream on whether its sending fails or not, and this carries over to
the full chunks of a write, to all the writes and to the end of the stream. The final chunk is what
the last write left in the buffer. A write that succeeds leaves less than a chunk there, but one
that fails leaves all that stands behind the chunk it lost, and this may be more than a reader with
the same limit takes.
-/
namespace AuthEncryption

open SecretStream

/-- The length and the tag of a chunk that a record reports as pushed. -/
def Record.pushed? : Record → Option (Nat × ChunkTag)
  | .pushed n tag => some (n, tag)
  | _ => none

/-- The lengths and tags of the chunks that were reported as pushed, in order. -/
def Log.pushed (log : Log) : List (Nat × ChunkTag) := log.inOrder.filterMap Record.pushed?

theorem Log.pushed_cons (record : Record) (log : Log) :
    Log.pushed (record :: log) = Log.pushed log ++ record.pushed?.toList := by
  cases h : record.pushed? <;> simp [Log.pushed, Log.inOrder, h]

namespace SecretStream

theorem pushed_nextLog (s : SecretStream) (mac : Tag 16) (t : ChunkTag) (log : Log) :
    Log.pushed (s.nextLog mac t log) = Log.pushed log := by
  cases hfinal : t.isFinal <;> cases hrenews : s.renews mac t <;>
    simp [nextLog, hfinal, hrenews, Log.pushed_cons, Record.pushed?]

end SecretStream

namespace Writer

/-- What a writer is behind chunks that it pushed, sent or not. -/
structure Pushes (w : Writer) (log : Log) (outs : List Outgoing) (w' : Writer) (log' : Log) :
    Prop where
  stream : w'.stream = w.stream.afterAll outs
  ad : w'.ad = w.ad
  chunkSize : w'.chunkSize = w.chunkSize
  log : Log.pushed log' = Log.pushed log ++ outs.map Outgoing.seen

variable {w w₁ w₂ : Writer} {log log₁ log₂ : Log} {outs rest : List Outgoing}

theorem pushes_nil (w : Writer) (log : Log) : Pushes w log [] w log :=
  ⟨rfl, rfl, rfl, (List.append_nil _).symm⟩

namespace Pushes

theorem trans (h : Pushes w log outs w₁ log₁) (h' : Pushes w₁ log₁ rest w₂ log₂) :
    Pushes w log (outs ++ rest) w₂ log₂ where
  stream := by rw [h'.stream, h.stream, afterAll, afterAll, afterAll, List.foldl_append]
  ad := h'.ad.trans h.ad
  chunkSize := h'.chunkSize.trans h.chunkSize
  log := by rw [h'.log, h.log, List.map_append, List.append_assoc]

theorem of_withBuffer {buffer : Bytes} (h : Pushes (w.withBuffer buffer) log outs w₁ log₁) :
    Pushes w log outs w₁ log₁ := ⟨h.stream, h.ad, h.chunkSize, h.log⟩

end Pushes

/-! ## One chunk -/

/-- The step lemma: a chunk that can be pushed is pushed, whether it is sent or not. -/
theorem pushes_sendChunk (hopen : w.stream.finalized = false) {plaintext : Bytes}
    (hfits : plaintext.length ≤ messageMax) (tag : ChunkTag) (log : Log) :
    Pushes w log [{ plaintext, ad := w.ad, tag }] ((sendChunk plaintext tag).runFrom w log).state
      ((sendChunk plaintext tag).runFrom w log).log := by
  have hpush := w.stream.runFrom_push hopen hfits w.ad tag log
  obtain ⟨reports, hreports⟩ : ∃ reports, reports =
      w.stream.nextLog (w.stream.pushedMac plaintext w.ad tag) tag
        (.pushed plaintext.length tag :: log) := ⟨_, rfl⟩
  have hlog : Log.pushed reports = Log.pushed log ++ [(plaintext.length, tag)] := by
    rw [hreports, pushed_nextLog, Log.pushed_cons]
    rfl
  rw [← hreports] at hpush
  simp only [sendChunk, onStream, onSink, Session.runFrom_bind, Session.runFrom_get,
    Session.runFrom_focus, Session.runFrom_liftError, Session.runFrom_modify,
    Session.runFrom_emit, hpush]
  -- Behind the push the sink can fail, but it neither reports nor moves the stream.
  cases lengthField (w.stream.chunk plaintext w.ad tag).length with
  | error cause => exact ⟨rfl, rfl, rfl, hlog⟩
  | ok field =>
    rcases w.sink.send_cases "stream write" field with
      ⟨sink₁, hsend₁, -, -⟩ | ⟨kind, front, sink₁, hsend₁, -, -, -⟩
    · rcases sink₁.send_cases "stream write" (w.stream.chunk plaintext w.ad tag) with
        ⟨sink₂, hsend₂, -, -⟩ | ⟨kind, front, sink₂, hsend₂, -, -, -⟩
      · simp only [Failure.mapError_ok, hsend₁, hsend₂]
        exact ⟨rfl, rfl, rfl, (Log.pushed_cons ..).trans ((List.append_nil _).trans hlog)⟩
      · simp only [Failure.mapError_ok, hsend₁, hsend₂]
        exact ⟨rfl, rfl, rfl, hlog⟩
    · simp only [Failure.mapError_ok, hsend₁]
      exact ⟨rfl, rfl, rfl, hlog⟩

/-- A chunk that is too long changes nothing. -/
theorem runFrom_sendChunk_of_gt {plaintext : Bytes} (h : messageMax < plaintext.length)
    (tag : ChunkTag) (log : Log) :
    ∃ f, (sendChunk plaintext tag).runFrom w log = { result := .error f, state := w, log } := by
  obtain ⟨f, hpush⟩ := w.stream.runFrom_push_of_gt h w.ad tag log
  simp only [sendChunk, onStream, Session.runFrom_bind, Session.runFrom_get,
    Session.runFrom_focus, hpush]
  exact ⟨f, rfl⟩

/-! ## Writes -/

/-- Chunks that carry just what the writer's chunks hold. -/
def FullPushes (w : Writer) (log : Log) (w' : Writer) (log' : Log) : Prop :=
  ∃ pieces : List Bytes, (∀ piece ∈ pieces, piece.length = w.chunkSize) ∧
    Pushes w log (pieces.map (message w.ad)) w' log'

theorem FullPushes.trans (h : FullPushes w log w₁ log₁) (h' : FullPushes w₁ log₁ w₂ log₂) :
    FullPushes w log w₂ log₂ := by
  obtain ⟨pieces, hlengths, hpushes⟩ := h
  obtain ⟨pieces', hlengths', hpushes'⟩ := h'
  rw [hpushes.chunkSize] at hlengths'
  rw [hpushes.ad] at hpushes'
  refine ⟨pieces ++ pieces', fun piece hmem => ?_, ?_⟩
  · exact (List.mem_append.mp hmem).elim (hlengths piece) (hlengths' piece)
  · rw [List.map_append]
    exact hpushes.trans hpushes'

theorem fullPushes_nil (w : Writer) (log : Log) : FullPushes w log w log :=
  ⟨[], by simp, pushes_nil w log⟩

/-- The full chunks of a buffer, up to the first that fails. -/
theorem fullPushes_sendFull (hopen : w.stream.finalized = false)
    (hsize : w.chunkSize + overhead < UInt32.size) (count : Nat)
    (h : w.chunkSize * count ≤ w.buffer.length) (log : Log) :
    FullPushes w log ((sendFull count).runFrom w log).state
      ((sendFull count).runFrom w log).log := by
  induction count generalizing w log with
  | zero => exact fullPushes_nil w log
  | succ count ih =>
    rw [Nat.mul_succ] at h
    have hlength : (w.buffer.take w.chunkSize).length = w.chunkSize :=
      List.length_take_of_le (by omega)
    have hpushes := pushes_sendChunk (w := w.withBuffer (w.buffer.drop w.chunkSize)) hopen
      (hlength.symm ▸ le_messageMax hsize) .message log
    have hsends := sends_sendChunk (w := w.withBuffer (w.buffer.drop w.chunkSize)) hopen
      (w.buffer.take w.chunkSize) .message log
    have hkept := buffer_of_sendChunk (w.withBuffer (w.buffer.drop w.chunkSize))
      (w.buffer.take w.chunkSize) .message log
    rw [runFrom_sendFull_succ, Session.runFrom_bind]
    generalize (sendChunk (w.buffer.take w.chunkSize) .message).runFrom
      (w.withBuffer (w.buffer.drop w.chunkSize)) log = outcome at hpushes hsends hkept ⊢
    have hone : FullPushes w log outcome.state outcome.log :=
      ⟨[w.buffer.take w.chunkSize], by simp [hlength], hpushes.of_withBuffer⟩
    obtain ⟨result, w₁, log₁⟩ := outcome
    cases result with
    | error f => exact hone
    | ok u =>
      have hopen₁ : w₁.stream.finalized = false :=
        hsends.unfinished (goesOn_messages w.ad [_]) hopen
      refine hone.trans (ih hopen₁ ?_ ?_ log₁)
      · rwa [hpushes.chunkSize]
      · rw [hpushes.chunkSize, hkept]
        simp only [withBuffer, List.length_drop]
        omega

theorem fullPushes_write (hopen : w.stream.finalized = false)
    (hsize : w.chunkSize + overhead < UInt32.size) (data : Bytes) (log : Log) :
    FullPushes w log ((write data).runFrom w log).state ((write data).runFrom w log).log := by
  have hfull := fullPushes_sendFull (w := w.withBuffer (w.buffer ++ data)) hopen hsize
    ((w.buffer ++ data).length / w.chunkSize) (Nat.mul_div_le _ _) log
  rw [runFrom_write]
  obtain ⟨pieces, hlengths, hpushes⟩ := hfull
  exact ⟨pieces, hlengths, hpushes.of_withBuffer⟩

/-- A write ends with the first chunk that fails, and what stands behind this chunk stays in the
buffer. -/
theorem runFrom_write_of_error {data piece rest : Bytes} {f : Failure}
    (hdata : w.buffer ++ data = piece ++ rest) (hlength : piece.length = w.chunkSize)
    (h : (sendChunk piece .message).runFrom (w.withBuffer rest) log =
      { result := .error f, state := w₁, log := log₁ }) :
    (write data).runFrom w log = { result := .error f, state := w₁, log := log₁ } := by
  have hcount : (piece ++ rest).length / w.chunkSize = rest.length / w.chunkSize + 1 := by
    rw [List.length_append, hlength, Nat.add_comm, Nat.add_div_right _ w.chunkSize_pos]
  have htake : (piece ++ rest).take w.chunkSize = piece := List.take_left' hlength
  have hdrop : (piece ++ rest).drop w.chunkSize = rest := List.drop_left' hlength
  rw [runFrom_write, hdata, hcount, runFrom_sendFull_succ]
  simp only [withBuffer, htake, hdrop] at h ⊢
  rw [Session.runFrom_bind, h]

/-- The run lemma: writes push full chunks, whatever they give. -/
theorem fullPushes_writeEach (hopen : w.stream.finalized = false)
    (hsize : w.chunkSize + overhead < UInt32.size) (writes : List Bytes) (log : Log) :
    FullPushes w log ((writeEach writes).runFrom w log).state
      ((writeEach writes).runFrom w log).log := by
  induction writes generalizing w log with
  | nil => exact fullPushes_nil w log
  | cons data writes ih =>
    have hone := fullPushes_write hopen hsize data log
    have hopen₁ : ((write data).runFrom w log).state.stream.finalized = false :=
      (sends_write_buffer hopen data log).unfinished (goesOn_messages _ _) hopen
    obtain ⟨results, w', log', hrun, -⟩ :=
      runFrom_writeEach hopen₁ writes ((write data).runFrom w log).log
    have hrest := ih hopen₁ (by obtain ⟨_, _, hpushes⟩ := hone; rwa [hpushes.chunkSize])
      ((write data).runFrom w log).log
    rw [runFrom_writeEach_cons, Session.runFrom_bind]
    rw [hrun] at hrest ⊢
    exact hone.trans hrest

/-- Behind writes of which the last one succeeded less than a chunk is waiting. -/
theorem length_lt_of_writeEach (hopen : w.stream.finalized = false)
    (hshort : w.buffer.length < w.chunkSize) {writes : List Bytes}
    {results : List (Except Failure Unit)}
    (hrun : (writeEach writes).runFrom w log = { result := .ok results, state := w₁, log := log₁ })
    (hlast : ∀ f, results.getLast? ≠ some (.error f)) : w₁.buffer.length < w₁.chunkSize := by
  rcases List.eq_nil_or_concat' writes with rfl | ⟨front, data, rfl⟩
  · cases hrun
    exact hshort
  · obtain ⟨before, w', log', hfront, hopen', -⟩ := runFrom_writeEach hopen front log
    rw [writeEach, List.mapM_append, Session.runFrom_bind, ← writeEach, hfront] at hrun
    simp only [List.mapM_cons, List.mapM_nil, Session.runFrom_bind, Session.runFrom_attempt,
      Session.runFrom_pure] at hrun
    rcases hwrite : (write data).runFrom w' log' with ⟨result, w'', log''⟩
    rw [hwrite] at hrun
    cases hrun
    cases result with
    | error f => exact absurd (by simp) (hlast f)
    | ok u => exact (of_write hopen' hwrite).2

/-- Writes from an empty buffer, whatever they give. -/
theorem exists_writeEach (hopen : w.stream.finalized = false)
    (hsize : w.chunkSize + overhead < UInt32.size) (hempty : w.buffer = []) (writes : List Bytes)
    (log : Log) :
    ∃ results w₁ log₁, (writeEach writes).runFrom w log =
        { result := .ok results, state := w₁, log := log₁ } ∧
      w₁.stream.finalized = false ∧ FullPushes w log w₁ log₁ ∧
      ((∀ f, results.getLast? ≠ some (.error f)) → w₁.buffer.length < w.chunkSize) := by
  obtain ⟨results, w₁, log₁, hrun, hopen₁, -⟩ := runFrom_writeEach hopen writes log
  have hfull := fullPushes_writeEach hopen hsize writes log
  rw [hrun] at hfull
  refine ⟨results, w₁, log₁, hrun, hopen₁, hfull, fun hlast => ?_⟩
  have hshort : w.buffer.length < w.chunkSize := by
    rw [hempty]
    exact w.chunkSize_pos
  obtain ⟨pieces, -, hpushes⟩ := hfull
  rw [← hpushes.chunkSize]
  exact length_lt_of_writeEach hopen hshort hrun hlast

/-! ## The end of a stream -/

/-- The end of a stream pushes the buffer, if it is not too long, and nothing else. -/
theorem exists_pushes_finalize (hopen : w.stream.finalized = false) (log : Log) :
    ∃ rest : Option Bytes, (w.buffer.length ≤ messageMax → rest = some w.buffer) ∧
      Pushes w log (rest.toList.map fun plaintext => { plaintext, ad := w.ad, tag := .final })
        (finalize.runFrom w log).state (finalize.runFrom w log).log := by
  simp only [finalize, Session.runFrom_bind, Session.runFrom_get, Session.runFrom_set]
  by_cases hfits : w.buffer.length ≤ messageMax
  · refine ⟨some w.buffer, fun _ => rfl, ?_⟩
    have hpushes := pushes_sendChunk (w := w.withBuffer []) hopen hfits .final log
    rw [withBuffer] at hpushes
    generalize (sendChunk w.buffer .final).runFrom { w with buffer := [] } log = outcome
      at hpushes ⊢
    obtain ⟨result, w', log'⟩ := outcome
    cases result with
    | error f => exact ⟨hpushes.stream, hpushes.ad, hpushes.chunkSize, hpushes.log⟩
    | ok u =>
      simp only [onSink, Session.runFrom_focus, Session.runFrom_emit, Sink.runFrom_sync]
      cases w'.sink.flush with
      | error kind => exact ⟨hpushes.stream, hpushes.ad, hpushes.chunkSize, hpushes.log⟩
      | ok u =>
        exact ⟨hpushes.stream, hpushes.ad, hpushes.chunkSize,
          (Log.pushed_cons ..).trans ((List.append_nil _).trans hpushes.log)⟩
  · refine ⟨none, fun h => absurd h hfits, ?_⟩
    obtain ⟨f, hrun⟩ := runFrom_sendChunk_of_gt (w := w.withBuffer [])
      (Nat.lt_of_not_le hfits) .final log
    rw [withBuffer] at hrun
    rw [hrun]
    exact ⟨rfl, rfl, rfl, (List.append_nil _).symm⟩

/-! ## A whole stream -/

/-- Writes, whatever each of them gives, and the end of the stream. -/
def writeEachAndEnd (writes : List Bytes) :
    Session Writer (List (Except Failure Unit) × Except Failure Unit) := do
  let results ← writeEach writes
  return (results, ← finalize.attempt)

/-- The start of a stream pushes nothing. -/
theorem pushed_of_create {key : FixedBytes 32} {header : Header} {ad : Bytes} {c : Nat}
    {sink after : Sink} {log' : Log} (h : (create key header ad c).runFrom sink log =
      { result := .ok w, state := after, log := log' }) : Log.pushed log' = Log.pushed log := by
  have hstarted : Log.pushed (.initialized .push :: log) = Log.pushed log :=
    (Log.pushed_cons ..).trans (List.append_nil _)
  by_cases hc : 0 < c
  · simp only [create, hc, dif_pos, Session.runFrom_bind, runFrom_initPush,
      Session.runFrom_liftFault] at h
    rcases sink.send_cases "stream header" header.toList with
      ⟨sink₁, hsend, -, -⟩ | ⟨kind, front, sink₁, hsend, -, -, -⟩
    · rw [hsend] at h
      cases hcheck : checkCapacity c with
      | error f => simp [hcheck] at h
      | ok u =>
        simp only [hcheck, Failure.mapError_ok, Session.runFrom_get, Session.runFrom_pure] at h
        cases h
        exact hstarted
    · rw [hsend] at h
      cases h
  · simp only [create, hc] at h
    cases h

/-- The chunks of some pieces and, where there is one, of a rest behind them. -/
def chunksWith (ad : Bytes) (pieces : List Bytes) (rest : Option Bytes) : List Outgoing :=
  pieces.map (message ad) ++
    rest.toList.map fun plaintext => { plaintext, ad, tag := .final }

theorem le_of_mem_chunksWith {ad : Bytes} {c : Nat} {pieces : List Bytes} {last : Bytes}
    (hpieces : ∀ piece ∈ pieces, piece.length = c) (hlast : last.length < c) {out : Outgoing}
    (h : out ∈ chunksWith ad pieces (some last)) : out.plaintext.length ≤ c := by
  rcases List.mem_append.mp h with hfull | hrest
  · obtain ⟨piece, hpiece, rfl⟩ := List.mem_map.mp hfull
    exact Nat.le_of_eq (hpieces piece hpiece)
  · obtain rfl := List.mem_singleton.mp hrest
    exact Nat.le_of_lt hlast

/-- The chunks of a writer are of its size. Whatever the sink does and whatever the writes give,
what a writer pushes up to the end of its stream are chunks that carry just as many bytes as its
size and then at most one final chunk, and nothing else moves its stream on. If the last write
succeeded, or there was none, the final chunk is pushed and carries fewer bytes, and then the length
of every chunk passes the check of a reader whose limit is the writer's size. -/
theorem chunk_sizes_of_writes {key : FixedBytes 32} {header : Header} {ad : Bytes} {c : Nat}
    {sink after : Sink} {w : Writer} {log : Log} (hsize : c + 17 < 2 ^ 32)
    (hcreate : (create key header ad c).runOn sink = { result := .ok w, state := after, log })
    (writes : List Bytes) :
    ∃ results ended w' log' pieces rest,
      (writeEachAndEnd writes).runFrom w log =
        { result := .ok (results, ended), state := w', log := log' } ∧
      w'.stream = (ofHeader key header).afterAll (chunksWith ad pieces rest) ∧
      Log.pushed log' =
        (chunksWith ad pieces rest).map (fun out => (out.plaintext.length, out.tag)) ∧
      (∀ piece ∈ pieces, piece.length = c) ∧
      ((∀ f, results.getLast? ≠ some (.error f)) →
        (∃ last, rest = some last ∧ last.length < c) ∧
        ∀ push ∈ Log.pushed log',
          Frame.checkedLength (Bytes.ofNatLE 4 (push.1 + 17)) c = .ok (push.1 + 17)) := by
  obtain ⟨-, hstarted⟩ := started_of_create hcreate
  obtain ⟨results, w₁, log₁, hwrites, hopen₁, ⟨pieces, hlengths, hfull⟩, hwaiting⟩ :=
    exists_writeEach hstarted.unfinished (hstarted.chunkSize.symm ▸ hsize) hstarted.buffer writes
      log
  rw [hstarted.ad] at hfull
  rw [hstarted.chunkSize] at hlengths hwaiting
  obtain ⟨rest, hrest, hlast⟩ := exists_pushes_finalize hopen₁ log₁
  rw [hfull.ad, hstarted.ad] at hlast
  have hall := hfull.trans hlast
  have hpushed : Log.pushed (finalize.runFrom w₁ log₁).log =
      (chunksWith ad pieces rest).map (fun out => (out.plaintext.length, out.tag)) := by
    rw [hall.log, pushed_of_create hcreate]
    rfl
  refine ⟨results, (finalize.runFrom w₁ log₁).result, (finalize.runFrom w₁ log₁).state,
    (finalize.runFrom w₁ log₁).log, pieces, rest, ?_, ?_, hpushed, hlengths, fun hok => ?_⟩
  · simp only [writeEachAndEnd, Session.runFrom_bind, hwrites, Session.runFrom_attempt,
      Session.runFrom_pure]
  · rw [hall.stream, hstarted.stream]
    rfl
  · have hshort := hwaiting hok
    have hfits : w₁.buffer.length + overhead < UInt32.size :=
      Nat.lt_trans (Nat.add_lt_add_right hshort overhead) hsize
    obtain rfl := hrest (le_messageMax hfits)
    refine ⟨⟨w₁.buffer, rfl, hshort⟩, fun push hmem => ?_⟩
    rw [hpushed] at hmem
    obtain ⟨out, hout, rfl⟩ := List.mem_map.mp hmem
    have hle := Nat.add_le_add_right (le_of_mem_chunksWith hlengths hshort hout) overhead
    exact Frame.checkedLength_ofNatLE (Nat.le_add_left ..) hle (Nat.lt_of_le_of_lt hle hsize)

/-- One byte that fills no chunk, over a sink that takes the header only. -/
theorem chunk_sizes_of_one_byte :
    2 + 17 < 2 ^ 32 ∧ ∃ w log results ended w' log', ∃ last : Bytes,
      (create (.zero 32) (.zero 24) [5] 2).runOn ⟨[], [.accept 24, .fail .brokenPipe], none⟩ =
        { result := .ok w, state := w.sink, log } ∧
      (writeEachAndEnd [[7]]).runFrom w log =
        { result := .ok (results, ended), state := w', log := log' } ∧
      results = [.ok ()] ∧ (last.length, .final) ∈ Log.pushed log' ∧ last.length < 2 := by
  have hsmall : 2 + 17 < 2 ^ 32 := by norm_num
  obtain ⟨w, hcreate, hbuffer, hsize⟩ : ∃ w : Writer,
      (create (.zero 32) (.zero 24) [5] 2).runOn ⟨[], [.accept 24, .fail .brokenPipe], none⟩ =
        { result := .ok w, state := w.sink, log := [.initialized .push] } ∧
      w.buffer = [] ∧ w.chunkSize = 2 := ⟨_, rfl, rfl, rfl⟩
  obtain ⟨results, ended, w', log', pieces, rest, hrun, -, hpushed, -, hend⟩ :=
    chunk_sizes_of_writes hsmall hcreate [[7]]
  have hwrite : (write [7]).runFrom w [.initialized .push] =
      { result := .ok (), state := w.withBuffer [7], log := [.initialized .push] } := by
    rw [runFrom_write_of_lt (by rw [hbuffer, hsize]; decide), hbuffer]
    rfl
  have hresults : results = [.ok ()] := by
    have hsame := hrun
    simp only [writeEachAndEnd, writeEach, List.mapM_cons, List.mapM_nil, Session.runFrom_bind,
      Session.runFrom_attempt, hwrite, Session.runFrom_pure] at hsame
    cases hsame
    rfl
  obtain ⟨⟨last, rfl, hshort⟩, -⟩ := hend (by simp [hresults])
  refine ⟨hsmall, w, _, results, ended, w', log', last, hcreate, hrun, hresults, ?_, hshort⟩
  rw [hpushed]
  simp [chunksWith]

end Writer

/-- The length field of a chunk over the limit is refused. -/
theorem Frame.checkedLength_of_long {length limit : Nat} (hlong : limit + overhead < length)
    (hsize : length < UInt32.size) :
    checkedLength (Bytes.ofNatLE 4 length) limit =
      .error (.invalidLength "stream chunk" limit (length - overhead)) := by
  have hfour : 256 ^ 4 = UInt32.size := by decide
  have hvalue : Bytes.toNatLE (Bytes.ofNatLE 4 length) = length := by
    rw [Bytes.toNatLE_ofNatLE, hfour, Nat.mod_eq_of_lt hsize]
  have hcipher : Check.ciphertextLength "stream chunk" length overhead = .ok () :=
    if_neg (by omega)
  have hlimit : Check.maxLength "stream chunk" (length - overhead) limit =
      .error (.invalidLength "stream chunk" limit (length - overhead)) := if_pos (by omega)
  simp only [checkedLength, hvalue, hcipher, hlimit, Failure.ok_bind, Failure.error_bind]

namespace Reader

/-- A reader refuses a chunk over its limit by its length. -/
theorem result_of_read_long {r : Reader} {chunk back : Bytes} (hs : r.source.Smooth)
    (hbytes : r.source.bytes = Frame.ofChunk chunk ++ back) (hunread : r.unread = [])
    (hgoing : r.finished = false) (hlong : r.limit + overhead < chunk.length)
    (hsize : chunk.length < UInt32.size) {n : Nat} (hn : 0 < n) (log : Log) :
    ((read n).runFrom r log).result =
      .error (.error (.invalidLength "stream chunk" r.limit (chunk.length - overhead))) := by
  rw [Frame.ofChunk, List.append_assoc] at hbytes
  obtain ⟨source, hfield, -, -⟩ := Frame.runFrom_readOrTruncated hs hbytes
    (Bytes.length_ofNatLE 4 chunk.length).symm
  have hnext : nextChunk.runFrom r log =
      { result := .error (.error
          (.invalidLength "stream chunk" r.limit (chunk.length - overhead)))
        state := { r with source }
        log } := by
    simp only [nextChunk, onSource, Frame.readFrame, Session.runFrom_bind, Session.runFrom_get,
      Session.runFrom_focus, hfield, Frame.checkedLength_of_long hlong hsize,
      Session.runFrom_liftError, Failure.mapError_error]
  have hskip := skipToPlaintext_of_error (by simp [hunread, hgoing]) hnext
  simp only [read, hn, if_pos, Session.runFrom_bind, Session.runFrom_ofRun, hskip]

end Reader

namespace Writer

/-- A writer of chunks of one byte whose sink fails once: the first byte is lost, the other two
wait in the buffer and go out as the final chunk, and the end succeeds. A reader with the same
limit refuses this chunk. -/
theorem final_chunk_over_limit :
    ∃ w log w' log',
      (create (.zero 32) (.zero 24) [] 1).runOn ⟨[], [.accept 24, .fail .brokenPipe], none⟩ =
        { result := .ok w, state := w.sink, log } ∧
      (writeEachAndEnd [[1, 2, 3]]).runFrom w log =
        { result := .ok ([.error (.error (.io "stream write" .brokenPipe))], .ok ())
          state := w'
          log := log' } ∧
      Log.pushed log' = [(1, .message), (2, .final)] ∧
      ∀ source : Source, source.Smooth → source.bytes = w'.sink.taken →
        ∃ reader, ((Reader.create (.zero 32) [] 1).runOn source).result = .ok reader ∧
          ∀ n log, 0 < n → ((Reader.read n).runFrom reader log).result =
            .error (.error (.invalidLength "stream chunk" 1 2)) := by
  obtain ⟨w, hcreate, hsink, hopen, hbuffer, had, hsize⟩ : ∃ w : Writer,
      (create (.zero 32) (.zero 24) [] 1).runOn ⟨[], [.accept 24, .fail .brokenPipe], none⟩ =
        { result := .ok w, state := w.sink, log := [.initialized .push] } ∧
      w.sink = ⟨[(FixedBytes.zero 24).toList], [.fail .brokenPipe], none⟩ ∧
      w.stream.finalized = false ∧ w.buffer = [] ∧ w.ad = [] ∧ w.chunkSize = 1 :=
    ⟨_, rfl, rfl, rfl, rfl, rfl, rfl⟩
  have hfail : ∀ log, (Sink.send "stream write" (Bytes.ofNatLE 4 (1 + overhead))).runFrom
      w.sink log =
        { result := .error (.error (.io "stream write" .brokenPipe))
          state := ⟨[[], (FixedBytes.zero 24).toList], [], none⟩, log } := by
    intro log
    rw [hsink]
    rfl
  obtain ⟨w₁, log₁, hwrite, hpushed₁, htaken₁, hsmooth₁, hopen₁, hbuffer₁, had₁⟩ : ∃ w₁ log₁,
      (write [1, 2, 3]).runFrom w [.initialized .push] =
        { result := .error (.error (.io "stream write" .brokenPipe)), state := w₁, log := log₁ } ∧
      Log.pushed log₁ = [(1, .message)] ∧ w₁.sink.taken = (FixedBytes.zero 24).toList ∧
      w₁.sink.Smooth ∧ w₁.stream.finalized = false ∧ w₁.buffer = [2, 3] ∧ w₁.ad = [] := by
    obtain ⟨log₁, hlost⟩ := runFrom_sendChunk_of_error (w := w.withBuffer [2, 3]) hopen [1]
      (by decide) hfail .message [.initialized .push]
    have hpushes := pushes_sendChunk (w := w.withBuffer [2, 3]) hopen
      (show ([1] : Bytes).length ≤ messageMax by decide) .message [.initialized .push]
    rw [hlost] at hpushes
    have hwrite := runFrom_write_of_error (show w.buffer ++ [1, 2, 3] = [1] ++ [2, 3] by
      rw [hbuffer]; rfl) hsize.symm hlost
    refine ⟨_, log₁, hwrite, hpushes.log, by simp [Sink.taken], ⟨by simp, rfl⟩, ?_,
      rfl, had⟩
    exact (finalized_next ..).trans (by rw [Bool.or_eq_false_iff]; exact ⟨hopen, rfl⟩)
  obtain ⟨w₂, log₂, hend, htaken₂⟩ := runFrom_finalize_smooth hopen₁ hsmooth₁
    (by rw [hbuffer₁]; decide) log₁
  obtain ⟨rest, hrest, hpushes₂⟩ := exists_pushes_finalize hopen₁ log₁
  have hpushed₂ := hpushes₂.log
  rw [hend, hpushed₁, hrest (by rw [hbuffer₁]; decide), hbuffer₁] at hpushed₂
  rw [hbuffer₁, had₁, htaken₁] at htaken₂
  refine ⟨w, _, w₂, log₂, hcreate, ?_, hpushed₂, fun source hs hbytes => ?_⟩
  · simp only [writeEachAndEnd, writeEach, List.mapM_cons, List.mapM_nil, Session.runFrom_bind,
      Session.runFrom_attempt, hwrite, hend, Session.runFrom_pure]
  · rw [htaken₂] at hbytes
    obtain ⟨source', log', hreader, hsmooth, hleft⟩ :=
      Reader.runFrom_create hs hbytes (.zero 32) [] 1 []
    refine ⟨_, by rw [Session.runOn, hreader], fun n log hn => ?_⟩
    have hlength : (w₁.stream.chunk [2, 3] [] .final).length = 19 := length_chunk ..
    have hread := Reader.result_of_read_long
      (r := Reader.atStart (.zero 32) (.zero 24) [] 1 source') hsmooth
      (hleft.trans (List.append_nil _).symm) rfl rfl
      (show 1 + overhead < _ by rw [hlength]; decide) (by rw [hlength]; decide) hn log
    rw [hlength] at hread
    exact hread

end Writer

end AuthEncryption
