import AuthEncryption.Proofs.Transfer.Sending

/-!
# Two writes are one

A writer that is given a string in two writes does what it does if it is given the string in one,
whatever its sink does: it reports the same, ends in the same way and leaves the same sink. Only
what a failed write leaves in the buffer differs, as the later part of the string was not given to
the writer yet.
-/
namespace AuthEncryption

/-- The same outcome with another state. -/
def Outcome.mapState {σ α : Type} (outcome : Outcome σ α) (f : σ → σ) : Outcome σ α :=
  { outcome with state := f outcome.state }

namespace Writer

/-! ## What stands in the buffer behind a chunk -/

/-- The writer with another buffer. -/
def withBuffer (w : Writer) (buffer : Bytes) : Writer := { w with buffer }

/-- A chunk that is sent, or that fails on the way, changes the sink, the stream and the count. It
does so whatever the buffer is, and the buffer stays. -/
theorem sendChunk_cases (w : Writer) (plaintext : Bytes) (tag : ChunkTag) (log : Log) :
    ∃ result sink stream chunks log', ∀ buffer,
      (sendChunk plaintext tag).runFrom (w.withBuffer buffer) log =
        { result, state := { w with sink, stream, chunks, buffer }, log := log' } := by
  rcases hpush : (SecretStream.push plaintext w.ad tag).runFrom w.stream log with
    ⟨result, stream, log₁⟩
  cases result with
  | error f =>
    refine ⟨.error f, w.sink, stream, w.chunks, log₁, fun buffer => ?_⟩
    simp only [sendChunk, onStream, Session.runFrom_bind, Session.runFrom_get,
      Session.runFrom_focus, withBuffer, hpush]
  | ok chunk =>
    cases hfield : lengthField chunk.length with
    | error cause =>
      refine ⟨.error (.error cause), w.sink, stream, w.chunks, log₁, fun buffer => ?_⟩
      simp only [sendChunk, onStream, Session.runFrom_bind, Session.runFrom_get,
        Session.runFrom_focus, Session.runFrom_liftError, Failure.mapError_error, withBuffer,
        hpush, hfield]
    | ok field =>
      rcases hsend : (Sink.send "stream write" field).runFrom w.sink log₁ with
        ⟨result, sink₁, log₂⟩
      rcases hsend' : (Sink.send "stream write" chunk).runFrom sink₁ log₂ with
        ⟨result', sink₂, log₃⟩
      simp only [sendChunk, onStream, onSink, Session.runFrom_bind, Session.runFrom_get,
        Session.runFrom_focus, Session.runFrom_liftError, Session.runFrom_modify,
        Session.runFrom_emit, Failure.mapError_ok, withBuffer, hpush, hfield, hsend]
      cases result with
      | error f => exact ⟨.error f, sink₁, stream, w.chunks, log₂, fun buffer => rfl⟩
      | ok u =>
        simp only [hsend']
        cases result' with
        | error f => exact ⟨.error f, sink₂, stream, w.chunks, log₃, fun buffer => rfl⟩
        | ok u =>
          exact ⟨.ok (), sink₂, stream, w.chunks + 1,
            .chunkWritten (w.chunks + 1) chunk.length :: log₃, fun buffer => rfl⟩

/-- Sending a chunk does not look at the buffer. -/
theorem runFrom_sendChunk_withBuffer (w : Writer) (buffer plaintext : Bytes) (tag : ChunkTag)
    (log : Log) :
    (sendChunk plaintext tag).runFrom (w.withBuffer buffer) log =
      ((sendChunk plaintext tag).runFrom w log).mapState (·.withBuffer buffer) := by
  obtain ⟨result, sink, stream, chunks, log', hrun⟩ := w.sendChunk_cases plaintext tag log
  have hsame : (sendChunk plaintext tag).runFrom w log = _ := hrun w.buffer
  rw [hrun buffer, hsame]
  rfl

theorem buffer_of_sendChunk (w : Writer) (plaintext : Bytes) (tag : ChunkTag) (log : Log) :
    ((sendChunk plaintext tag).runFrom w log).state.buffer = w.buffer :=
  congrArg (·.state.buffer) (runFrom_sendChunk_withBuffer w w.buffer plaintext tag log)

theorem runFrom_sendFull_succ (count : Nat) (w : Writer) (log : Log) :
    (sendFull (count + 1)).runFrom w log =
      (do sendChunk (w.buffer.take w.chunkSize) .message; sendFull count).runFrom
        (w.withBuffer (w.buffer.drop w.chunkSize)) log := by
  simp only [sendFull, Session.runFrom_bind, Session.runFrom_get, Session.runFrom_set, withBuffer]

theorem runFrom_sendFull_add (i j : Nat) (w : Writer) (log : Log) :
    (sendFull (i + j)).runFrom w log = (do sendFull i; sendFull j).runFrom w log := by
  induction i generalizing w log with
  | zero => rw [Nat.zero_add]; rfl
  | succ i ih =>
    rw [Nat.succ_add, Session.runFrom_bind, runFrom_sendFull_succ, runFrom_sendFull_succ,
      Session.runFrom_bind, Session.runFrom_bind]
    rcases (sendChunk (w.buffer.take w.chunkSize) .message).runFrom
      (w.withBuffer (w.buffer.drop w.chunkSize)) log with ⟨result, w₁, log₁⟩
    cases result with
    | error f => rfl
    | ok u =>
      simp only [ih, Session.runFrom_bind]

/-- Full chunks that a buffer holds leave it in the same way if more stands behind them. -/
theorem runFrom_sendFull_append {w : Writer} (hopen : w.stream.finalized = false) (count : Nat)
    (h : w.chunkSize * count ≤ w.buffer.length) (more : Bytes) (log : Log) :
    (sendFull count).runFrom (w.withBuffer (w.buffer ++ more)) log =
      ((sendFull count).runFrom w log).mapState fun w₁ => w₁.withBuffer (w₁.buffer ++ more) := by
  induction count generalizing w log with
  | zero => rfl
  | succ count ih =>
    rw [Nat.mul_succ] at h
    have hle : w.chunkSize ≤ w.buffer.length := by omega
    have hchunk := sends_sendChunk (w := w.withBuffer (w.buffer.drop w.chunkSize)) hopen
      (w.buffer.take w.chunkSize) .message log
    have hwith : (sendChunk (w.buffer.take w.chunkSize) .message).runFrom
        (w.withBuffer (w.buffer.drop w.chunkSize ++ more)) log =
          ((sendChunk (w.buffer.take w.chunkSize) .message).runFrom
            (w.withBuffer (w.buffer.drop w.chunkSize)) log).mapState
              (·.withBuffer (w.buffer.drop w.chunkSize ++ more)) :=
      runFrom_sendChunk_withBuffer (w.withBuffer (w.buffer.drop w.chunkSize)) _ _ .message log
    have hleft : (sendFull (count + 1)).runFrom (w.withBuffer (w.buffer ++ more)) log =
        (do sendChunk (w.buffer.take w.chunkSize) .message; sendFull count).runFrom
          (w.withBuffer (w.buffer.drop w.chunkSize ++ more)) log := by
      rw [runFrom_sendFull_succ]
      simp only [withBuffer, List.take_append_of_le_length hle,
        List.drop_append_of_le_length hle]
    -- Sending the first chunk does not look at what stands behind it, so both runs go on alike.
    rw [hleft, runFrom_sendFull_succ, Session.runFrom_bind, Session.runFrom_bind, hwith]
    have hkept := buffer_of_sendChunk (w.withBuffer (w.buffer.drop w.chunkSize))
      (w.buffer.take w.chunkSize) .message log
    generalize (sendChunk (w.buffer.take w.chunkSize) .message).runFrom
      (w.withBuffer (w.buffer.drop w.chunkSize)) log = outcome at hchunk hkept ⊢
    cases hchunk with
    | @stopped w₁ f log₁ hstopped =>
      replace hkept : w₁.buffer = w.buffer.drop w.chunkSize := hkept
      simp only [Outcome.mapState, hkept]
    | @all w₁ log₁ hput hbuffer =>
      have hroom : w₁.chunkSize * count ≤ w₁.buffer.length := by
        rw [hbuffer, hput.chunkSize]
        simp only [withBuffer, List.length_drop]
        omega
      have hrest := ih (hput.unfinished (goesOn_messages _ [_]) hopen) hroom log₁
      rw [hbuffer] at hrest
      exact hrest

/-! ## Two writes -/

/-- What a caller has of an operation who drops the writer if it fails: how it ended, the writer if
it did not fail, the sink, and the reports. -/
def seen (outcome : Outcome Writer Unit) : Except Failure Writer × Sink × Log :=
  (outcome.result.map fun _ => outcome.state, outcome.state.sink, outcome.log)

/-- What looks the same fails in the same way or is the same, and leaves the same sink. -/
theorem of_seen_eq {result result' : Except Failure Unit} {w w' : Writer} {log log' : Log}
    (h : seen ⟨result, w, log⟩ = seen ⟨result', w', log'⟩) :
    result = result' ∧ w.sink = w'.sink ∧ log = log' ∧ (result = .ok () → w = w') := by
  obtain ⟨hresult, hsink, hlog⟩ : result.map (fun _ => w) = result'.map (fun _ => w') ∧
      w.sink = w'.sink ∧ log = log' := by simpa [seen] using h
  cases result with
  | error f =>
    cases result' with
    | error f' =>
      cases hresult
      exact ⟨rfl, hsink, hlog, fun hok => by cases hok⟩
    | ok u => cases hresult
  | ok u =>
    cases result' with
    | error f' => cases hresult
    | ok u' =>
      cases hresult
      exact ⟨rfl, hsink, hlog, fun _ => rfl⟩

/-- Operations that look the same, with operations behind them that look the same. -/
theorem seen_bind_congr {op op' : Session Writer Unit} {next next' : Unit → Session Writer Unit}
    {w w' : Writer} {log log' : Log} (h : seen (op.runFrom w log) = seen (op'.runFrom w' log'))
    (hnext : ∀ w₁ log₁, op.runFrom w log = { result := .ok (), state := w₁, log := log₁ } →
      seen ((next ()).runFrom w₁ log₁) = seen ((next' ()).runFrom w₁ log₁)) :
    seen ((op >>= next).runFrom w log) = seen ((op' >>= next').runFrom w' log') := by
  rw [Session.runFrom_bind, Session.runFrom_bind]
  rcases hop : op.runFrom w log with ⟨result, w₁, log₁⟩
  rcases hop' : op'.runFrom w' log' with ⟨result', w₁', log₁'⟩
  rw [hop, hop'] at h
  obtain ⟨rfl, hsink, rfl, hsame⟩ := of_seen_eq h
  cases result with
  | error f => exact congrArg (fun sink => (Except.error f, sink, log₁)) hsink
  | ok u =>
    obtain rfl := hsame rfl
    exact hnext w₁ log₁ hop

/-- Of a writer that is dropped a caller has its sink only. -/
theorem runFrom_focus_of_seen {op op' : Session Writer Unit} {w : Writer} {log : Log}
    (h : seen (op.runFrom w log) = seen (op'.runFrom w log)) :
    (op.focus (fun sink => { w with sink }) fun _ w => w.sink : Session Sink Unit).runFrom
        w.sink log =
      (op'.focus (fun sink => { w with sink }) fun _ w => w.sink : Session Sink Unit).runFrom
        w.sink log := by
  simp only [Session.runFrom_focus]
  generalize op.runFrom w log = outcome at h ⊢
  generalize op'.runFrom w log = outcome' at h ⊢
  obtain ⟨hresult, hsink, hlog, -⟩ := of_seen_eq h
  simp only [hresult, hsink, hlog]

variable {w : Writer}

theorem runFrom_write (data : Bytes) (w : Writer) (log : Log) :
    (write data).runFrom w log =
      (sendFull ((w.buffer ++ data).length / w.chunkSize)).runFrom
        (w.withBuffer (w.buffer ++ data)) log := by
  simp only [write, Session.runFrom_bind, Session.runFrom_modify, Session.runFrom_get, withBuffer]

/-- A write that fills no chunk is kept in the buffer. -/
theorem runFrom_write_of_lt {data : Bytes} (h : (w.buffer ++ data).length < w.chunkSize)
    (log : Log) :
    (write data).runFrom w log =
      { result := .ok (), state := w.withBuffer (w.buffer ++ data), log } := by
  rw [runFrom_write, Nat.div_eq_of_lt h]
  rfl

theorem runFrom_write_nil (h : w.buffer.length < w.chunkSize) (log : Log) :
    (write []).runFrom w log = { result := .ok (), state := w, log } := by
  rw [runFrom_write_of_lt (by rwa [List.append_nil]), List.append_nil]
  rfl

/-- A write that fills just one chunk sends it. -/
theorem runFrom_write_of_eq {data : Bytes} (h : (w.buffer ++ data).length = w.chunkSize)
    (log : Log) :
    (write data).runFrom w log =
      (sendChunk (w.buffer ++ data) .message).runFrom (w.withBuffer []) log := by
  have htake : (w.buffer ++ data).take w.chunkSize = w.buffer ++ data :=
    List.take_of_length_le (Nat.le_of_eq h)
  have hdrop : (w.buffer ++ data).drop w.chunkSize = [] := List.drop_of_length_le (Nat.le_of_eq h)
  rw [runFrom_write, h, Nat.div_self w.chunkSize_pos, runFrom_sendFull_succ]
  simp only [withBuffer, sendFull, htake, hdrop, bind_pure_unit]

/-- After a write no full chunk is waiting. -/
theorem of_write {w₁ : Writer} {data : Bytes} {log log₁ : Log}
    (hopen : w.stream.finalized = false)
    (h : (write data).runFrom w log = { result := .ok (), state := w₁, log := log₁ }) :
    w₁.stream.finalized = false ∧ w₁.buffer.length < w₁.chunkSize := by
  have hwrite := sends_write_buffer hopen data log
  rw [h] at hwrite
  cases hwrite with
  | all hput hbuffer =>
    refine ⟨hput.unfinished (goesOn_messages _ _) hopen, ?_⟩
    rw [hbuffer, hput.chunkSize, Bytes.length_leftover]
    exact Nat.mod_lt _ w.chunkSize_pos

/-- A string in two writes, or in one. -/
theorem seen_write_append (hopen : w.stream.finalized = false) (a b : Bytes) (log : Log) :
    seen ((write (a ++ b)).runFrom w log) = seen ((do write a; write b).runFrom w log) := by
  obtain ⟨all, hall⟩ : ∃ all, all = w.buffer ++ a := ⟨_, rfl⟩
  have hmore : (sendFull (all.length / w.chunkSize)).runFrom (w.withBuffer (all ++ b)) log =
      ((sendFull (all.length / w.chunkSize)).runFrom (w.withBuffer all) log).mapState
        fun w₁ => w₁.withBuffer (w₁.buffer ++ b) :=
    runFrom_sendFull_append (w := w.withBuffer all) hopen _ (Nat.mul_div_le _ _) b log
  have hfull := sends_sendFull (w := w.withBuffer all) hopen (all.length / w.chunkSize) log
  -- One write sends the chunks that `a` fills and then those that `b` fills with what is left.
  rw [Session.runFrom_bind, runFrom_write, runFrom_write, ← List.append_assoc, ← hall,
    Bytes.count_append w.chunkSize_pos, runFrom_sendFull_add, Session.runFrom_bind, hmore]
  generalize (sendFull (all.length / w.chunkSize)).runFrom (w.withBuffer all) log = outcome
    at hfull ⊢
  cases hfull with
  | stopped hstopped => rfl
  | @all w₁ log₁ hput hbuffer =>
    have hleft : w₁.buffer = Bytes.leftover w.chunkSize all := hbuffer
    have hsize : w₁.chunkSize = w.chunkSize := hput.chunkSize
    simp only [runFrom_write, hsize, hleft, Outcome.mapState]

/-- A string in any writes, or in one. -/
theorem seen_writes (hopen : w.stream.finalized = false) (hshort : w.buffer.length < w.chunkSize)
    (writes : List Bytes) (log : Log) :
    seen ((forM writes write : Session Writer Unit).runFrom w log) =
      seen ((write writes.flatten).runFrom w log) := by
  induction writes generalizing w log with
  | nil =>
    rw [List.flatten_nil, runFrom_write_nil hshort]
    rfl
  | cons data rest ih =>
    rw [List.flatten_cons, seen_write_append hopen]
    exact seen_bind_congr rfl fun w₁ log₁ hrun =>
      ih (of_write hopen hrun).1 (of_write hopen hrun).2 log₁

end Writer

end AuthEncryption
