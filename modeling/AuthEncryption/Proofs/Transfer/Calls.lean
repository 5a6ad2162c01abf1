import AuthEncryption.Proofs.Transfer.RoundTrip

/-!
# Calls of a reader

A reader is called again and again, whatever each call gives. A reading is what the calls have
done so far: what they gave, the reader behind them, and the chunks that the reader took from
its source and gave to its stream, accepted or not. As long as whole frames are in front of a
reader, its calls hand out their plaintexts in order, whatever comes behind these frames.
-/
namespace AuthEncryption

open SecretStream

namespace Reader

/-! ## The chunks a call takes from the source -/

/-- The chunk that a reader gets from its source next, if it gets one. -/
def nextInput (r : Reader) (log : Log) : List Incoming :=
  match ((Frame.readFrame r.limit).runFrom r.source log).result with
  | .ok chunk => [{ chunk, ad := r.ad }]
  | .error _ => []

/-- The chunks a reader gets until there is plaintext to hand out, the stream has ended or a
chunk fails. -/
def skippedInputs (r : Reader) (log : Log) : List Incoming :=
  if r.unread.isEmpty && !r.finished then
    match _h : nextChunk.runFrom r log with
    | { result := .ok (), state, log := log' } => nextInput r log ++ skippedInputs state log'
    | { result := .error _, state := _, log := _ } => nextInput r log
  else
    []
termination_by r.source.remaining
decreasing_by
  have := remaining_of_nextChunk _h
  omega

theorem skippedInputs_of_ok {r r' : Reader} {log log' : Log}
    (hmore : (r.unread.isEmpty && !r.finished) = true)
    (hnext : nextChunk.runFrom r log = { result := .ok (), state := r', log := log' }) :
    skippedInputs r log = nextInput r log ++ skippedInputs r' log' := by
  rw [skippedInputs, if_pos hmore]
  split
  · rename_i heq
    rw [hnext] at heq
    cases heq
    rfl
  · rename_i heq
    rw [hnext] at heq
    cases heq

theorem skippedInputs_of_error {r r' : Reader} {log log' : Log} {f : Failure}
    (hmore : (r.unread.isEmpty && !r.finished) = true)
    (hnext : nextChunk.runFrom r log = { result := .error f, state := r', log := log' }) :
    skippedInputs r log = nextInput r log := by
  rw [skippedInputs, if_pos hmore]
  split
  · rename_i heq
    rw [hnext] at heq
    cases heq
  · rfl

theorem skippedInputs_of_stop {r : Reader} (hstop : ¬ (r.unread.isEmpty && !r.finished) = true)
    (log : Log) : skippedInputs r log = [] := by
  rw [skippedInputs, if_neg hstop]

theorem skipToPlaintext_of_ok {r r' : Reader} {log log' : Log}
    (hmore : (r.unread.isEmpty && !r.finished) = true)
    (hnext : nextChunk.runFrom r log = { result := .ok (), state := r', log := log' }) :
    skipToPlaintext r log = skipToPlaintext r' log' := by
  rw [skipToPlaintext, if_pos hmore]
  split
  · rename_i heq
    rw [hnext] at heq
    cases heq
    rfl
  · rename_i heq
    rw [hnext] at heq
    cases heq

theorem skipToPlaintext_of_error {r r' : Reader} {log log' : Log} {f : Failure}
    (hmore : (r.unread.isEmpty && !r.finished) = true)
    (hnext : nextChunk.runFrom r log = { result := .error f, state := r', log := log' }) :
    skipToPlaintext r log = { result := .error f, state := r', log := log' } := by
  rw [skipToPlaintext, if_pos hmore]
  split
  · rename_i heq
    rw [hnext] at heq
    cases heq
  · rename_i heq
    rw [hnext] at heq
    cases heq
    rfl

/-- The chunks that a call for at most `n` bytes gives to the stream. -/
def readInputs (n : Nat) (r : Reader) (log : Log) : List Incoming :=
  if 0 < n then skippedInputs r log else []

/-! ## A sequence of calls -/

/-- The plaintext that some calls handed out. -/
def handedOut (results : List (Except Failure Bytes)) : Bytes :=
  results.flatMap fun
    | .ok piece => piece
    | .error _ => []

@[simp] theorem handedOut_ok (piece : Bytes) : handedOut [.ok piece] = piece := by
  simp [handedOut]

@[simp] theorem handedOut_error (f : Failure) : handedOut [.error f] = [] := rfl

@[simp] theorem handedOut_append (results more : List (Except Failure Bytes)) :
    handedOut (results ++ more) = handedOut results ++ handedOut more :=
  List.flatMap_append

@[simp] theorem handedOut_map_ok (pieces : List Bytes) :
    handedOut (pieces.map .ok) = pieces.flatten := by
  induction pieces with
  | nil => rfl
  | cons piece pieces ih =>
    rw [List.map_cons, List.flatten_cons, ← ih]
    rfl

/-- What calls of a reader have done so far. -/
structure Reading where
  reader : Reader
  log : Log
  /-- How the calls ended, in order. -/
  results : List (Except Failure Bytes)
  /-- What was given to the stream, in order. -/
  inputs : List Incoming

namespace Reading

def start (reader : Reader) (log : Log) : Reading := { reader, log, results := [], inputs := [] }

/-- One more call, for at most `n` bytes. -/
def call (reading : Reading) (n : Nat) : Reading :=
  let outcome := (read n).runFrom reading.reader reading.log
  { reader := outcome.state
    log := outcome.log
    results := reading.results ++ [outcome.result]
    inputs := reading.inputs ++ readInputs n reading.reader reading.log }

theorem call_of_read {reading : Reading} {n : Nat} {result : Except Failure Bytes} {after : Reader}
    {log : Log} (h : (read n).runFrom reading.reader reading.log =
      { result, state := after, log }) :
    reading.call n = ⟨after, log, reading.results ++ [result],
      reading.inputs ++ readInputs n reading.reader reading.log⟩ := by
  rw [call, h]

/-- Calls one after the other, whatever they give. -/
def calls (reading : Reading) (sizes : List Nat) : Reading := sizes.foldl call reading

theorem calls_cons (reading : Reading) (n : Nat) (sizes : List Nat) :
    reading.calls (n :: sizes) = (reading.call n).calls sizes := rfl

theorem calls_concat (reading : Reading) (sizes : List Nat) (n : Nat) :
    reading.calls (sizes ++ [n]) = (reading.calls sizes).call n :=
  List.foldl_append

/-- What was handed out stays handed out. -/
theorem isFront_calls (reading : Reading) (sizes : List Nat) :
    handedOut reading.results <+: handedOut (reading.calls sizes).results := by
  induction sizes generalizing reading with
  | nil => exact List.prefix_refl _
  | cons n sizes ih =>
    have hcall : handedOut reading.results <+: handedOut (reading.call n).results := by
      rw [call, handedOut_append]
      exact List.prefix_append ..
    exact hcall.trans (ih (reading.call n))

/-- Calls that stop at the first failure are calls, if there is none. -/
theorem calls_of_reads (reading : Reading) {sizes : List Nat} {pieces : List Bytes} {after : Reader}
    {log : Log} (h : (sizes.mapM read).runFrom reading.reader reading.log =
      { result := .ok pieces, state := after, log }) :
    (reading.calls sizes).results = reading.results ++ pieces.map .ok ∧
      (reading.calls sizes).reader = after := by
  induction sizes generalizing reading pieces with
  | nil =>
    cases h
    exact ⟨(List.append_nil _).symm, rfl⟩
  | cons n sizes ih =>
    simp only [List.mapM_cons, Session.runFrom_bind] at h
    rcases hread : (read n).runFrom reading.reader reading.log with ⟨result, r₁, log₁⟩
    rw [hread] at h
    cases result with
    | error f => cases h
    | ok piece =>
      rcases hreads : (sizes.mapM read).runFrom r₁ log₁ with ⟨results, r₂, log₂⟩
      simp only [hreads] at h
      cases results with
      | error f => cases h
      | ok rest =>
        cases h
        have hcall := call_of_read hread
        obtain ⟨hresults, hreader⟩ := ih (reading.call n) (by rw [hcall]; exact hreads)
        refine ⟨?_, hreader⟩
        rw [calls_cons, hresults, hcall, List.map_cons, List.append_assoc]
        rfl

end Reading

/-- Enough calls hand out all that a stream has, and then nothing, and it is finished. -/
theorem Pending.calls (reading : Reading) {text trailing : Bytes}
    (h : Pending reading.reader text trailing) {sizes : List Nat} (hpos : ∀ n ∈ sizes, 0 < n)
    (hlong : text.length < sizes.length) :
    handedOut (reading.calls sizes).results = handedOut reading.results ++ text ∧
      (reading.calls sizes).reader.finished = true := by
  obtain ⟨pieces, k, rest, after, log, htext, hrun, -, hlength, hfits, hend⟩ :=
    runFrom_reads h hpos reading.log
  have hk : 0 < k := by
    have hcount := length_le_flatten hfits
    rw [htext, List.length_append] at hlong
    omega
  obtain ⟨rfl, hdone⟩ := hend hk
  obtain ⟨hresults, hreader⟩ := reading.calls_of_reads hrun
  rw [hresults, hreader, handedOut_append, handedOut_map_ok, htext, List.flatten_append]
  simp [hdone.finished]

/-! ## Whole frames in front of a reader -/

/-- A reader whose source goes on with the frames of some chunks, none of them final, and then
with something else. -/
structure Facing (r : Reader) (outs : List Outgoing) (back : Bytes) : Prop where
  smooth : r.source.Smooth
  finished : r.finished = false
  finalized : r.stream.finalized = false
  goesOn : ∀ out ∈ outs, out.tag.isFinal = false
  fits : ∀ out ∈ outs, Fits r.ad r.limit out
  bytes : r.source.bytes = r.stream.frames outs ++ back

variable {r : Reader} {outs : List Outgoing} {back : Bytes}

theorem Facing.withUnread (h : Facing r outs back) (unread : Bytes) :
    Facing { r with unread } outs back :=
  ⟨h.smooth, h.finished, h.finalized, h.goesOn, h.fits, h.bytes⟩

/-- The step lemma for a frame: its plaintext is unread. -/
theorem Facing.runFrom_nextChunk {out : Outgoing} (h : Facing r (out :: outs) back) (log : Log) :
    ∃ r' log', nextChunk.runFrom r log = { result := .ok (), state := r', log := log' } ∧
      Facing r' outs back ∧ r'.unread = out.plaintext ∧ r'.limit = r.limit := by
  have hbytes := h.bytes
  rw [frames, List.append_assoc] at hbytes
  obtain ⟨source, hrun, hsmooth, hleft⟩ := runFrom_nextChunk_frame h.smooth hbytes
    h.finalized h.finished (h.fits out List.mem_cons_self) log
  have hgoing : out.tag.isFinal = false := h.goesOn out List.mem_cons_self
  refine ⟨_, _, hrun, ⟨hsmooth, hgoing, ?_, ?_, ?_, hleft⟩, rfl, rfl⟩
  · rw [after, finalized_next, h.finalized, hgoing]
    rfl
  · exact fun later hmem => h.goesOn later (List.mem_cons_of_mem _ hmem)
  · exact fun later hmem => h.fits later (List.mem_cons_of_mem _ hmem)

/-- Empty chunks are passed over until there is plaintext, or no frame is left. -/
theorem Facing.skipToPlaintext (h : Facing r outs back) (log : Log) :
    ∃ r' outs' log', Facing r' outs' back ∧ r'.limit = r.limit ∧
      r'.unread ++ joined outs' = r.unread ++ joined outs ∧
      (r.skipToPlaintext log = { result := .ok (), state := r', log := log' } ∧ r'.unread ≠ [] ∨
        r.skipToPlaintext log = r'.skipToPlaintext log' ∧ r'.unread = [] ∧ outs' = []) := by
  induction outs generalizing r log with
  | nil =>
    by_cases hunread : r.unread = []
    · exact ⟨r, [], log, h, rfl, rfl, Or.inr ⟨rfl, hunread, rfl⟩⟩
    · refine ⟨r, [], log, h, rfl, rfl, Or.inl ⟨?_, hunread⟩⟩
      rw [Reader.skipToPlaintext, if_neg (by simp [hunread])]
  | cons out outs ih =>
    by_cases hunread : r.unread = []
    · obtain ⟨r₁, log₁, hnext, hfacing, htext, hlimit⟩ := h.runFrom_nextChunk log
      obtain ⟨r', outs', log', hfacing', hlimit', hsame, hend⟩ := ih hfacing log₁
      rw [skipToPlaintext_of_ok (by simp [hunread, h.finished]) hnext]
      refine ⟨r', outs', log', hfacing', hlimit'.trans hlimit, ?_, hend⟩
      rw [hsame, htext, hunread, joined, joined, List.map_cons, List.flatten_cons, List.nil_append]
    · refine ⟨r, out :: outs, log, h, rfl, rfl, Or.inl ⟨?_, hunread⟩⟩
      rw [Reader.skipToPlaintext, if_neg (by simp [hunread])]

/-- A reader has a text to hand out before its source goes on with something else. -/
def Holding (r : Reader) (text back : Bytes) : Prop :=
  ∃ outs, Facing r outs back ∧ text = r.unread ++ joined outs

variable {text : Bytes}

/-- The step lemma for a call: it takes a piece from the front of the text. -/
theorem Holding.runFrom_read (h : Holding r text back) (hsome : text ≠ []) {n : Nat} (hn : 0 < n)
    (log : Log) :
    ∃ piece rest r' log',
      (read n).runFrom r log = { result := .ok piece, state := r', log := log' } ∧
      text = piece ++ rest ∧ piece ≠ [] ∧ piece.length ≤ n ∧ Holding r' rest back ∧
      r'.limit = r.limit := by
  obtain ⟨outs, hfacing, rfl⟩ := h
  obtain ⟨r₁, outs₁, log₁, hfacing₁, hlimit, hsame, ⟨hskip, hunread⟩ | ⟨-, hnone, hend⟩⟩ :=
    hfacing.skipToPlaintext log
  · refine ⟨r₁.unread.take n, r₁.unread.drop n ++ joined outs₁,
      { r₁ with unread := r₁.unread.drop n }, log₁, ?_, ?_, ?_, List.length_take_le ..,
      ⟨outs₁, hfacing₁.withUnread _, rfl⟩, hlimit⟩
    · simp only [read, hn, if_pos, Session.runFrom_bind, Session.runFrom_ofRun, hskip,
        Session.runFrom_get, Session.runFrom_set, Session.runFrom_pure]
    · rw [← List.append_assoc, List.take_append_drop, hsame]
    · intro hnil
      rcases List.take_eq_nil_iff.mp hnil with hzero | hnothing
      · omega
      · exact hunread hnothing
  · rw [← hsame, hnone, hend] at hsome
    exact absurd rfl hsome

/-- Where nothing is left to hand out, a call depends on what comes behind the frames. -/
theorem Holding.runFrom_read_nil (h : Holding r [] back) {n : Nat} (hn : 0 < n) (log : Log) :
    ∃ r' log', (read n).runFrom r log = (read n).runFrom r' log' ∧ Facing r' [] back ∧
      r'.unread = [] ∧ r'.limit = r.limit := by
  obtain ⟨outs, hfacing, htext⟩ := h
  obtain ⟨r₁, outs₁, log₁, hfacing₁, hlimit, hsame, ⟨-, hunread⟩ | ⟨hskip, hnone, rfl⟩⟩ :=
    hfacing.skipToPlaintext log
  · rw [← hsame] at htext
    exact absurd (List.append_eq_nil_iff.mp htext.symm).1 hunread
  · refine ⟨r₁, log₁, ?_, hfacing₁, hnone, hlimit⟩
    simp only [read, hn, if_pos, Session.runFrom_bind, Session.runFrom_ofRun, hskip]

/-- The run lemma: enough calls hand out all of the text before anything else. -/
theorem Holding.calls (reading : Reading) (h : Holding reading.reader text back) {sizes : List Nat}
    (hpos : ∀ n ∈ sizes, 0 < n) (hlong : text.length ≤ sizes.length) :
    handedOut reading.results ++ text <+: handedOut (reading.calls sizes).results := by
  induction sizes generalizing reading text with
  | nil =>
    rw [List.eq_nil_of_length_eq_zero (Nat.le_zero.mp hlong), List.append_nil]
    exact List.prefix_refl _
  | cons n sizes ih =>
    by_cases hsome : text = []
    · rw [hsome, List.append_nil]
      exact reading.isFront_calls (n :: sizes)
    · obtain ⟨piece, rest, r', log', hrun, rfl, hpiece, -, hholding, -⟩ :=
        h.runFrom_read hsome (hpos n List.mem_cons_self) reading.log
      have hcall := Reading.call_of_read hrun
      have hresults : handedOut (reading.call n).results = handedOut reading.results ++ piece := by
        rw [hcall, handedOut_append, handedOut_ok]
      have hshorter : rest.length ≤ sizes.length := by
        have hpositive := List.length_pos_iff.mpr hpiece
        rw [List.length_append, List.length_cons] at hlong
        omega
      rw [← List.append_assoc, ← hresults, Reading.calls_cons]
      exact ih (reading.call n) (by rw [hcall]; exact hholding)
        (fun m hm => hpos m (List.mem_cons_of_mem _ hm)) hshorter

end Reader

end AuthEncryption
