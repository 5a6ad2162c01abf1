import AuthEncryption.Proofs.Transfer.Calls
import AuthEncryption.Transfer.Pipe

/-!
# Only accepted plaintext is released

Whatever a source delivers and wherever it fails, and whether or not a caller goes on behind a
failure, what a reader handed out and what it has unread are the plaintexts of the chunks that its
stream accepted, and only the last of them can be unread. The reader counts as finished exactly
if this last one was the final chunk. One call keeps this, hence any sequence of calls does.
-/
namespace AuthEncryption

open SecretStream

namespace SecretStream

/-! ## A receiver's run, continued -/

/-- The state of a receiver behind some inputs. -/
def afterPulls (s : SecretStream) (inputs : List Incoming) : SecretStream :=
  inputs.foldl (fun s input => ((pull input.chunk input.ad).runOn s).state) s

/-- The plaintexts of what was accepted, one after the other. -/
def acceptedText (accepted : List Delivery) : Bytes := accepted.flatMap (·.plaintext)

/-- The plaintext that was accepted last. -/
def lastText (accepted : List Delivery) : Bytes := (accepted.getLast?.map (·.plaintext)).getD []

/-- Whether the final chunk was accepted, and nothing behind it. -/
def endsFinal (accepted : List Delivery) : Bool := accepted.getLast?.any (·.tag.isFinal)

section

variable (accepted : List Delivery) (last : Delivery)

@[simp] theorem acceptedText_concat :
    acceptedText (accepted ++ [last]) = acceptedText accepted ++ last.plaintext := by
  simp [acceptedText]

@[simp] theorem lastText_concat : lastText (accepted ++ [last]) = last.plaintext := by
  simp [lastText]

@[simp] theorem endsFinal_concat : endsFinal (accepted ++ [last]) = last.tag.isFinal := by
  simp [endsFinal]

end

variable (s : SecretStream)

/-- What becomes of an input does not depend on what was reported before. -/
theorem pull_cases_of_input (input : Incoming) :
    (∀ log, ∃ f log', (pull input.chunk input.ad).runFrom s log =
      { result := .error f, state := s, log := log' }) ∨
    ∃ plaintext tag s', ∀ log, ∃ log', (pull input.chunk input.ad).runFrom s log =
      { result := .ok (plaintext, tag), state := s', log := log' } := by
  obtain ⟨c, ad⟩ := input
  by_cases hgenuine : s.finalized = false ∧ ∃ m t, m.length ≤ messageMax ∧ c = s.chunk m ad t
  · obtain ⟨hopen, m, t, hm, rfl⟩ := hgenuine
    exact Or.inr ⟨m, t, _, fun log => ⟨_, s.runFrom_pull_chunk hopen hm ad t log⟩⟩
  · exact Or.inl fun log => (s.pull_cases c ad log).resolve_right hgenuine

theorem pullAll_congr_log (inputs : List Incoming) (log log' : Log) :
    pullAll inputs s log = pullAll inputs s log' := by
  induction inputs generalizing s log log' with
  | nil => rfl
  | cons input inputs ih =>
    rcases s.pull_cases_of_input input with hrejected | ⟨plaintext, tag, s', haccepted⟩
    · obtain ⟨f, log₁, h⟩ := hrejected log
      obtain ⟨f', log₁', h'⟩ := hrejected log'
      simp only [pullAll, h, h', ih s log₁ log₁']
    · obtain ⟨log₁, h⟩ := haccepted log
      obtain ⟨log₁', h'⟩ := haccepted log'
      simp only [pullAll, h, h', ih s' log₁ log₁']

/-- Inputs behind others are given to the state that these leave. -/
theorem pullAll_append (inputs more : List Incoming) (log log' : Log) :
    pullAll (inputs ++ more) s log =
      pullAll inputs s log ++ pullAll more (s.afterPulls inputs) log' := by
  induction inputs generalizing s log with
  | nil => exact s.pullAll_congr_log more log log'
  | cons input inputs ih =>
    rcases s.pull_cases_of_input input with hrejected | ⟨plaintext, tag, s', haccepted⟩
    · obtain ⟨f, log₁, h⟩ := hrejected log
      obtain ⟨f₀, log₀, h₀⟩ := hrejected []
      simp only [List.cons_append, pullAll, h, ih s log₁, afterPulls, List.foldl_cons,
        Session.runOn, h₀]
    · obtain ⟨log₁, h⟩ := haccepted log
      obtain ⟨log₀, h₀⟩ := haccepted []
      simp only [List.cons_append, pullAll, h, ih s' log₁, afterPulls, List.foldl_cons,
        Session.runOn, h₀]

theorem afterPulls_concat (inputs : List Incoming) (input : Incoming) (log : Log) :
    s.afterPulls (inputs ++ [input]) =
      ((pull input.chunk input.ad).runFrom (s.afterPulls inputs) log).state := by
  rw [afterPulls, List.foldl_append, List.foldl_cons, List.foldl_nil, ← afterPulls, Session.runOn]
  rcases (s.afterPulls inputs).pull_cases_of_input input with hrejected | ⟨_, _, _, haccepted⟩
  · obtain ⟨f, log₁, h⟩ := hrejected log
    obtain ⟨f₀, log₀, h₀⟩ := hrejected []
    rw [h, h₀]
  · obtain ⟨log₁, h⟩ := haccepted log
    obtain ⟨log₀, h₀⟩ := haccepted []
    rw [h, h₀]

end SecretStream

namespace Reader

/-! ## What one call keeps -/

/-- A reader whose source had some bytes has been given some inputs, from a state at the start, and
has handed out a text. -/
structure Tracks (s : SecretStream) (bytes : Bytes) (inputs : List Incoming) (given : Bytes)
    (r : Reader) : Prop where
  stream : r.stream = s.afterPulls inputs
  text : acceptedText (pullAll inputs s []) = given ++ r.unread
  unread : r.unread <:+ lastText (pullAll inputs s [])
  finished : r.finished = endsFinal (pullAll inputs s [])
  source : (inputs.flatMap (·.chunk) ++ r.source.bytes).Sublist bytes

variable {s : SecretStream} {bytes : Bytes} {inputs : List Incoming} {given : Bytes} {r : Reader}

/-- A chunk that is rejected changes nothing, and the plaintext of an accepted one is unread. -/
theorem tracks_accept (h : Tracks s bytes inputs given r) (hunread : r.unread = [])
    (hgoing : r.finished = false) {chunk : Bytes} {source : Source}
    (hsource : (chunk ++ source.bytes).Sublist r.source.bytes) (log : Log) :
    Tracks s bytes (inputs ++ [{ chunk, ad := r.ad }]) given
      ((accept chunk).runFrom { r with source } log).state := by
  -- The reader's stream does with the chunk what a longer run of inputs does with its last one.
  have hmore := s.pullAll_append inputs [{ chunk, ad := r.ad }] [] log
  have hstate := s.afterPulls_concat inputs { chunk, ad := r.ad } log
  have hsub : ((inputs ++ [Incoming.mk chunk r.ad]).flatMap (·.chunk) ++ source.bytes).Sublist
      bytes := by
    rw [List.flatMap_append, List.append_assoc, List.flatMap_singleton]
    exact (hsource.append_left _).trans h.source
  rw [← h.stream] at hmore hstate
  rcases hpull : (pull chunk r.ad).runFrom r.stream log with ⟨result, stream, log₁⟩
  rw [hpull] at hstate
  simp only [pullAll, hpull] at hmore
  cases result with
  | error f =>
    rw [List.append_nil] at hmore
    simp only [accept, onStream, Session.runFrom_bind, Session.runFrom_get, Session.runFrom_focus,
      hpull]
    exact ⟨hstate.symm, hmore ▸ h.text, hmore ▸ h.unread, hmore ▸ h.finished, hsub⟩
  | ok pulled =>
    obtain ⟨plaintext, tag⟩ := pulled
    have haccept := runFrom_accept (r := { r with source }) hgoing hpull
    have htext := acceptedText_concat (pullAll inputs s []) ⟨⟨chunk, r.ad⟩, plaintext, tag⟩
    have hlast := lastText_concat (pullAll inputs s []) ⟨⟨chunk, r.ad⟩, plaintext, tag⟩
    have hends := endsFinal_concat (pullAll inputs s []) ⟨⟨chunk, r.ad⟩, plaintext, tag⟩
    rw [h.text, hunread, List.append_nil, ← hmore] at htext
    rw [← hmore] at hlast hends
    rw [haccept]
    exact ⟨hstate.symm, htext, hlast ▸ List.suffix_refl _, hends.symm, hsub⟩

/-- The step lemma: the next chunk is given to the stream, if the source delivers it. -/
theorem tracks_nextChunk (h : Tracks s bytes inputs given r) (hunread : r.unread = [])
    (hgoing : r.finished = false) (log : Log) :
    Tracks s bytes (inputs ++ nextInput r log) given (nextChunk.runFrom r log).state := by
  obtain ⟨front, hbytes, hchunk⟩ := Frame.bytes_of_readFrame r.limit r.source log
  rcases hread : (Frame.readFrame r.limit).runFrom r.source log with ⟨result, source, log₁⟩
  rw [hread] at hbytes hchunk
  simp only [nextChunk, nextInput, onSource, Session.runFrom_bind, Session.runFrom_get,
    Session.runFrom_focus, hread]
  cases result with
  | error f =>
    rw [List.append_nil]
    have hsub : source.bytes.Sublist r.source.bytes := hbytes ▸ List.sublist_append_right ..
    exact ⟨h.stream, h.text, h.unread, h.finished, (hsub.append_left _).trans h.source⟩
  | ok chunk =>
    have hsub : (chunk ++ source.bytes).Sublist r.source.bytes :=
      hbytes ▸ (hchunk chunk rfl).sublist.append_right source.bytes
    exact tracks_accept h hunread hgoing hsub log₁

/-- Chunks are taken until there is plaintext, and none behind the final one. -/
theorem tracks_skipToPlaintext (h : Tracks s bytes inputs given r) (log : Log) :
    Tracks s bytes (inputs ++ skippedInputs r log) given (skipToPlaintext r log).state ∧
      ((skipToPlaintext r log).result = .ok () → (skipToPlaintext r log).state.unread = [] →
        (skipToPlaintext r log).state.finished = true) := by
  fun_induction skipToPlaintext r log generalizing inputs with
  | case1 r log hmore r₁ log₁ hnext ih =>
    obtain ⟨hunread, hgoing⟩ : r.unread = [] ∧ r.finished = false := by simpa using hmore
    have hstep := tracks_nextChunk h hunread hgoing log
    rw [hnext] at hstep
    rw [skippedInputs_of_ok hmore hnext, ← List.append_assoc]
    exact ih hstep
  | case2 r log hmore f r₁ log₁ hnext =>
    obtain ⟨hunread, hgoing⟩ : r.unread = [] ∧ r.finished = false := by simpa using hmore
    have hstep := tracks_nextChunk h hunread hgoing log
    rw [hnext] at hstep
    rw [skippedInputs_of_error hmore hnext]
    exact ⟨hstep, fun hok => by cases hok⟩
  | case3 r log hstop =>
    rw [skippedInputs_of_stop hstop, List.append_nil]
    refine ⟨h, fun _ hunread => ?_⟩
    have hnone : r.unread = [] := hunread
    simpa [hnone] using hstop

theorem Tracks.handOut (h : Tracks s bytes inputs given r) (n : Nat) :
    Tracks s bytes inputs (given ++ r.unread.take n) { r with unread := r.unread.drop n } where
  stream := h.stream
  text := by rw [h.text, List.append_assoc, List.take_append_drop]
  unread := (List.drop_suffix n r.unread).trans h.unread
  finished := h.finished
  source := h.source

/-- A call hands out what is unread, and nothing where something was asked for only at the end. -/
theorem tracks_read (h : Tracks s bytes inputs given r) (n : Nat) (log : Log) :
    Tracks s bytes (inputs ++ readInputs n r log)
        (given ++ handedOut [((read n).runFrom r log).result]) ((read n).runFrom r log).state ∧
      (0 < n → ((read n).runFrom r log).result = .ok [] →
        ((read n).runFrom r log).state.finished = true ∧
          ((read n).runFrom r log).state.unread = []) := by
  by_cases hn : 0 < n
  · obtain ⟨hskip, hend⟩ := tracks_skipToPlaintext h log
    rcases hrun : skipToPlaintext r log with ⟨result, r₁, log₁⟩
    rw [hrun] at hskip hend
    simp only [read, hn, if_pos, Session.runFrom_bind, Session.runFrom_ofRun, hrun, readInputs]
    cases result with
    | error f =>
      rw [handedOut_error, List.append_nil]
      exact ⟨hskip, fun _ hok => by cases hok⟩
    | ok u =>
      simp only [Session.runFrom_get, Session.runFrom_set, Session.runFrom_pure, handedOut_ok]
      refine ⟨hskip.handOut n, fun _ hnone => ?_⟩
      have hunread : r₁.unread = [] := by
        rcases List.take_eq_nil_iff.mp (Except.ok.inj hnone) with hzero | hunread
        · omega
        · exact hunread
      exact ⟨hend rfl hunread, by rw [hunread, List.drop_nil]⟩
  · obtain rfl : n = 0 := Nat.eq_zero_of_not_pos hn
    refine ⟨?_, fun hpos => absurd hpos hn⟩
    have hnone : given ++ handedOut [.ok []] = given := by simp
    rw [readInputs, if_neg hn, List.append_nil]
    exact hnone.symm ▸ h

/-! ## What any calls keep -/

namespace Reading

variable {reading : Reading}

theorem tracks_call (h : Tracks s bytes reading.inputs (handedOut reading.results) reading.reader)
    (n : Nat) : Tracks s bytes (reading.call n).inputs (handedOut (reading.call n).results)
      (reading.call n).reader := by
  rw [call, handedOut_append]
  exact (tracks_read h n reading.log).1

/-- The run lemma: calls keep the invariant, whatever they give. -/
theorem tracks_calls (h : Tracks s bytes reading.inputs (handedOut reading.results) reading.reader)
    (sizes : List Nat) :
    Tracks s bytes (reading.calls sizes).inputs (handedOut (reading.calls sizes).results)
      (reading.calls sizes).reader := by
  induction sizes generalizing reading with
  | nil => exact h
  | cons n sizes ih => exact ih (tracks_call h n)

/-- A call of a reader that has ended changes nothing. -/
theorem call_of_done (hfinished : reading.reader.finished = true)
    (hunread : reading.reader.unread = []) (n : Nat) :
    reading.call n = { reading with results := reading.results ++ [.ok []] } := by
  have hstop : ¬ (reading.reader.unread.isEmpty && !reading.reader.finished) = true := by
    simp [hfinished]
  have hinputs : readInputs n reading.reader reading.log = [] := by
    rw [readInputs, skippedInputs_of_stop hstop, ite_self]
  rw [call, runFrom_read_of_done ⟨hfinished, hunread, rfl⟩, hinputs, List.append_nil]

theorem calls_of_done (reading : Reading) (hfinished : reading.reader.finished = true)
    (hunread : reading.reader.unread = []) (sizes : List Nat) :
    reading.calls sizes =
      { reading with results := reading.results ++ List.replicate sizes.length (.ok []) } := by
  induction sizes generalizing reading with
  | nil => simp [calls]
  | cons n sizes ih =>
    rw [calls_cons, call_of_done hfinished hunread,
      ih { reading with results := reading.results ++ [.ok []] } hfinished hunread,
      List.append_assoc]
    rfl

end Reading

/-! ## Where a reader starts -/

/-- A reader that was created has taken the header from the front of its source, whatever the
source does. -/
theorem exists_header_of_create {key : FixedBytes 32} {ad : Bytes} {limit : Nat}
    {source after : Source} {log log' : Log} (h : (create key ad limit).runFrom source log =
      { result := .ok r, state := after, log := log' }) :
    ∃ header : Header, header.toList = source.bytes.take headerSize ∧
      after.bytes = source.bytes.drop headerSize ∧
      r = atStart key header ad limit after := by
  obtain ⟨front, hbytes, hgot⟩ := Frame.bytes_of_readOrTruncated headerSize source log
  rcases hread : (Frame.readOrTruncated headerSize).runFrom source log with ⟨result, rest, log₁⟩
  rw [hread] at hbytes hgot
  simp only [create, Session.runFrom_bind, hread] at h
  cases result with
  | error f => cases h
  | ok header =>
    obtain rfl := hgot header rfl
    have hlength : header.length = headerSize := (Frame.remaining_of_readOrTruncated hread).1
    have hheader : Header.ofBytes header = .ok ⟨header, hlength⟩ := dif_pos hlength
    simp only [hheader, Session.runFrom_liftError, Failure.mapError_ok] at h
    cases h
    refine ⟨⟨header, hlength⟩, ?_, ?_, rfl⟩
    · exact hbytes ▸ (List.take_left' hlength).symm
    · exact hbytes ▸ (List.drop_left' hlength).symm

theorem tracks_start (key : FixedBytes 32) (header : Header) (source : Source) (ad : Bytes)
    (limit : Nat) :
    Tracks (ofHeader key header) source.bytes [] [] (atStart key header ad limit source) :=
  ⟨rfl, rfl, List.suffix_refl _, rfl, List.Sublist.refl _⟩

/-- A reading has ended: the final chunk was accepted last and everything is handed out, and
more calls give nothing and change nothing, neither the reader nor its source. -/
structure Ended (key : FixedBytes 32) (header : Header) (reading : Reading) : Prop where
  final : endsFinal (received key header reading.inputs) = true
  whole : handedOut reading.results = acceptedText (received key header reading.inputs)
  still : ∀ sizes : List Nat, reading.calls sizes =
    { reading with results := reading.results ++ List.replicate sizes.length (.ok []) }

/-- The chunks that were given to the stream come from a string, once and in order, and made the
stream what it is. What was handed out is the plaintext that was accepted, once and in order, but
for a tail of the last chunk's. A call that asks for something gives nothing only if that is the
end. -/
structure Released (key : FixedBytes 32) (header : Header) (bytes : Bytes) (reading : Reading) :
    Prop where
  fromSource : (reading.inputs.flatMap (·.chunk)).Sublist bytes
  stream : reading.reader.stream = (ofHeader key header).afterPulls reading.inputs
  inOrder : ∃ rest, acceptedText (received key header reading.inputs) =
      handedOut reading.results ++ rest ∧ rest <:+ lastText (received key header reading.inputs)
  endsOnly : ∀ n, 0 < n → (reading.call n).results = reading.results ++ [.ok []] →
    Ended key header (reading.call n)

theorem Tracks.released {key : FixedBytes 32} {header : Header} {reading : Reading}
    (h : Tracks (ofHeader key header) bytes reading.inputs (handedOut reading.results)
      reading.reader) :
    Released key header bytes reading := by
  have hreceived : ∀ inputs, received key header inputs = pullAll inputs (ofHeader key header) [] :=
    fun inputs => pullAll_congr_log _ inputs _ _
  refine ⟨(List.sublist_append_left ..).trans h.source, h.stream, ⟨reading.reader.unread, ?_, ?_⟩,
    fun n hn hnone => ?_⟩
  · rw [hreceived]
    exact h.text
  · rw [hreceived]
    exact h.unread
  · have hcall := Reading.tracks_call h n
    have hresult : ((read n).runFrom reading.reader reading.log).result = .ok [] := by
      simpa [Reading.call] using hnone
    obtain ⟨hfinished, hunread⟩ := (tracks_read h n reading.log).2 hn hresult
    refine ⟨?_, ?_, Reading.calls_of_done _ hfinished hunread⟩
    · rw [hreceived, ← hcall.finished]
      exact hfinished
    · have htext := hcall.text
      have hnothing : (reading.call n).reader.unread = [] := hunread
      rw [hnothing, List.append_nil] at htext
      rw [hreceived, htext]

end Reader

/-! ## Passing a stream on -/

namespace Pipe

open Reader

/-- What is passed on without a failure is what calls hand out, up to one that gives nothing. -/
theorem calls_of_drain {reader : Reader} {sink : Sink} {log : Log}
    (h : (drain reader sink log).result = .ok ()) (reading : Reading)
    (hreader : reading.reader = reader) (hlog : reading.log = log) :
    ∃ count results,
      (reading.calls (List.replicate count portion)).results = reading.results ++ results ∧
      ((reading.calls (List.replicate count portion)).call portion).results =
        (reading.calls (List.replicate count portion)).results ++ [.ok []] ∧
      (drain reader sink log).state.taken = sink.taken ++ handedOut results := by
  fun_induction drain reader sink log generalizing reading with
  | case1 reader sink log f r' log' hread => cases h
  | case2 reader sink log r' log' hread =>
    subst hreader hlog
    refine ⟨0, [], (List.append_nil _).symm, ?_, (List.append_nil _).symm⟩
    show (reading.call portion).results = _
    rw [Reading.call_of_read hread]
    rfl
  | case3 reader sink log b bs r' log' hread f sink' log'' hfailed => cases h
  | case4 reader sink log b bs r' log' hread sink' log'' hsent ih =>
    -- The piece was taken as a whole; the later calls follow those of the rest of the run.
    subst hreader hlog
    rcases sink.send_cases "stream write" (b :: bs) with
      ⟨after, hsend, htaken, -⟩ | ⟨kind, front, after, hsend, -⟩
    · rw [hsend] at hsent
      cases hsent
      have hcall := Reading.call_of_read hread
      obtain ⟨count, results, hresults, hend, hall⟩ :=
        ih h (reading.call portion) (by rw [hcall]) (by rw [hcall])
      refine ⟨count + 1, .ok (b :: bs) :: results, ?_, hend, ?_⟩
      · rw [List.replicate_succ, Reading.calls_cons, hresults, hcall, List.append_assoc]
        rfl
      · rw [hall, htaken, List.append_assoc]
        rfl
    · rw [hsend] at hsent
      cases hsent

/-- A stream that was passed on as a whole had a reader, and all that it handed out was taken. -/
theorem drain_of_decrypt {key : FixedBytes 32} {ad : Bytes} {source : Source} {sink : Sink}
    (h : ((decrypt key ad source).runOn sink).result = .ok ()) :
    ∃ reader after log, (create key ad defaultLimit).runFrom source [] =
        { result := .ok reader, state := after, log } ∧
      (drain reader sink log).result = .ok () ∧
      ((decrypt key ad source).runOn sink).state = (drain reader sink log).state := by
  rw [Session.runOn] at h ⊢
  rcases hcreate : (create key ad defaultLimit).runFrom source [] with ⟨result, after, log⟩
  simp only [decrypt, Session.runFrom_bind, Session.runFrom_focus, hcreate,
    Session.runFrom_ofRun] at h ⊢
  cases result with
  | error f => cases h
  | ok reader =>
    simp only at h ⊢
    rcases hdrain : drain reader sink log with ⟨result, sink', log'⟩
    rw [hdrain] at h
    cases result with
    | error f => cases h
    | ok u =>
      refine ⟨reader, after, log, rfl, by rw [hdrain], ?_⟩
      simp only [hdrain, Sink.runFrom_sync]

/-- A stream that is there as a whole is passed on as a whole. -/
theorem drain_pending {reader : Reader} {text trailing : Bytes} {sink : Sink}
    (h : Pending reader text trailing) (hs : sink.Smooth) (log : Log) :
    ∃ sink' log', drain reader sink log = { result := .ok (), state := sink', log := log' } ∧
      sink'.taken = sink.taken ++ text ∧ sink'.flushFailure = none := by
  have hportion : 0 < portion := by decide
  fun_induction drain reader sink log generalizing text with
  | case1 reader sink log f r' log' hread =>
    obtain ⟨piece, rest, _, _, -, hrun, -⟩ := runFrom_read h hportion log
    rw [hread] at hrun
    cases hrun
  | case2 reader sink log r' log' hread =>
    obtain ⟨piece, rest, _, _, -, hrun, -, -, hnone, -⟩ := runFrom_read h hportion log
    rw [hread] at hrun
    cases hrun
    exact ⟨sink, log', rfl, by rw [hnone rfl, List.append_nil], hs.flush⟩
  | case3 reader sink log b bs r' log' hread f sink' log'' hfailed =>
    obtain ⟨after, hsend, -⟩ := Sink.runFrom_send_smooth hs "stream write" (b :: bs)
    rw [hsend] at hfailed
    cases hfailed
  | case4 reader sink log b bs r' log' hread sink' log'' hsent ih =>
    obtain ⟨piece, rest, _, _, hsplit, hrun, hpending, -⟩ := runFrom_read h hportion log
    rw [hread] at hrun
    cases hrun
    obtain ⟨after, hsend, hsmooth, htaken⟩ := Sink.runFrom_send_smooth hs "stream write" (b :: bs)
    rw [hsend] at hsent
    cases hsent
    obtain ⟨last, log', hdrain, hall, hflush⟩ := ih hpending hsmooth
    exact ⟨last, log', hdrain, by rw [hall, htaken, hsplit, List.append_assoc], hflush⟩

end Pipe

open Reader in
/-- A reader releases accepted plaintext only. Take any source, whatever it delivers and wherever
it fails, and any calls of a reader that was created over it, also behind calls that failed. The
chunks that the reader gave to its stream, from the state that the first bytes of the source as a
header give, were accepted in part; at every moment what was handed out is their plaintext in order
but for a tail of the last one's; a call that asks for something gives nothing only if the last one
was final and all of it is out, and then so does every other call, and changes nothing. A stream is
passed on without a failure only if the final chunk was accepted and the sink took all of it. -/
theorem releases_accepted_in_order (key : FixedBytes 32) (ad : Bytes) (source : Source) :
    (∀ (limit : Nat) (reader : Reader), ((create key ad limit).runOn source).result = .ok reader →
      ∃ header : Header, header.toList = source.bytes.take headerSize ∧
        ∀ (log : Log) (sizes : List Nat), Released key header (source.bytes.drop headerSize)
          ((Reading.start reader log).calls sizes)) ∧
    (∀ sink : Sink, ((Pipe.decrypt key ad source).runOn sink).result = .ok () →
      ∃ (header : Header) (reader : Reader) (log : Log) (sizes : List Nat),
        header.toList = source.bytes.take headerSize ∧
        ((create key ad defaultLimit).runOn source).result = .ok reader ∧
        Ended key header ((Reading.start reader log).calls sizes) ∧
        ((Pipe.decrypt key ad source).runOn sink).state.taken = sink.taken ++
          acceptedText (received key header ((Reading.start reader log).calls sizes).inputs)) := by
  constructor
  · intro limit reader hok
    rcases hcreate : (create key ad limit).runFrom source [] with ⟨result, after, log₀⟩
    rw [Session.runOn, hcreate] at hok
    cases hok
    obtain ⟨header, hheader, hbehind, rfl⟩ := exists_header_of_create hcreate
    refine ⟨header, hheader, fun log sizes => ?_⟩
    rw [← hbehind]
    exact (Reading.tracks_calls (tracks_start key header after ad limit) sizes).released
  · intro sink hok
    obtain ⟨reader, after, log, hcreate, hdrain, hstate⟩ := Pipe.drain_of_decrypt hok
    obtain ⟨header, hheader, -, rfl⟩ := exists_header_of_create hcreate
    obtain ⟨count, results, hresults, hnone, htaken⟩ :=
      Pipe.calls_of_drain hdrain (Reading.start (atStart key header ad _ after) log) rfl rfl
    have hended := (Reading.tracks_calls (tracks_start key header after ad defaultLimit)
      (List.replicate count Pipe.portion)).released.endsOnly _ (by decide) hnone
    rw [← Reading.calls_concat] at hended hnone
    have hwhole := hended.whole
    rw [hnone, hresults, handedOut_append, handedOut_append, handedOut_ok,
      List.append_nil] at hwhole
    refine ⟨header, _, log, _, hheader, by rw [Session.runOn, hcreate], hended, ?_⟩
    rw [hstate, htaken, ← hwhole]
    rfl

open Reader in
/-- One byte in a final chunk, with a byte of something else behind it. -/
theorem releases_accepted_in_order_of_one_byte :
    ∃ (source : Source) (header header' : Header) (reader : Reader) (passed : Reading),
      ((create (.zero 32) [5] 4).runOn source).result = .ok reader ∧
      header.toList = source.bytes.take headerSize ∧
      ((Reading.start reader []).calls [4, 4]).results = [.ok [7], .ok []] ∧
      Ended (.zero 32) header ((Reading.start reader []).calls [4, 4]) ∧
      ((Pipe.decrypt (.zero 32) [5] source).runOn ⟨[], [], none⟩).result = .ok () ∧
      ((Pipe.decrypt (.zero 32) [5] source).runOn ⟨[], [], none⟩).state.taken = [7] ∧
      header'.toList = source.bytes.take headerSize ∧ Ended (.zero 32) header' passed ∧
      acceptedText (received (.zero 32) header' passed.inputs) = [7] := by
  let out : Outgoing := ⟨[7], [5], .final⟩
  let s := ofHeader (.zero 32) (.zero 24)
  let source : Source := [.fail .interrupted,
    .data ((FixedBytes.zero 24).toList ++ (Frame.ofChunk (s.outChunk out) ++ [9]))]
  have hs : source.Smooth := by
    simp [source, Source.Smooth, SourceEvent.Smooth, Frame.ofChunk_ne_nil]
  have hbytes : source.bytes =
      (FixedBytes.zero 24).toList ++ (Frame.ofChunk (s.outChunk out) ++ [9]) := List.append_nil _
  -- A reader with the stream in front of it, whatever its limit.
  have hpending : ∀ limit, 1 ≤ limit → ∃ reader after log,
      (create (.zero 32) [5] limit).runFrom source [] =
        { result := .ok reader, state := after, log } ∧ Pending reader [7] [9] := by
    intro limit hlimit
    obtain ⟨after, log, hcreate, hsmooth, hleft⟩ := runFrom_create hs hbytes (.zero 32) [5] limit []
    refine ⟨_, after, log, hcreate, [out], ⟨hsmooth, ?_, rfl, rfl, ⟨rfl, trivial⟩, ?_⟩, rfl⟩
    · rw [frames_singleton]
      exact hleft
    · intro later hmem
      obtain rfl := List.mem_singleton.mp hmem
      exact ⟨rfl, hlimit, by decide⟩
  have hdecrypt : ((Pipe.decrypt (.zero 32) [5] source).runOn ⟨[], [], none⟩).result = .ok () ∧
      ((Pipe.decrypt (.zero 32) [5] source).runOn ⟨[], [], none⟩).state.taken = [7] := by
    obtain ⟨reader, after, log, hcreate, hreader⟩ := hpending defaultLimit (by decide)
    have hsink : Sink.Smooth ⟨[], [], none⟩ := ⟨by simp, rfl⟩
    obtain ⟨sink, log', hdrain, htaken, hflush⟩ := Pipe.drain_pending hreader hsink log
    simp only [Pipe.decrypt, Session.runOn, Session.runFrom_bind, Session.runFrom_focus, hcreate,
      Session.runFrom_ofRun, hdrain, Sink.runFrom_sync, Sink.flush, hflush]
    exact ⟨rfl, htaken⟩
  obtain ⟨reader, after, log, hcreate, hreader⟩ := hpending 4 (by decide)
  have hok : ((create (.zero 32) [5] 4).runOn source).result = .ok reader := by
    rw [Session.runOn, hcreate]
  -- The first call hands out the byte, and the second one nothing.
  obtain ⟨piece, rest, r₁, log₁, hsplit, hrun₁, hreader₁, -, hnone, -⟩ :=
    runFrom_read hreader (n := 4) (by decide) []
  obtain ⟨rfl, rfl⟩ : piece = [7] ∧ rest = [] := by
    rcases List.append_eq_singleton_iff.mp hsplit.symm with ⟨rfl, -⟩ | hall
    · exact absurd (hnone rfl) (by simp)
    · exact hall
  obtain ⟨piece₂, rest₂, r₂, log₂, hsplit₂, hrun₂, -⟩ :=
    runFrom_read hreader₁ (n := 4) (by decide) log₁
  obtain rfl : piece₂ = [] := (List.append_eq_nil_iff.mp hsplit₂.symm).1
  have hfirst : (Reading.start reader []).calls [4] =
      ⟨r₁, log₁, [.ok [7]], readInputs 4 reader []⟩ := by
    simp only [Reading.calls, List.foldl_cons, List.foldl_nil, Reading.call, Reading.start, hrun₁,
      List.nil_append]
  have hsecond : ((Reading.start reader []).calls [4, 4]).results =
      ((Reading.start reader []).calls [4]).results ++ [.ok []] := by
    show (((Reading.start reader []).calls [4]).call 4).results = _
    rw [hfirst, Reading.call_of_read hrun₂]
  obtain ⟨header, hheader, hreleased⟩ :=
    (releases_accepted_in_order (.zero 32) [5] source).1 4 reader hok
  have hended := (hreleased [] [4]).endsOnly 4 (by decide) hsecond
  obtain ⟨header', reader', log', sizes, hheader', -, hended', htaken'⟩ :=
    (releases_accepted_in_order (.zero 32) [5] source).2 ⟨[], [], none⟩ hdecrypt.1
  refine ⟨source, header, header', reader, _, hok, hheader, ?_, hended, hdecrypt.1, hdecrypt.2,
    hheader', hended', htaken'.symm.trans hdecrypt.2⟩
  rw [hsecond, hfirst]
  rfl

end AuthEncryption
