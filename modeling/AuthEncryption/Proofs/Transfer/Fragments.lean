import AuthEncryption.Proofs.Transfer.RoundTrip
import AuthEncryption.Proofs.Transfer.Sending
import AuthEncryption.Proofs.TwoRuns
import AuthEncryption.Transfer.Pipe

/-!
# How a source cuts its bytes

A reader over a source takes exact reads only, so what it does is a function of the bytes and not
of the pieces in which they come. Two readers whose sources deliver the same bytes take the same
chunks, accepted or not, and stay alike. What a reader hands out up to its end or its first failure
is its course, chunk by chunk; a sequence of calls cuts the course at its buffers, and decrypting
into a sink passes it on, so neither depends on more than the bytes.
-/
namespace AuthEncryption

open SecretStream

namespace Source

/-- Two sources that deliver the same bytes, each in pieces of its own. -/
structure Alike (source source' : Source) : Prop where
  smooth : source.Smooth
  smooth' : source'.Smooth
  bytes : source.bytes = source'.bytes

theorem bytes_map_data (bs : Bytes) : Source.bytes (bs.map fun b => .data [b]) = bs := by
  induction bs with
  | nil => rfl
  | cons b bs ih => rw [List.map_cons, bytes, ih, List.singleton_append]

end Source

namespace Frame

theorem alike_readOrTruncated (n : Nat) :
    Session.Alike Source.Alike Eq (readOrTruncated n) (readOrTruncated n) := by
  intro source source' log h
  by_cases hn : n ≤ source.bytes.length
  · have hsplit : source.bytes = source.bytes.take n ++ source.bytes.drop n :=
      (List.take_append_drop n source.bytes).symm
    have hlength : n = (source.bytes.take n).length := (List.length_take_of_le hn).symm
    obtain ⟨after, hread, hsmooth, hleft⟩ := runFrom_readOrTruncated h.smooth hsplit hlength
    obtain ⟨after', hread', hsmooth', hleft'⟩ :=
      runFrom_readOrTruncated h.smooth' (h.bytes.symm.trans hsplit) hlength
    rw [hread, hread']
    exact .ok log rfl ⟨hsmooth, hsmooth', hleft.trans hleft'.symm⟩
  · have hshort : source.bytes.length < n := Nat.lt_of_not_le hn
    obtain ⟨after, hread, hsmooth, hleft⟩ := runFrom_readOrTruncated_short h.smooth hshort
    obtain ⟨after', hread', hsmooth', hleft'⟩ :=
      runFrom_readOrTruncated_short h.smooth' (h.bytes ▸ hshort)
    rw [hread, hread']
    exact .error _ _ ⟨hsmooth, hsmooth', hleft.trans hleft'.symm⟩

theorem alike_readFrame (limit : Nat) :
    Session.Alike Source.Alike Eq (readFrame limit) (readFrame limit) := by
  refine (alike_readOrTruncated 4).bind ?_
  rintro field _ rfl
  refine (Session.alike_liftError (checkedLength field limit)).bind ?_
  rintro length _ rfl
  exact alike_readOrTruncated length

end Frame

namespace Reader

/-- Two readers that differ only in how their sources cut what is left. -/
inductive Alike : Reader → Reader → Prop
  | mk (r : Reader) {source' : Source} (h : r.source.Alike source') :
    Alike r { r with source := source' }

namespace Alike

variable {r r' : Reader}

theorem unread_eq (h : Alike r r') : r'.unread = r.unread := by
  cases h
  rfl

theorem finished_eq (h : Alike r r') : r'.finished = r.finished := by
  cases h
  rfl

theorem withUnread (h : Alike r r') (unread : Bytes) :
    Alike { r with unread } { r' with unread } := by
  cases h with
  | mk h => exact .mk { r with unread } h

end Alike

theorem alike_onStream {α : Type} (op : Session SecretStream α) :
    Session.Alike Alike Eq (onStream op) (onStream op) := by
  refine (Session.alike_refl op).focus ?_ ?_
  · rintro r _ ⟨h⟩
    rfl
  · rintro r _ s _ ⟨h⟩ rfl
    exact .mk { r with stream := s } h

theorem alike_onSource {α : Type} {op : Session Source α}
    (hop : Session.Alike Source.Alike Eq op op) :
    Session.Alike Alike Eq (onSource op) (onSource op) := by
  refine hop.focus ?_ ?_
  · rintro r _ ⟨h⟩
    exact h
  · rintro r _ source source' ⟨-⟩ h
    exact .mk { r with source } h

theorem alike_accept (chunk : Bytes) : Session.Alike Alike Eq (accept chunk) (accept chunk) := by
  refine Session.alike_get.bind ?_
  rintro r _ ⟨-⟩
  refine (alike_onStream (pull chunk r.ad)).bind ?_
  rintro ⟨plaintext, tag⟩ _ rfl
  refine (Session.alike_emit _).next ((Session.alike_modify ?_).next ?_)
  · exact fun r r' h => h.withUnread plaintext
  · cases tag.isFinal with
    | false => exact Session.alike_pure rfl
    | true =>
      refine (Session.alike_modify ?_).next (Session.alike_emit _)
      rintro r _ ⟨h⟩
      exact .mk { r with finished := true } h

theorem alike_nextChunk : Session.Alike Alike Eq nextChunk nextChunk := by
  refine Session.alike_get.bind ?_
  rintro r _ ⟨-⟩
  refine (alike_onSource (Frame.alike_readFrame r.limit)).bind ?_
  rintro chunk _ rfl
  exact alike_accept chunk

theorem alike_create (key : FixedBytes 32) (ad : Bytes) (limit : Nat) :
    Session.Alike Source.Alike Alike (create key ad limit) (create key ad limit) := by
  refine (Frame.alike_readOrTruncated headerSize).bind ?_
  rintro bytes _ rfl
  refine (Session.alike_liftError (Header.ofBytes bytes)).bind ?_
  rintro header _ rfl
  have hinit : Session.Alike Source.Alike Eq
      (liftM (initPull key header) : Session Source SecretStream)
      (liftM (initPull key header) : Session Source SecretStream) :=
    Session.alike_logged fun _ => ⟨rfl, rfl⟩
  refine hinit.bind ?_
  rintro stream _ rfl
  exact Session.alike_get.bind fun source source' h => Session.alike_pure (.mk _ h)

end Reader

/-! ## The course of a reader -/

/-- What a reader hands out up to its end or its first failure, how that came, and what was
reported. -/
structure Course where
  text : Bytes
  result : Except Failure Unit
  log : Log

namespace Course

/-- The course with a piece that was handed out before. -/
def behind (piece : Bytes) (course : Course) : Course :=
  { course with text := piece ++ course.text }

theorem behind_append (piece more : Bytes) (course : Course) :
    course.behind (piece ++ more) = (course.behind more).behind piece := by
  rw [behind, behind, behind, List.append_assoc]

end Course

namespace Reader

/-- Calls a reader with buffers of the given sizes until it gives nothing or fails. -/
def readToEnd (sizes : Nat → Nat) (r : Reader) (log : Log) : Course :=
  match _h : (read (sizes 0)).runFrom r log with
  | { result := .error f, state := _, log } => { text := [], result := .error f, log }
  | { result := .ok [], state := _, log } => { text := [], result := .ok (), log }
  | { result := .ok (b :: bs), state, log } =>
    (readToEnd (fun i => sizes (i + 1)) state log).behind (b :: bs)
termination_by (r.source.remaining, r.unread.length)
decreasing_by
  rcases progress_of_read _h (by simp) with hlt | ⟨heq, hlt⟩
  · exact Prod.Lex.left _ _ hlt
  · rw [heq]; exact Prod.Lex.right _ hlt

/-- The course of a reader whose chunks are taken as they come. -/
def course (r : Reader) (log : Log) : Course :=
  if 0 < r.unread.length then
    (course { r with unread := [] } log).behind r.unread
  else if r.finished then
    { text := [], result := .ok (), log }
  else
    match _h : nextChunk.runFrom r log with
    | { result := .ok (), state, log } => course state log
    | { result := .error f, state := _, log } => { text := [], result := .error f, log }
termination_by (r.source.remaining, r.unread.length)
decreasing_by
  · exact Prod.Lex.right _ (by simpa using ‹0 < r.unread.length›)
  · have := remaining_of_nextChunk _h
    exact Prod.Lex.left _ _ (by omega)

variable {r r' : Reader} {log log' : Log}

/-- What is unread is handed out first. -/
theorem course_of_unread (r : Reader) (log : Log) :
    course r log = (course { r with unread := [] } log).behind r.unread := by
  by_cases hsome : 0 < r.unread.length
  · rw [course, if_pos hsome]
  · obtain ⟨source, stream, unread, limit, ad, finished⟩ := r
    obtain rfl : unread = [] := List.eq_nil_of_length_eq_zero (Nat.eq_zero_of_not_pos hsome)
    rfl

theorem course_of_finished (hunread : r.unread = []) (hfinished : r.finished = true) (log : Log) :
    course r log = { text := [], result := .ok (), log } := by
  rw [course, if_neg (by simp [hunread]), if_pos hfinished]

theorem course_of_ok (hunread : r.unread = []) (hgoing : r.finished = false)
    (hnext : nextChunk.runFrom r log = { result := .ok (), state := r', log := log' }) :
    course r log = course r' log' := by
  rw [course, if_neg (by simp [hunread]), if_neg (by simp [hgoing])]
  split
  · rename_i heq
    rw [hnext] at heq
    cases heq
    rfl
  · rename_i heq
    rw [hnext] at heq
    cases heq

theorem course_of_error {f : Failure} (hunread : r.unread = []) (hgoing : r.finished = false)
    (hnext : nextChunk.runFrom r log = { result := .error f, state := r', log := log' }) :
    course r log = { text := [], result := .error f, log := log' } := by
  rw [course, if_neg (by simp [hunread]), if_neg (by simp [hgoing])]
  split
  · rename_i heq
    rw [hnext] at heq
    cases heq
  · rename_i heq
    rw [hnext] at heq
    cases heq
    rfl

/-- Skipping empty chunks is a part of the course. -/
theorem course_of_skip (r : Reader) (log : Log) :
    match skipToPlaintext r log with
    | { result := .ok (), state, log := log' } =>
      course r log = course state log' ∧ (state.unread = [] → state.finished = true)
    | { result := .error f, state := _, log := log' } =>
      course r log = { text := [], result := .error f, log := log' } := by
  fun_induction skipToPlaintext r log with
  | case1 r log hmore r₁ log₁ hnext ih =>
    obtain ⟨hunread, hgoing⟩ : r.unread = [] ∧ r.finished = false := by simpa using hmore
    rw [course_of_ok hunread hgoing hnext]
    exact ih
  | case2 r log hmore f r₁ log₁ hnext =>
    obtain ⟨hunread, hgoing⟩ : r.unread = [] ∧ r.finished = false := by simpa using hmore
    exact course_of_error hunread hgoing hnext
  | case3 r log hstop => exact ⟨rfl, fun hunread => by simpa [hunread] using hstop⟩

/-- The step lemma for a call that hands out a piece: the rest of the course is that of the reader
behind the call, and nothing is handed out only at its end. -/
theorem course_of_read {n : Nat} (hn : 0 < n) {piece : Bytes}
    (hread : (read n).runFrom r log = { result := .ok piece, state := r', log := log' }) :
    course r log = (course r' log').behind piece ∧
      (piece = [] → course r log = { text := [], result := .ok (), log := log' }) := by
  have hskip := course_of_skip r log
  simp only [read, hn, if_pos, Session.runFrom_bind, Session.runFrom_ofRun] at hread
  rcases hrun : skipToPlaintext r log with ⟨result, s, log₁⟩
  rw [hrun] at hskip hread
  cases result with
  | error f => cases hread
  | ok u =>
    cases hread
    obtain ⟨hcourse, hend⟩ := hskip
    constructor
    · rw [hcourse, course_of_unread s, course_of_unread { s with unread := s.unread.drop n },
        ← Course.behind_append, List.take_append_drop]
    · intro hnone
      have hunread : s.unread = [] := by
        rcases List.take_eq_nil_iff.mp hnone with hzero | hnothing
        · omega
        · exact hnothing
      rw [hcourse, course_of_finished hunread (hend hunread)]

theorem course_of_read_error {n : Nat} (hn : 0 < n) {f : Failure}
    (hread : (read n).runFrom r log = { result := .error f, state := r', log := log' }) :
    course r log = { text := [], result := .error f, log := log' } := by
  have hskip := course_of_skip r log
  simp only [read, hn, if_pos, Session.runFrom_bind, Session.runFrom_ofRun] at hread
  rcases hrun : skipToPlaintext r log with ⟨result, s, log₁⟩
  rw [hrun] at hskip hread
  cases result with
  | error f => cases hread; exact hskip
  | ok u => cases hread

/-- The run lemma: the sizes of the buffers make no difference. -/
theorem readToEnd_eq_course {sizes : Nat → Nat} (hpos : ∀ i, 0 < sizes i) (r : Reader) (log : Log) :
    readToEnd sizes r log = course r log := by
  fun_induction readToEnd sizes r log with
  | case1 sizes r log f r' log' hread => rw [course_of_read_error (hpos 0) hread]
  | case2 sizes r log r' log' hread => rw [(course_of_read (hpos 0) hread).2 rfl]
  | case3 sizes r log b bs r' log' hread ih =>
    rw [ih fun i => hpos (i + 1), (course_of_read (hpos 0) hread).1]

/-- The run lemma over two sources: how they cut their bytes makes no difference. -/
theorem Alike.course_eq (h : Alike r r') (log : Log) : course r log = course r' log := by
  fun_induction course r log generalizing r' with
  | case1 r log hsome ih =>
    rw [course_of_unread r', ih (h.withUnread []), h.unread_eq]
  | case2 r log hnone hfinished =>
    have hunread : r.unread = [] := by simpa using hnone
    rw [course_of_finished (h.unread_eq.trans hunread) (h.finished_eq.trans hfinished)]
  | case3 r log hnone hgoing r₁ log₁ hnext ih =>
    have hunread : r.unread = [] := by simpa using hnone
    obtain ⟨_, r₁', hnext', -, h₁⟩ := alike_nextChunk.exists_ok h hnext
    rw [ih h₁, course_of_ok (h.unread_eq.trans hunread)
      (h.finished_eq.trans (by simpa using hgoing)) hnext']
  | case4 r log hnone hgoing f r₁ log₁ hnext =>
    have hunread : r.unread = [] := by simpa using hnone
    obtain ⟨r₁', hnext', -⟩ := alike_nextChunk.exists_error h hnext
    rw [course_of_error (h.unread_eq.trans hunread)
      (h.finished_eq.trans (by simpa using hgoing)) hnext']

/-- The reports about the chunks that a stream pulls, added to those before. -/
def readLog (s : SecretStream) : List Outgoing → Log → Log
  | [], log => log
  | out :: rest, log => readLog (s.after out) rest (frameLog s out log)

/-- The course of a reader that has the frames of a whole run of chunks in front of it. -/
theorem Ahead.course_eq {outs : List Outgoing} {trailing : Bytes} (h : Ahead r outs trailing)
    (log : Log) :
    course r log =
      { text := r.unread ++ joined outs, result := .ok (), log := readLog r.stream outs log } := by
  induction outs generalizing r log with
  | nil =>
    rw [course_of_unread, course_of_finished (r := { r with unread := [] }) rfl h.finished]
    rfl
  | cons out rest ih =>
    obtain ⟨r₁, hnext, hahead, htext, hstream⟩ := runFrom_nextChunk (h.withUnread []) log
    rw [course_of_unread, course_of_ok (r := { r with unread := [] }) rfl h.finished hnext,
      ih hahead, htext, hstream]
    rfl

/-- Starts reading, and reads to the end. -/
def openToEnd (key : FixedBytes 32) (ad : Bytes) (limit : Nat) (sizes : Nat → Nat)
    (source : Source) : Except Failure Course :=
  let opened := (create key ad limit).runOn source
  opened.result.map fun r => readToEnd sizes r opened.log

/-! ## The course of a whole stream -/

/-- Some bytes go on, behind a header, with a whole run of chunks. -/
structure Whole (key : FixedBytes 32) (header : Header) (ad : Bytes) (limit : Nat)
    (outs : List Outgoing) (bytes : Bytes) : Prop where
  front : header.toList ++ (ofHeader key header).frames outs <+: bytes
  nonempty : outs.isEmpty = false
  endsOnce : EndsOnce outs
  fits : ∀ out ∈ outs, Fits ad limit out

section

variable {key : FixedBytes 32} {header : Header} {ad : Bytes} {limit : Nat} {outs : List Outgoing}
  {source : Source}

theorem log_create {back : Bytes} (hs : source.Smooth)
    (hbytes : source.bytes = header.toList ++ back) (key : FixedBytes 32) (ad : Bytes) (limit : Nat)
    (log : Log) :
    ((create key ad limit).runFrom source log).log = .initialized .pull :: log := by
  obtain ⟨source', hread, -⟩ :=
    Frame.runFrom_readOrTruncated hs hbytes (n := headerSize) header.length_toList.symm
  have hheader : Header.ofBytes header.toList = .ok header := dif_pos header.length_toList
  simp only [create, Session.runFrom_bind, hread, hheader, Session.runFrom_liftError,
    Failure.mapError_ok]
  rfl

/-- The reader that is created over a whole run of chunks, and its course. -/
theorem Whole.runOn_create (h : Whole key header ad limit outs source.bytes) (hs : source.Smooth) :
    ∃ r after, (create key ad limit).runOn source =
        { result := .ok r, state := after, log := [.initialized .pull] } ∧
      ∀ log, course r log =
        { text := joined outs
          result := .ok ()
          log := readLog (ofHeader key header) outs log } := by
  obtain ⟨trailing, hbytes⟩ := h.front
  have hbytes' := hbytes.symm
  rw [List.append_assoc] at hbytes'
  obtain ⟨after, log, hcreate, hsmooth, hleft⟩ := runFrom_create hs hbytes' key ad limit []
  have hlog := log_create hs hbytes' key ad limit []
  rw [hcreate] at hlog
  obtain rfl : log = [.initialized .pull] := hlog
  have hahead : Ahead (atStart key header ad limit after) outs trailing :=
    ⟨hsmooth, hleft, h.nonempty.symm, h.nonempty.symm, h.endsOnce, h.fits⟩
  exact ⟨_, after, hcreate, fun log => hahead.course_eq log⟩

theorem Whole.openToEnd_eq (h : Whole key header ad limit outs source.bytes) (hs : source.Smooth)
    (sizes : Nat → Nat) (hpos : ∀ i, 0 < sizes i) :
    openToEnd key ad limit sizes source =
      .ok { text := joined outs
            result := .ok ()
            log := readLog (ofHeader key header) outs [.initialized .pull] } := by
  obtain ⟨r, after, hcreate, hcourse⟩ := h.runOn_create hs
  rw [openToEnd, hcreate, Failure.map_ok, readToEnd_eq_course hpos, hcourse]

end

end Reader

namespace Pipe

open Reader

/-- A sink that takes everything gets the text of the course, and the rest of it is the result. -/
theorem drain_course (r : Reader) {sink : Sink} (hs : sink.Smooth) (log : Log) :
    ∃ after : Sink, drain r sink log =
        { result := (course r log).result, state := after, log := (course r log).log } ∧
      after.Smooth ∧ after.taken = sink.taken ++ (course r log).text := by
  have hportion : 0 < portion := by decide
  fun_induction drain r sink log with
  | case1 r sink log f r' log' hread =>
    rw [course_of_read_error hportion hread]
    exact ⟨sink, rfl, hs, (List.append_nil _).symm⟩
  | case2 r sink log r' log' hread =>
    rw [(course_of_read hportion hread).2 rfl]
    exact ⟨sink, rfl, hs, (List.append_nil _).symm⟩
  | case3 r sink log b bs r' log' hread f sink' log'' hfailed =>
    obtain ⟨after, hsend, -⟩ := Sink.runFrom_send_smooth hs "stream write" (b :: bs)
    rw [hsend] at hfailed
    cases hfailed
  | case4 r sink log b bs r' log' hread sink' log'' hsent ih =>
    obtain ⟨after, hsend, hsmooth, htaken⟩ := Sink.runFrom_send_smooth hs "stream write" (b :: bs)
    rw [hsend] at hsent
    cases hsent
    obtain ⟨last, hdrain, hlast, hall⟩ := ih hsmooth
    rw [(course_of_read hportion hread).1]
    exact ⟨last, hdrain, hlast, by rw [hall, htaken, List.append_assoc]; rfl⟩

/-- What is decrypted into a sink that takes everything: nothing if there is no header, and else
the course of the reader. -/
theorem runOn_decrypt (key : FixedBytes 32) (ad : Bytes) (source : Source) {sink : Sink}
    (hs : sink.Smooth) :
    match (create key ad defaultLimit).runOn source with
    | { result := .error f, state := _, log } =>
      (decrypt key ad source).runOn sink = { result := .error f, state := sink, log }
    | { result := .ok r, state := _, log } =>
      ∃ after : Sink, (decrypt key ad source).runOn sink =
          { result := (course r log).result, state := after, log := (course r log).log } ∧
        after.taken = sink.taken ++ (course r log).text := by
  simp only [decrypt, Session.runOn, Session.runFrom_bind, Session.runFrom_focus]
  rcases (create key ad defaultLimit).runFrom source [] with ⟨result, after, log⟩
  cases result with
  | error f => rfl
  | ok r =>
    obtain ⟨after, hdrain, hsmooth, htaken⟩ := drain_course r hs log
    refine ⟨after, ?_, htaken⟩
    simp only [Session.runFrom_ofRun, hdrain]
    cases (course r log).result with
    | error f => rfl
    | ok u => simp only [Sink.runFrom_sync, Sink.flush, hsmooth.flush, Failure.mapError_ok]

theorem runOn_decrypt_whole {key : FixedBytes 32} {header : Header} {ad : Bytes}
    {outs : List Outgoing} {source : Source} {sink : Sink}
    (h : Whole key header ad defaultLimit outs source.bytes) (hs : source.Smooth)
    (hsink : sink.Smooth) :
    ∃ after : Sink, (decrypt key ad source).runOn sink =
        { result := .ok ()
          state := after
          log := readLog (ofHeader key header) outs [.initialized .pull] } ∧
      after.taken = sink.taken ++ joined outs := by
  obtain ⟨r, rest, hcreate, hcourse⟩ := h.runOn_create hs
  have hrun := runOn_decrypt key ad source hsink
  simp only [hcreate, hcourse] at hrun
  exact hrun

end Pipe

open Reader Pipe in
/-- How a source cuts its bytes makes no difference. Take any bytes, whole streams or not, and two
sources that deliver them in pieces of any sizes, with interruptions anywhere. Decrypted into sinks
that take everything they end in the same way, pass on the same text and report the same. Readers
over them either cannot be created for the same reason, or they hand out the same text up to their
end or the same failure and report the same, with any buffers. -/
theorem fragments_make_no_difference (key : FixedBytes 32) (ad : Bytes) {source source' : Source}
    (hs : source.Smooth) (hs' : source'.Smooth) (hbytes : source.bytes = source'.bytes) :
    (∀ sink sink' : Sink, sink.Smooth → sink'.Smooth → ∃ text result log after after',
      (decrypt key ad source).runOn sink = { result, state := after, log } ∧
      (decrypt key ad source').runOn sink' = { result, state := after', log } ∧
      after.taken = sink.taken ++ text ∧ after'.taken = sink'.taken ++ text) ∧
    ∀ (limit : Nat) (sizes sizes' : Nat → Nat), (∀ i, 0 < sizes i) → (∀ i, 0 < sizes' i) →
      openToEnd key ad limit sizes source = openToEnd key ad limit sizes' source' := by
  have hsources : source.Alike source' := ⟨hs, hs', hbytes⟩
  constructor
  · intro sink sink' hsink hsink'
    have hcreate := alike_create key ad defaultLimit source source' [] hsources
    have hrun := runOn_decrypt key ad source hsink
    have hrun' := runOn_decrypt key ad source' hsink'
    rw [Session.runOn] at hrun hrun'
    generalize (create key ad defaultLimit).runFrom source [] = opened at hcreate hrun
    generalize (create key ad defaultLimit).runFrom source' [] = opened' at hcreate hrun'
    cases hcreate with
    | error f log =>
      exact ⟨[], _, _, sink, sink', hrun, hrun', (List.append_nil _).symm,
        (List.append_nil _).symm⟩
    | ok log hreaders =>
      obtain ⟨after, hdecrypt, htaken⟩ := hrun
      obtain ⟨after', hdecrypt', htaken'⟩ := hrun'
      rw [← hreaders.course_eq] at hdecrypt' htaken'
      exact ⟨_, _, _, after, after', hdecrypt, hdecrypt', htaken, htaken'⟩
  · intro limit sizes sizes' hpos hpos'
    have hcreate := alike_create key ad limit source source' [] hsources
    rw [openToEnd, openToEnd, Session.runOn, Session.runOn]
    generalize (create key ad limit).runFrom source [] = opened at hcreate
    generalize (create key ad limit).runFrom source' [] = opened' at hcreate
    cases hcreate with
    | error f log => rfl
    | ok log hreaders =>
      have hsame := (readToEnd_eq_course hpos _ log).trans
        ((hreaders.course_eq log).trans (readToEnd_eq_course hpos' _ log).symm)
      exact congrArg Except.ok hsame

open Reader Pipe in
/-- One byte in a final chunk, delivered as a whole and byte by byte behind an interruption. -/
theorem fragments_make_no_difference_to_one_byte :
    ∃ (source source' : Source) (log : Log), source.Smooth ∧ source'.Smooth ∧
      source.bytes = source'.bytes ∧ source ≠ source' ∧
      (∃ after after' log,
        (decrypt (.zero 32) [5] source).runOn ⟨[], [], none⟩ =
          { result := .ok (), state := after, log } ∧
        (decrypt (.zero 32) [5] source').runOn ⟨[], [.accept 1], none⟩ =
          { result := .ok (), state := after', log } ∧
        after.taken = [7] ∧ after'.taken = [7]) ∧
      openToEnd (.zero 32) [5] 4 (fun _ => 1) source =
        .ok { text := [7], result := .ok (), log } ∧
      openToEnd (.zero 32) [5] 4 (fun i => i + 2) source' =
        .ok { text := [7], result := .ok (), log } := by
  let out : Outgoing := ⟨[7], [5], .final⟩
  obtain ⟨bytes, hall⟩ : ∃ bytes, bytes =
      (FixedBytes.zero 24).toList ++ (ofHeader (.zero 32) (.zero 24)).frames [out] := ⟨_, rfl⟩
  have hsome : bytes ≠ [] := by
    rw [hall, frames_singleton]
    exact List.append_ne_nil_of_right_ne_nil _ (Frame.ofChunk_ne_nil _)
  have hwhole : ∀ limit, 1 ≤ limit → Whole (.zero 32) (.zero 24) [5] limit [out] bytes := by
    intro limit hlimit
    refine ⟨hall ▸ List.prefix_refl _, rfl, ⟨rfl, trivial⟩, fun later hmem => ?_⟩
    obtain rfl := List.mem_singleton.mp hmem
    exact ⟨rfl, hlimit, by decide⟩
  have hs : Source.Smooth [.data bytes] := by simpa [Source.Smooth, SourceEvent.Smooth] using hsome
  have hs' : Source.Smooth (.fail .interrupted :: bytes.map fun b => .data [b]) := by
    simp [Source.Smooth, SourceEvent.Smooth]
  have hbytes : Source.bytes [.data bytes] = bytes := List.append_nil bytes
  have hbytes' : Source.bytes (.fail .interrupted :: bytes.map fun b => .data [b]) = bytes :=
    Source.bytes_map_data bytes
  obtain ⟨hdecrypt, hread⟩ :=
    fragments_make_no_difference (.zero 32) [5] hs hs' (hbytes.trans hbytes'.symm)
  have hsink : Sink.Smooth ⟨[], [], none⟩ := ⟨by simp, rfl⟩
  have hcourse := Whole.openToEnd_eq (hbytes.symm ▸ hwhole 4 (by decide)) hs
    (fun _ => 1) fun _ => Nat.one_pos
  have hsame := hread 4 (fun _ => 1) (fun i => i + 2) (fun _ => Nat.one_pos) fun i => by omega
  obtain ⟨last, hrun, htaken⟩ :=
    runOn_decrypt_whole (hbytes.symm ▸ hwhole defaultLimit (by decide)) hs hsink
  obtain ⟨text, result, log, after, after', hpassed, hpassed', htext, htext'⟩ :=
    hdecrypt ⟨[], [], none⟩ ⟨[], [.accept 1], none⟩ hsink ⟨by simp [SinkEvent.Smooth], rfl⟩
  rw [hrun] at hpassed
  cases hpassed
  obtain rfl : text = [7] := htext.symm.trans htaken
  exact ⟨_, _, _, hs, hs', hbytes.trans hbytes'.symm, by simp, ⟨last, after', _, hrun, hpassed',
    htext, htext'⟩, hcourse, hsame.symm.trans hcourse⟩

end AuthEncryption
