import AuthEncryption.Proofs.Transfer.Encrypting
import AuthEncryption.Proofs.Transfer.Release
import AuthEncryption.Proofs.Transfer.Turns

/-!
# Transfers end

A call of a reader passes over chunks that deliver nothing, but every chunk takes a frame of at
least 21 bytes from the source, and a length that no chunk can have is refused before anything else
is asked for. A reader hands out less than it took, so the loop that passes a plaintext on gets
nearer to its end with every piece, as the loop that encrypts does with every read. Encrypting and
decrypting therefore end within bounds that the source sets, and the loops in their turns within
bounds of their own.
-/
namespace AuthEncryption

open Turn (loop)

/-! ## Reading a stream -/

namespace Reader

/-- A turn of a call for at most `n` bytes. Where nothing is unread, the call ends if the stream has
or if nothing is asked for, and takes the next chunk otherwise. -/
def readTurn (n : Nat) : Reader × Log → Turn (Reader × Log) (Outcome Reader Bytes)
  | (r, log) =>
    if r.unread.isEmpty then
      if r.finished || n == 0 then
        .done { result := .ok [], state := r, log }
      else
        match nextChunk.runFrom r log with
        | { result := .ok (), state, log } => .goOn (state, log)
        | { result := .error f, state, log } => .done { result := .error f, state, log }
    else
      .done { result := .ok (r.unread.take n), state := { r with unread := r.unread.drop n }, log }

variable {r r' : Reader} {log log' : Log} {n : Nat}

/-- A turn that goes on has taken a frame from the source: its length and a chunk of at least
seventeen bytes. -/
theorem remaining_of_readTurn (h : readTurn n (r, log) = .goOn (r', log')) :
    r'.source.remaining + 21 ≤ r.source.remaining := by
  simp only [readTurn] at h
  split at h
  · split at h
    · cases h
    · split at h
      · rename_i hnext
        cases h
        exact remaining_of_nextChunk hnext
      · cases h
  · cases h

theorem runFrom_read_of_more (hmore : (r.unread.isEmpty && !r.finished) = true) (hn : 0 < n)
    (log : Log) : (read n).runFrom r log =
      match nextChunk.runFrom r log with
      | { result := .ok (), state, log } => (read n).runFrom state log
      | { result := .error f, state, log } => { result := .error f, state, log } := by
  rcases hnext : nextChunk.runFrom r log with ⟨result, after, log₁⟩
  simp only [read, hn, if_true, Session.runFrom_bind, Session.runFrom_ofRun]
  cases result with
  | error f => rw [skipToPlaintext_of_error hmore hnext]
  | ok u => rw [skipToPlaintext_of_ok hmore hnext]

theorem runFrom_read_of_stop (hstop : ¬ (r.unread.isEmpty && !r.finished) = true ∨ n = 0)
    (log : Log) : (read n).runFrom r log =
      { result := .ok (r.unread.take n), state := { r with unread := r.unread.drop n }, log } := by
  rcases Nat.eq_zero_or_pos n with rfl | hn
  · rfl
  · have hend : ¬ (r.unread.isEmpty && !r.finished) = true :=
      hstop.resolve_right (Nat.ne_of_gt hn)
    simp only [read, hn, if_true, Session.runFrom_bind, Session.runFrom_ofRun]
    rw [skipToPlaintext, if_neg hend]
    rfl

/-- The step lemma: a turn that goes on leaves at least one frame less. -/
theorem leads_readTurn (n : Nat) :
    Turn.Leads (readTurn n) (fun s => (read n).runFrom s.1 s.2)
      (fun s => s.1.source.remaining / 21) := by
  rintro ⟨r, log⟩
  cases hunread : r.unread with
  | cons b bs =>
    have hread := runFrom_read_of_stop (r := r) (n := n) (Or.inl (by simp [hunread])) log
    simp only [readTurn, hread, hunread, List.isEmpty_cons, Bool.false_eq_true, if_false]
  | nil =>
    by_cases hend : (r.finished || n == 0) = true
    · have hread := runFrom_read_of_stop (r := r) (n := n) (by simpa [hunread] using hend) log
      have hsame : { r with unread := [] } = r := by rw [← hunread]
      rw [hunread, List.take_nil, List.drop_nil, hsame] at hread
      simp only [readTurn, hread, hunread, List.isEmpty_nil, hend, if_true]
    · obtain ⟨hgoing, hn⟩ : r.finished = false ∧ 0 < n := by
        simpa [Nat.pos_iff_ne_zero] using hend
      have hread := runFrom_read_of_more (r := r) (by simp [hunread, hgoing]) hn log
      simp only [readTurn, hread, hunread, List.isEmpty_nil, if_true, if_neg hend]
      rcases hnext : nextChunk.runFrom r log with ⟨result, after, log₁⟩
      cases result with
      | error f => rfl
      | ok u =>
        have hfewer := remaining_of_nextChunk hnext
        refine ⟨rfl, ?_⟩
        show after.source.remaining / 21 < r.source.remaining / 21
        omega

/-! ### What is within reach -/

/-- The bytes that a reader can still take or hand out. -/
def reach (r : Reader) : Nat := r.source.remaining + r.unread.length

/-- A chunk takes more from the source than it leaves unread. -/
theorem reach_of_nextChunk (hunread : r.unread = []) (hgoing : r.finished = false)
    (h : nextChunk.runFrom r log = { result := .ok (), state := r', log := log' }) :
    r'.reach + 21 ≤ r.reach := by
  simp only [nextChunk, onSource, Session.runFrom_bind, Session.runFrom_get,
    Session.runFrom_focus] at h
  rcases hread : (Frame.readFrame r.limit).runFrom r.source log with ⟨result, source, log₁⟩
  rw [hread] at h
  cases result with
  | error f => cases h
  | ok chunk =>
    obtain ⟨hmin, htaken⟩ := Frame.remaining_of_readFrame hread
    simp only at h
    rcases hpull : (SecretStream.pull chunk r.ad).runFrom r.stream log₁ with
      ⟨result, stream, log₂⟩
    cases result with
    | error f =>
      simp only [accept, onStream, Session.runFrom_bind, Session.runFrom_get,
        Session.runFrom_focus, hpull] at h
      cases h
    | ok pulled =>
      obtain ⟨plaintext, tag⟩ := pulled
      rw [runFrom_accept (r := { r with source }) hgoing hpull] at h
      cases h
      have hok : ((SecretStream.pull chunk r.ad).runFrom r.stream log₁).result =
          .ok (plaintext, tag) := by rw [hpull]
      obtain ⟨-, -, hchunk, -⟩ := r.stream.pull_eq_ok_iff.mp ⟨hok, rfl⟩
      have hlength : chunk.length = plaintext.length + SecretStream.overhead := by
        rw [hchunk, SecretStream.length_chunk]
      simp only [reach, hunread, List.length_nil, SecretStream.overhead] at hlength ⊢
      omega

theorem reach_skipToPlaintext (r : Reader) (log : Log) :
    (skipToPlaintext r log).result = .ok () → (skipToPlaintext r log).state.reach ≤ r.reach := by
  fun_induction skipToPlaintext r log with
  | case1 r log hmore r₁ log₁ hnext ih =>
    obtain ⟨hunread, hgoing⟩ : r.unread = [] ∧ r.finished = false := by simpa using hmore
    have hstep := reach_of_nextChunk hunread hgoing hnext
    intro hok
    have hrest := ih hok
    omega
  | case2 r log hmore f r₁ log₁ hnext => exact fun hok => by cases hok
  | case3 r log hstop => exact fun _ => Nat.le_refl _

theorem reach_of_create {key : FixedBytes 32} {ad : Bytes} {limit : Nat} {source after : Source}
    (h : (create key ad limit).runFrom source log =
      { result := .ok r, state := after, log := log' }) :
    r.reach + 24 = source.remaining := by
  rcases hread : (Frame.readOrTruncated SecretStream.headerSize).runFrom source log with
    ⟨result, rest, log₁⟩
  simp only [create, Session.runFrom_bind, hread] at h
  cases result with
  | error f => cases h
  | ok header =>
    obtain ⟨hlength, htaken⟩ := Frame.remaining_of_readOrTruncated hread
    have hheader : Header.ofBytes header = .ok ⟨header, hlength⟩ := dif_pos hlength
    simp only [hheader, Session.runFrom_liftError, Failure.mapError_ok] at h
    cases h
    exact htaken

/-- What is handed out is no longer within reach. -/
theorem reach_of_read {piece : Bytes}
    (h : (read n).runFrom r log = { result := .ok piece, state := r', log := log' }) :
    r'.reach + piece.length ≤ r.reach := by
  have handOut : ∀ s : Reader, ({ s with unread := s.unread.drop n } : Reader).reach +
      (s.unread.take n).length ≤ s.reach := by
    intro s
    simp only [reach, List.length_drop, List.length_take]
    omega
  rcases Nat.eq_zero_or_pos n with rfl | hn
  · cases h
    exact handOut r
  · have hskip := reach_skipToPlaintext r log
    rcases hrun : skipToPlaintext r log with ⟨result, s, log₁⟩
    rw [hrun] at hskip
    simp only [read, hn, if_true, Session.runFrom_bind, Session.runFrom_ofRun, hrun] at h
    cases result with
    | error f => cases h
    | ok u =>
      cases h
      exact (handOut s).trans (hskip rfl)

end Reader

/-! ## What a frame asks for -/

namespace Frame

/-- What reading a frame comes to behind the read of its length: it asks for the chunk, if that is
not too short for one and within the limit, and for nothing else. -/
inductive Asks (limit : Nat) : Outcome Source Bytes → Outcome Source Bytes → Prop
  | nothing (f : Failure) (rest : Source) (log : Log) :
    Asks limit { result := .error f, state := rest, log } { result := .error f, state := rest, log }
  | chunk {field : Bytes} (rest : Source) (log : Log) (hmin : 17 ≤ Bytes.toNatLE field)
      (hmax : Bytes.toNatLE field ≤ limit + 17) :
    Asks limit { result := .ok field, state := rest, log }
      ((readOrTruncated (Bytes.toNatLE field)).runFrom rest log)
  | short {field : Bytes} (rest : Source) (log : Log) (h : Bytes.toNatLE field < 17) :
    Asks limit { result := .ok field, state := rest, log }
      { result := .error (.error (.cipherTooShort "stream chunk" 17 (Bytes.toNatLE field)))
        state := rest
        log }
  | long {field : Bytes} (rest : Source) (log : Log) (h : limit + 17 < Bytes.toNatLE field) :
    Asks limit { result := .ok field, state := rest, log }
      { result := .error (.error (.invalidLength "stream chunk" limit (Bytes.toNatLE field - 17)))
        state := rest
        log }

theorem asks_readFrame (limit : Nat) (source : Source) (log : Log) :
    Asks limit ((readOrTruncated 4).runFrom source log)
      ((readFrame limit).runFrom source log) := by
  rcases hread : (readOrTruncated 4).runFrom source log with ⟨f | field, rest, log₁⟩
  · simp only [readFrame, Session.runFrom_bind, hread]
    exact .nothing f rest log₁
  simp only [readFrame, Session.runFrom_bind, hread, Session.runFrom_liftError]
  by_cases hshort : Bytes.toNatLE field < 17
  · have hcipher : Check.ciphertextLength "stream chunk" (Bytes.toNatLE field)
        SecretStream.overhead = .error _ := if_pos hshort
    simp only [checkedLength, hcipher, Failure.error_bind, Failure.mapError_error]
    exact .short rest log₁ hshort
  have hcipher : Check.ciphertextLength "stream chunk" (Bytes.toNatLE field)
      SecretStream.overhead = .ok () := if_neg hshort
  by_cases hlong : limit < Bytes.toNatLE field - 17
  · have hlimit : Check.maxLength "stream chunk" (Bytes.toNatLE field - SecretStream.overhead)
        limit = .error _ := if_pos hlong
    simp only [checkedLength, hcipher, hlimit, Failure.ok_bind, Failure.error_bind,
      Failure.mapError_error]
    exact .long rest log₁ (by omega)
  · have hlimit : Check.maxLength "stream chunk" (Bytes.toNatLE field - SecretStream.overhead)
        limit = .ok () := if_neg hlong
    simp only [checkedLength, hcipher, hlimit, Failure.ok_bind]
    exact .chunk rest log₁ (by omega) (by omega)

variable {source rest : Source} {field : Bytes} {log log' : Log}

/-- The field is the four bytes in front of the source, whatever the source does. -/
theorem bytes_of_field (h : (readOrTruncated 4).runFrom source log =
      { result := .ok field, state := rest, log := log' }) :
    field.length = 4 ∧ source.bytes = field ++ rest.bytes := by
  obtain ⟨front, hbytes, hgot⟩ := bytes_of_readOrTruncated 4 source log
  rw [h] at hbytes hgot
  exact ⟨(remaining_of_readOrTruncated h).1, by rw [hgot field rfl]; exact hbytes⟩

end Frame

namespace Reader

variable {r : Reader} {log log' : Log} {n : Nat} {field : Bytes} {rest : Source}

/-- A length that is refused leaves all of the reader as it was but the source, which is behind the
length. -/
theorem runFrom_read_refused (hunread : r.unread = []) (hgoing : r.finished = false) (hn : 0 < n)
    (hfield : (Frame.readOrTruncated 4).runFrom r.source log =
      { result := .ok field, state := rest, log := log' })
    (hrefused : Bytes.toNatLE field < 17 ∨ r.limit + 17 < Bytes.toNatLE field) :
    ∃ cause, (read n).runFrom r log =
      { result := .error (.error cause), state := { r with source := rest }, log := log' } := by
  have hasks := Frame.asks_readFrame r.limit r.source log
  rw [hfield] at hasks
  have hread := runFrom_read_of_more (r := r) (by simp [hunread, hgoing]) hn log
  simp only [nextChunk, onSource, Session.runFrom_bind, Session.runFrom_get,
    Session.runFrom_focus] at hread
  generalize (Frame.readFrame r.limit).runFrom r.source log = outcome at hasks hread
  cases hasks with
  | chunk _ _ hmin hmax => omega
  | short => exact ⟨_, hread⟩
  | long => exact ⟨_, hread⟩

/-- The passes of a call for at most `n` bytes. -/
structure Passes (r : Reader) (n : Nat) (log : Log) : Prop where
  /-- The call ends within its bound. -/
  bound : loop (readTurn n) (r.source.remaining / 21 + 1) (r, log) =
    some ((read n).runFrom r log)
  /-- A pass that goes on has taken at least 21 bytes from the source. -/
  taken : ∀ {r' log'}, readTurn n (r, log) = .goOn (r', log') →
    r'.source.remaining + 21 ≤ r.source.remaining
  /-- A pass that ends the call without a failure leaves the source alone. -/
  ended : ∀ {piece r' log'}, readTurn n (r, log) =
      .done { result := .ok piece, state := r', log := log' } →
    (r.unread ≠ [] ∨ r.finished = true ∨ n = 0) ∧ r'.source = r.source
  /-- Behind the length of a frame a pass asks for no more than a chunk within the limit. -/
  asks : Frame.Asks r.limit ((Frame.readOrTruncated 4).runFrom r.source log)
    ((Frame.readFrame r.limit).runFrom r.source log)
  /-- A length that is refused is all that is gone from the source, and the stream is the same. -/
  refused : r.unread = [] → r.finished = false → 0 < n → ∀ {field rest log'},
    (Frame.readOrTruncated 4).runFrom r.source log =
      { result := .ok field, state := rest, log := log' } →
    (Bytes.toNatLE field < 17 ∨ r.limit + 17 < Bytes.toNatLE field) →
      field.length = 4 ∧ r.source.bytes = field ++ rest.bytes ∧ ∃ cause, (read n).runFrom r log =
        { result := .error (.error cause), state := { r with source := rest }, log := log' }

theorem passes (n : Nat) (r : Reader) (log : Log) : r.Passes n log where
  bound := (leads_readTurn n).loop_eq (s := (r, log)) (Nat.lt_succ_self _)
  taken := remaining_of_readTurn
  ended h := by
    simp only [readTurn] at h
    split at h
    · split at h
      · rename_i hunread hend
        cases h
        have hstop : r.finished = true ∨ n = 0 := by simpa using hend
        exact ⟨Or.inr hstop, rfl⟩
      · split at h <;> cases h
    · rename_i hunread
      cases h
      exact ⟨Or.inl (by simpa using hunread), rfl⟩
  asks := Frame.asks_readFrame r.limit r.source log
  refused hunread hgoing hn _ _ _ hfield hrefused :=
    ⟨(Frame.bytes_of_field hfield).1, (Frame.bytes_of_field hfield).2,
      runFrom_read_refused hunread hgoing hn hfield hrefused⟩

end Reader

/-! ## Whole transfers -/

namespace Pipe

/-- A turn of writing what a source delivers: one read, and a write of what it gave. -/
def pumpTurn : Source × Writer × Log → Turn (Source × Writer × Log) (Outcome Writer Unit)
  | (source, w, log) =>
    match source.read portion with
    | (.ok [], _) => .done { result := .ok (), state := w, log }
    | (.ok (b :: bs), rest) =>
      match (Writer.write (b :: bs)).runFrom w log with
      | { result := .ok (), state, log } => .goOn (rest, state, log)
      | { result := .error f, state, log } => .done { result := .error f, state, log }
    | (.error kind, rest) =>
      if kind = .interrupted then .goOn (rest, w, log)
      else .done { result := .error (.error (.io "stream read" kind)), state := w, log }

/-- A turn of passing a plaintext on: a call of the reader, and a write of what it gave. -/
def drainTurn : Reader × Sink × Log → Turn (Reader × Sink × Log) (Outcome Sink Unit)
  | (reader, sink, log) =>
    match (Reader.read portion).runFrom reader log with
    | { result := .error f, state := _, log } => .done { result := .error f, state := sink, log }
    | { result := .ok [], state := _, log } => .done { result := .ok (), state := sink, log }
    | { result := .ok (b :: bs), state := reader, log } =>
      match (Sink.send "stream write" (b :: bs)).runFrom sink log with
      | { result := .error f, state, log } => .done { result := .error f, state, log }
      | { result := .ok (), state, log } => .goOn (reader, state, log)

theorem pump_eq (source : Source) :
    pump source =
      match source.read portion with
      | (.ok [], _) => pure ()
      | (.ok (b :: bs), rest) => do
        Writer.write (b :: bs)
        pump rest
      | (.error kind, rest) =>
        if kind = .interrupted then pump rest else throw (.error (.io "stream read" kind)) := by
  fun_cases pump source with
  | case1 rest hread => rw [hread]
  | case2 b bs rest hread => rw [hread]
  | case3 rest hread => rw [hread]; rfl
  | case4 kind rest hkind hread => rw [hread]; exact (if_neg hkind).symm

/-- The step lemma: a read that does not end the loop makes the source smaller. -/
theorem leads_pumpTurn :
    Turn.Leads pumpTurn (fun s => (pump s.1).runFrom s.2.1 s.2.2) (fun s => s.1.weight) := by
  rintro ⟨source, w, log⟩
  have hpump := pump_eq source
  have hsmaller := @Source.weight_of_read portion (by decide) source
  rcases hread : source.read portion with ⟨result, rest⟩
  rw [hread] at hpump
  rcases result with kind | ⟨_ | ⟨b, bs⟩⟩
  · by_cases hkind : kind = .interrupted
    · simp only [hkind, if_true] at hpump
      simp only [pumpTurn, hread, hkind, if_true, hpump]
      exact ⟨trivial, hsmaller (by simp) hread⟩
    · simp only [hkind, if_false] at hpump
      simp only [pumpTurn, hread, hkind, if_false, hpump]
      rfl
  · simp only [pumpTurn, hread, hpump]
    rfl
  · simp only [pumpTurn, hread, hpump, Session.runFrom_bind]
    rcases (Writer.write (b :: bs)).runFrom w log with ⟨result, after, log₁⟩
    cases result with
    | error f => rfl
    | ok u => exact ⟨rfl, hsmaller (by simp) hread⟩

theorem drain_eq (reader : Reader) (sink : Sink) (log : Log) :
    drain reader sink log =
      match (Reader.read portion).runFrom reader log with
      | { result := .error f, state := _, log } => { result := .error f, state := sink, log }
      | { result := .ok [], state := _, log } => { result := .ok (), state := sink, log }
      | { result := .ok (b :: bs), state := reader, log } =>
        match (Sink.send "stream write" (b :: bs)).runFrom sink log with
        | { result := .error f, state := sink, log } => { result := .error f, state := sink, log }
        | { result := .ok (), state := sink, log } => drain reader sink log := by
  fun_cases drain reader sink log with
  | case1 f after log' hread => rw [hread]
  | case2 after log' hread => rw [hread]
  | case3 b bs after log' hread f sink' log'' hsend => simp only [hread, hsend]
  | case4 b bs after log' hread sink' log'' hsend => simp only [hread, hsend]

/-- The step lemma: a piece that is passed on is no longer within reach of the reader. -/
theorem leads_drainTurn :
    Turn.Leads drainTurn (fun s => drain s.1 s.2.1 s.2.2) (fun s => s.1.reach) := by
  rintro ⟨reader, sink, log⟩
  have hdrain := drain_eq reader sink log
  rcases hread : (Reader.read portion).runFrom reader log with ⟨f | ⟨_ | ⟨b, bs⟩⟩, after, log₁⟩
  · rw [hread] at hdrain
    simp only [drainTurn, hread, hdrain]
  · rw [hread] at hdrain
    simp only [drainTurn, hread, hdrain]
  · have hless := Reader.reach_of_read hread
    rw [List.length_cons] at hless
    rcases hsend : (Sink.send "stream write" (b :: bs)).runFrom sink log₁ with ⟨f | u, sink', log₂⟩
    · simp only [hread, hsend] at hdrain
      simp only [drainTurn, hread, hsend, hdrain]
    · simp only [hread, hsend] at hdrain
      simp only [drainTurn, hread, hsend, hdrain]
      exact ⟨trivial, by omega⟩

/-- Encrypting, with at most so many turns of its loop. -/
def encryptWithin (turns : Nat) (key : FixedBytes 32) (ad : Bytes) (random : RandomSource)
    (source : Source) (sink : Sink) (log : Log) : Option (Outcome Sink Unit) :=
  match (Writer.createRandom key random ad Writer.defaultChunkSize).runFrom sink log with
  | { result := .error f, state, log } => some { result := .error f, state, log }
  | { result := .ok writer, state, log } =>
    (loop pumpTurn turns (source, { writer with sink := state }, log)).map fun
      | { result := .error f, state, log } => { result := .error f, state := state.sink, log }
      | { result := .ok (), state, log } =>
        let ended := Writer.finalize.runFrom state log
        { result := ended.result, state := ended.state.sink, log := ended.log }

/-- Decrypting, with at most so many turns of its loop. -/
def decryptWithin (turns : Nat) (key : FixedBytes 32) (ad : Bytes) (source : Source) (sink : Sink)
    (log : Log) : Option (Outcome Sink Unit) :=
  match (Reader.create key ad Reader.defaultLimit).runFrom source log with
  | { result := .error f, state := _, log } => some { result := .error f, state := sink, log }
  | { result := .ok reader, state := _, log } =>
    (loop drainTurn turns (reader, sink, log)).map fun
      | { result := .error f, state, log } => { result := .error f, state, log }
      | { result := .ok (), state, log } => (Sink.sync "stream flush").runFrom state log

theorem encryptWithin_eq (key : FixedBytes 32) (ad : Bytes) (random : RandomSource)
    {source : Source} {turns : Nat} (h : source.weight < turns) (sink : Sink) (log : Log) :
    encryptWithin turns key ad random source sink log =
      some ((encrypt key ad random source).runFrom sink log) := by
  simp only [encryptWithin, encrypt, Session.runFrom_bind, Session.runFrom_focus]
  rcases (Writer.createRandom key random ad Writer.defaultChunkSize).runFrom sink log with
    ⟨result, after, log₁⟩
  cases result with
  | error f => rfl
  | ok writer =>
    simp only [leads_pumpTurn.loop_eq (s := (source, { writer with sink := after }, log₁)) h,
      Option.map_some]
    rcases (pump source).runFrom { writer with sink := after } log₁ with ⟨result, w, log₂⟩
    cases result <;> rfl

theorem decryptWithin_eq (key : FixedBytes 32) (ad : Bytes) {source : Source} {turns : Nat}
    (h : source.remaining < turns) (sink : Sink) (log : Log) :
    decryptWithin turns key ad source sink log =
      some ((decrypt key ad source).runFrom sink log) := by
  simp only [decryptWithin, decrypt, Session.runFrom_bind, Session.runFrom_focus]
  rcases hcreate : (Reader.create key ad Reader.defaultLimit).runFrom source log with
    ⟨result, after, log₁⟩
  cases result with
  | error f => rfl
  | ok reader =>
    have hreach : reader.reach < turns := by
      have htaken := Reader.reach_of_create hcreate
      omega
    simp only [leads_drainTurn.loop_eq (s := (reader, sink, log₁)) hreach, Option.map_some,
      Session.runFrom_ofRun]
    rcases drain reader sink log₁ with ⟨result, sink', log₂⟩
    cases result <;> rfl

/-- The loops of transfers end, whatever their sources and sinks do. -/
structure LoopsEnd : Prop where
  /-- Encrypting takes at most one turn more than its source has bytes and events. -/
  encrypt : ∀ (key : FixedBytes 32) (ad : Bytes) (random : RandomSource) (source : Source)
    (sink : Sink) (log : Log),
    encryptWithin (source.weight + 1) key ad random source sink log =
      some ((encrypt key ad random source).runFrom sink log)
  /-- Decrypting takes at most one turn more than its source has bytes. -/
  decrypt : ∀ (key : FixedBytes 32) (ad : Bytes) (source : Source) (sink : Sink) (log : Log),
    decryptWithin (source.remaining + 1) key ad source sink log =
      some ((decrypt key ad source).runFrom sink log)
  /-- An exact read goes on past interruptions and pieces, but the source gets smaller. -/
  readExact : ∀ (source : Source) (n : Nat),
    loop Source.readTurn (source.weight + 1) (source, n, []) = some (source.readExact n)
  /-- A string is offered at most once more than the sink has events. -/
  deliver : ∀ (events : List SinkEvent) (data : Bytes),
    loop Sink.writeTurn (events.length + 2) (events, data, []) = some (Sink.deliver events data)
  /-- A write sends the full chunks that the buffer holds. -/
  sendFull : ∀ (w : Writer) (log : Log),
    loop Writer.sendTurn (w.buffer.length / w.chunkSize + 1) (w, log) =
      some ((Writer.sendFull (w.buffer.length / w.chunkSize)).runFrom w log)
  /-- A call of a reader passes over empty chunks, each of which takes a frame from the source. -/
  read : ∀ (n : Nat) (r : Reader) (log : Log), r.Passes n log

/-- Encrypting and decrypting come to an end within bounds that their sources and sinks set. -/
theorem loops_end : LoopsEnd where
  encrypt key ad random source := encryptWithin_eq key ad random (Nat.lt_succ_self source.weight)
  decrypt key ad source := decryptWithin_eq key ad (Nat.lt_succ_self source.remaining)
  readExact source n := by
    rw [Source.leads_readTurn.loop_eq (s := (source, n, [])) (Nat.lt_succ_self _)]
    rcases source.readExact n with ⟨kind | got, rest⟩ <;> rfl
  deliver events data := by
    rw [Sink.leads_writeTurn.loop_eq (s := (events, data, []))]
    · rfl
    · cases data <;> simp
  sendFull w log := Writer.leads_sendTurn.loop_eq (s := (w, log)) (Nat.lt_succ_self _)
  read := Reader.passes

/-- A length of sixteen is too short for a chunk: the byte behind it stays where it is. -/
theorem loops_end_at_short_length :
    let r : Reader :=
      { source := [.data [16, 0, 0, 0, 9]]
        stream := .ofHeader (.zero 32) (.zero 24)
        unread := []
        limit := 4
        ad := []
        finished := false }
    ∃ cause, (Reader.read 1).runFrom r [] =
      { result := .error (.error cause), state := { r with source := [.data [9]] }, log := [] } := by
  intro r
  have hfield : (Frame.readOrTruncated 4).runFrom r.source [] =
      { result := .ok [16, 0, 0, 0], state := [.data [9]], log := [] } := by
    rw [Frame.readOrTruncated, Session.runFrom_ofRun]
    simp [r, Source.readExact]
  exact ((loops_end.read 1 r []).refused rfl rfl (by decide) hfield (Or.inl (by decide))).2.2

end Pipe

end AuthEncryption
