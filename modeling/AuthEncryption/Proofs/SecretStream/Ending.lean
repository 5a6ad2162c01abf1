import AuthEncryption.Proofs.SecretStream.Atomic

/-!
# The end of a stream

One end of a stream is called again and again, whatever each call gives: a chunk is pushed
or pulled, with or without a buffer of the caller, or the state is rekeyed or wiped. What a
call does to the mark of the end is said once: a final chunk sets it, a wipe clears it, and
nothing else changes it. By induction over the calls the mark tells whether a final chunk was
handled since the last wipe. From then on every call that would handle a chunk is refused and
changes nothing, and until then a plaintext that fits is taken. The end does not outlive a
wipe, which makes the stream one that has not ended.
-/
namespace AuthEncryption

/-- Runs an operation on a buffer of the caller, and gives how it ended and the buffer it
leaves. -/
def WithBuffer.lend {σ β : Type} (buffer : Bytes) (op : Session (WithBuffer σ) β) :
    Session σ (Except Failure β × Bytes) :=
  Session.ofRun fun state log =>
    let outcome := op.runFrom { state, buffer } log
    { result := .ok (outcome.result, outcome.state.buffer)
      state := outcome.state.state
      log := outcome.log }

@[simp] theorem WithBuffer.runFrom_lend {σ β : Type} (buffer : Bytes)
    (op : Session (WithBuffer σ) β) (state : σ) (log : Log) :
    (lend buffer op).runFrom state log =
      { result := .ok ((op.runFrom { state, buffer } log).result,
          (op.runFrom { state, buffer } log).state.buffer)
        state := (op.runFrom { state, buffer } log).state.state
        log := (op.runFrom { state, buffer } log).log } := rfl

theorem ChunkTag.isFinal_iff (t : ChunkTag) : t.isFinal = true ↔ t = .final := by
  cases t <;> simp [isFinal]

theorem ChunkTag.shouldRekey_iff (t : ChunkTag) :
    t.shouldRekey = true ↔ t = .rekey ∨ t = .final := by
  cases t <;> decide

namespace SecretStream

/-- A call on one end of a stream, with the buffer of the caller where there is one. -/
inductive Call where
  | push (plaintext ad : Bytes) (tag : ChunkTag)
  | pushInto (buffer plaintext ad : Bytes) (tag : ChunkTag)
  | pull (chunk ad : Bytes)
  | pullInto (buffer chunk ad : Bytes)
  | rekey
  | wipe
deriving DecidableEq

/-- What a call gives back. -/
structure Reply where
  /-- The tag of the chunk that was pushed or pulled, if the call is one that does so. -/
  result : Except Failure (Option ChunkTag)
  /-- The buffer of the caller behind the call. -/
  buffer : Bytes

namespace Call

/-- The buffer of the caller. -/
def buffer : Call → Bytes
  | pushInto buffer .. | pullInto buffer .. => buffer
  | _ => []

/-- What a call that would handle a chunk reports of a stream that has ended. -/
def refusal : Call → Option Error
  | push .. | pushInto .. => some (.invalidState "secretstream push after final chunk")
  | pull .. | pullInto .. => some (.invalidState "secretstream pull after final chunk")
  | rekey | wipe => none

/-- A plaintext whose chunk is to be allocated lies in one memory region. -/
def InMemory : Call → Prop
  | push plaintext _ _ => plaintext.length ≤ capacityLimit
  | _ => True

def perform : Call → Session SecretStream Reply
  | push plaintext ad tag => do
    let result ← (SecretStream.push plaintext ad tag).attempt
    return { result := result.map fun _ => some tag, buffer := [] }
  | pushInto buffer plaintext ad tag => do
    let (result, buffer) ← WithBuffer.lend buffer (SecretStream.pushInto plaintext ad tag)
    return { result := result.map fun _ => some tag, buffer }
  | pull chunk ad => do
    let result ← (SecretStream.pull chunk ad).attempt
    return { result := result.map fun (_, tag) => some tag, buffer := [] }
  | pullInto buffer chunk ad => do
    let (result, buffer) ← WithBuffer.lend buffer (SecretStream.pullInto chunk ad)
    return { result := result.map fun (_, tag) => some tag, buffer }
  | rekey => do
    let result ← SecretStream.rekey.attempt
    return { result := result.map fun _ => none, buffer := [] }
  | wipe => do
    modify SecretStream.wipe
    return { result := .ok none, buffer := [] }

end Call

/-- Performs one call after the other, whatever each of them gives. -/
def performAll : List Call → Session SecretStream (List (Call × Reply))
  | [] => return []
  | call :: rest => do
    let reply ← call.perform
    return (call, reply) :: (← performAll rest)

/-- The call handled a final chunk. -/
def Reply.Final (reply : Reply) : Prop := reply.result = .ok (some .final)

/-- Nothing was wiped. -/
def Unwiped (turns : List (Call × Reply)) : Prop := ∀ turn ∈ turns, turn.1 ≠ .wipe

/-- A final chunk was handled and nothing was wiped since. -/
def Ended (turns : List (Call × Reply)) : Prop :=
  ∃ before last after, turns = before ++ last :: after ∧ last.2.Final ∧ Unwiped after

theorem unwiped_cons {turn : Call × Reply} {turns : List (Call × Reply)} :
    Unwiped (turn :: turns) ↔ turn.1 ≠ .wipe ∧ Unwiped turns :=
  List.forall_mem_cons

theorem not_ended_nil : ¬ Ended [] := by
  rintro ⟨before, last, after, h, -, -⟩
  simp at h

theorem ended_cons {turn : Call × Reply} {turns : List (Call × Reply)} :
    Ended (turn :: turns) ↔ Ended turns ∨ (turn.2.Final ∧ Unwiped turns) := by
  constructor
  · rintro ⟨before, last, after, h, hfinal, hafter⟩
    cases before with
    | nil =>
      obtain ⟨rfl, rfl⟩ := List.cons.inj h
      exact Or.inr ⟨hfinal, hafter⟩
    | cons first before =>
      obtain ⟨rfl, rfl⟩ := List.cons.inj h
      exact Or.inl ⟨before, last, after, rfl, hfinal, hafter⟩
  · rintro (⟨before, last, after, rfl, hfinal, hafter⟩ | ⟨hfinal, hafter⟩)
    · exact ⟨turn :: before, last, after, rfl, hfinal, hafter⟩
    · exact ⟨[], turn, turns, rfl, hfinal, hafter⟩

/-! ## One call -/

variable (s : SecretStream)

/-- A push fails and leaves the state alone, or it moves on by one chunk. -/
theorem push_state_cases (m ad : Bytes) (t : ChunkTag) (log : Log) :
    (∃ f, (push m ad t).runFrom s log = { result := .error f, state := s, log }) ∨
    ∃ c mac log', (push m ad t).runFrom s log =
      { result := .ok c, state := s.next mac t, log := log' } := by
  cases hopen : s.finalized with
  | true => exact Or.inl (s.runFrom_push_of_finalized hopen m ad t log)
  | false =>
    by_cases hm : m.length ≤ messageMax
    · exact Or.inr ⟨_, _, _, s.runFrom_push hopen hm ad t log⟩
    · exact Or.inl (s.runFrom_push_of_gt (Nat.lt_of_not_le hm) ad t log)

theorem pushInto_state_cases (m ad buffer : Bytes) (t : ChunkTag) (log : Log) :
    (∃ f after log', (pushInto m ad t).runFrom { state := s, buffer } log =
      { result := .error f, state := { state := s, buffer := after }, log := log' }) ∨
    ∃ n mac after log', (pushInto m ad t).runFrom { state := s, buffer } log =
      { result := .ok n, state := { state := s.next mac t, buffer := after }, log := log' } := by
  obtain ⟨cause, hrun⟩ | ⟨-, hrun⟩ := s.pushInto_cases m ad buffer t log
  · exact Or.inl ⟨_, _, _, hrun⟩
  · exact Or.inr ⟨_, _, _, _, hrun⟩

theorem pull_state_cases (c ad : Bytes) (log : Log) :
    (∃ f log', (pull c ad).runFrom s log = { result := .error f, state := s, log := log' }) ∨
    ∃ m mac t log', (pull c ad).runFrom s log =
      { result := .ok (m, t), state := s.next mac t, log := log' } := by
  obtain hfailed | ⟨hopen, m, t, hm, rfl⟩ := s.pull_cases c ad log
  · exact Or.inl hfailed
  · exact Or.inr ⟨_, _, _, _, s.runFrom_pull_chunk hopen hm ad t log⟩

/-- A pull into a buffer fails and leaves the state alone, or it moves on by one chunk. The
chunk may be of any length. -/
theorem pullInto_state_cases (c ad buffer : Bytes) (log : Log) :
    (∃ f after log', (pullInto c ad).runFrom { state := s, buffer } log =
      { result := .error f, state := { state := s, buffer := after }, log := log' }) ∨
    ∃ n mac t after log', (pullInto c ad).runFrom { state := s, buffer } log =
      { result := .ok (n, t), state := { state := s.next mac t, buffer := after }, log := log' } := by
  cases hopen : s.finalized with
  | true => simp [pullInto, Check.streamState, hopen]
  | false =>
    by_cases hlong : overhead ≤ c.length
    · obtain ⟨sent, body, mac, rfl⟩ := exists_parts hlong
      by_cases hroom : body.length ≤ buffer.length
      · rw [s.runFrom_pullInto hopen hroom]
        split
        · split
          · split
            · exact Or.inr ⟨_, _, _, _, _, rfl⟩
            · exact Or.inl ⟨_, _, _, rfl⟩
          · exact Or.inl ⟨_, _, _, rfl⟩
        · exact Or.inl ⟨_, _, _, rfl⟩
      · left
        have hshort : buffer.length < body.length := Nat.lt_of_not_le hroom
        simp [pullInto, Check.streamState, hopen, splitChunk_eq, Check.bufferLength, hshort]
    · left
      have hshort : c.length < overhead := Nat.lt_of_not_le hlong
      simp [pullInto, Check.streamState, hopen, splitChunk, Check.ciphertextLength, hshort]

/-- How a call that handles a chunk may end: it fails and the state stays, or the state moves
on by one chunk. -/
inductive Handled : Except Failure (Option ChunkTag) → SecretStream → Prop
  | refused (f : Failure) : Handled (.error f) s
  | moved (mac : Tag 16) (t : ChunkTag) : Handled (.ok (some t)) (s.next mac t)

variable {s} in
theorem Handled.finalized_iff {result : Except Failure (Option ChunkTag)} {s' : SecretStream}
    (h : s.Handled result s') :
    s'.finalized = true ↔ result = .ok (some .final) ∨ s.finalized = true := by
  cases h with
  | refused f => simp
  | moved mac t =>
    have ht := t.isFinal_iff
    simp only [finalized_next, Bool.or_eq_true, Except.ok.injEq, Option.some.injEq, ht]
    exact or_comm

/-- A call that handles a chunk is refused or moves the state on by one chunk. -/
theorem runFrom_perform_chunk {call : Call} {cause : Error} (hcause : call.refusal = some cause)
    (log : Log) :
    ∃ reply s' log', call.perform.runFrom s log = { result := .ok reply, state := s', log := log' } ∧
      s.Handled reply.result s' := by
  cases call with
  | push m ad t =>
    obtain ⟨f, hrun⟩ | ⟨c, mac, log', hrun⟩ := s.push_state_cases m ad t log
    · exact ⟨⟨.error f, []⟩, s, log, by simp [Call.perform, hrun], .refused f⟩
    · exact ⟨⟨.ok (some t), []⟩, _, log', by simp [Call.perform, hrun], .moved mac t⟩
  | pushInto buffer m ad t =>
    obtain ⟨f, after, log', hrun⟩ | ⟨n, mac, after, log', hrun⟩ :=
      s.pushInto_state_cases m ad buffer t log
    · exact ⟨⟨.error f, after⟩, s, log', by simp [Call.perform, hrun], .refused f⟩
    · exact ⟨⟨.ok (some t), after⟩, _, log', by simp [Call.perform, hrun], .moved mac t⟩
  | pull c ad =>
    obtain ⟨f, log', hrun⟩ | ⟨m, mac, t, log', hrun⟩ := s.pull_state_cases c ad log
    · exact ⟨⟨.error f, []⟩, s, log', by simp [Call.perform, hrun], .refused f⟩
    · exact ⟨⟨.ok (some t), []⟩, _, log', by simp [Call.perform, hrun], .moved mac t⟩
  | pullInto buffer c ad =>
    obtain ⟨f, after, log', hrun⟩ | ⟨n, mac, t, after, log', hrun⟩ :=
      s.pullInto_state_cases c ad buffer log
    · exact ⟨⟨.error f, after⟩, s, log', by simp [Call.perform, hrun], .refused f⟩
    · exact ⟨⟨.ok (some t), after⟩, _, log', by simp [Call.perform, hrun], .moved mac t⟩
  | rekey => cases hcause
  | wipe => cases hcause

/-- The step lemma: a call always gives a reply; a final chunk sets the mark of the end, a wipe
clears it, and nothing else changes it. -/
theorem runFrom_perform (call : Call) (log : Log) :
    ∃ reply s' log', call.perform.runFrom s log = { result := .ok reply, state := s', log := log' } ∧
      (s'.finalized = true ↔ reply.Final ∨ (call ≠ .wipe ∧ s.finalized = true)) := by
  cases hcause : call.refusal with
  | some cause =>
    have hkeeps : call ≠ .wipe := by
      rintro rfl
      cases hcause
    obtain ⟨reply, s', log', hrun, hhandled⟩ := s.runFrom_perform_chunk hcause log
    refine ⟨reply, s', log', hrun, ?_⟩
    rw [hhandled.finalized_iff, and_iff_right hkeeps, Reply.Final]
  | none =>
    cases call with
    | rekey =>
      refine ⟨⟨.ok none, []⟩, s.renewed, .rekeyed :: log, by simp [Call.perform, runFrom_rekey], ?_⟩
      simp [Reply.Final, renewed]
    | wipe =>
      refine ⟨⟨.ok none, []⟩, s.wipe, log, by simp [Call.perform], ?_⟩
      simp [Reply.Final, wipe]
    | _ => cases hcause

/-- A stream that has ended refuses every call that would handle a chunk, and nothing
changes. -/
theorem runFrom_perform_of_finalized (hclosed : s.finalized = true) {call : Call} {cause : Error}
    (hcause : call.refusal = some cause) (hmemory : call.InMemory) (log : Log) :
    call.perform.runFrom s log =
      { result := .ok { result := .error (.error cause), buffer := call.buffer }
        state := s
        log } := by
  cases call with
  | push m ad t =>
    have hsize : m.length + overhead < sizeLimit := by
      have hlimit : capacityLimit + overhead < sizeLimit := by decide
      exact Nat.lt_of_le_of_lt (Nat.add_le_add_right hmemory overhead) hlimit
    cases hcause
    simp [Call.perform, Call.buffer, push, addSizes, hsize, pushInto, Check.streamState, hclosed]
  | pushInto buffer m ad t =>
    cases hcause
    simp [Call.perform, Call.buffer, pushInto, Check.streamState, hclosed]
  | pull c ad =>
    cases hcause
    simp [Call.perform, Call.buffer, pull, pullInto, Check.streamState, hclosed]
  | pullInto buffer c ad =>
    cases hcause
    simp [Call.perform, Call.buffer, pullInto, Check.streamState, hclosed]
  | rekey => cases hcause
  | wipe => cases hcause

/-! ## A run -/

/-- The run lemma: behind any calls the mark tells whether a final chunk was handled since the
last wipe, or was set before and there was no wipe. -/
theorem runFrom_performAll (calls : List Call) (log : Log) :
    ∃ turns s' log', (performAll calls).runFrom s log =
        { result := .ok turns, state := s', log := log' } ∧
      turns.map Prod.fst = calls ∧
      (s'.finalized = true ↔ Ended turns ∨ (Unwiped turns ∧ s.finalized = true)) := by
  induction calls generalizing s log with
  | nil => exact ⟨[], s, log, rfl, rfl, by simp [not_ended_nil, Unwiped]⟩
  | cons call calls ih =>
    obtain ⟨reply, s₁, log₁, hcall, hmark⟩ := s.runFrom_perform call log
    obtain ⟨turns, s₂, log₂, hrest, hcalls, hmarks⟩ := ih s₁ log₁
    refine ⟨(call, reply) :: turns, s₂, log₂, ?_, ?_, ?_⟩
    · simp [performAll, hcall, hrest]
    · simp [hcalls]
    · rw [hmarks, hmark, ended_cons, unwiped_cons]
      tauto

/-- The end of a stream lasts until a wipe. Behind any calls on one end, if a final chunk was
handled and nothing was wiped since, every call that would handle a chunk is refused as made in
the wrong state, and leaves the buffer of the caller, the state and the log as they were. If
there was no final chunk since the last wipe, every plaintext within the limit can be pushed. -/
theorem ended_stream_refuses_until_wiped (key : FixedBytes 32) (header : Header)
    (calls : List Call) (log : Log) :
    ∃ turns s log', (performAll calls).runFrom (ofHeader key header) log =
        { result := .ok turns, state := s, log := log' } ∧
      turns.map Prod.fst = calls ∧
      (Ended turns → ∀ (call : Call) (cause : Error), call.refusal = some cause → call.InMemory →
        call.perform.runFrom s log' =
          { result := .ok { result := .error (.error cause), buffer := call.buffer }
            state := s
            log := log' }) ∧
      (¬ Ended turns → ∀ (m ad : Bytes) (t : ChunkTag), m.length ≤ messageMax →
        ∃ c, ((push m ad t).runFrom s log').result = .ok c ∧ c.length = m.length + overhead) := by
  obtain ⟨turns, s, log', hrun, hcalls, hmark⟩ := (ofHeader key header).runFrom_performAll calls log
  have hstart : (ofHeader key header).finalized ≠ true := Bool.false_ne_true
  rw [or_iff_left fun h => hstart h.2] at hmark
  refine ⟨turns, s, log', hrun, hcalls, fun hended call cause hcause hmemory => ?_,
    fun hopen m ad t hm => ?_⟩
  · exact s.runFrom_perform_of_finalized (hmark.mpr hended) hcause hmemory log'
  · have hmore : s.finalized = false := Bool.eq_false_iff.mpr fun h => hopen (hmark.mp h)
    exact ⟨s.chunk m ad t, by rw [s.runFrom_push hmore hm], s.length_chunk m ad t⟩

/-- A final chunk of one byte and a rekey, and then a push into a buffer of two bytes. -/
theorem ended_stream_refuses_behind_a_rekey :
    ∃ turns s log', (performAll [.push [7] [] .final, .rekey]).runFrom
        (ofHeader (.zero 32) (.zero 24)) [] = { result := .ok turns, state := s, log := log' } ∧
      Ended turns ∧
      (Call.pushInto [9, 8] [1] [] .message).perform.runFrom s log' =
        { result := .ok
            { result := .error (.error (.invalidState "secretstream push after final chunk"))
              buffer := [9, 8] }
          state := s
          log := log' } := by
  obtain ⟨turns, s, log', hrun, -, hrefuses, -⟩ :=
    ended_stream_refuses_until_wiped (.zero 32) (.zero 24) [.push [7] [] .final, .rekey] []
  obtain ⟨start, hstart⟩ : ∃ start, start = ofHeader (.zero 32) (.zero 24) := ⟨_, rfl⟩
  have hopen : start.finalized = false := hstart ▸ rfl
  have hpush := start.runFrom_push hopen (show ([7] : Bytes).length ≤ messageMax by decide) [] .final
  have hturns : turns = [(.push [7] [] .final, ⟨.ok (some .final), []⟩), (.rekey, ⟨.ok none, []⟩)] := by
    rw [← hstart] at hrun
    simp [performAll, Call.perform, hpush, runFrom_rekey] at hrun
    exact hrun.1.symm
  have hended : Ended turns :=
    ⟨[], (.push [7] [] .final, ⟨.ok (some .final), []⟩), [(.rekey, ⟨.ok none, []⟩)], hturns, rfl,
      by simp [Unwiped]⟩
  exact ⟨turns, s, log', hrun, hended, hrefuses hended _ _ rfl trivial⟩

/-- The end does not outlive a wipe: behind a final chunk and a wipe a chunk is pushed. -/
theorem wiped_stream_takes_chunks_again :
    ∃ s log', (performAll [.push [7] [] .final, .wipe]).runFrom (ofHeader (.zero 32) (.zero 24)) [] =
        { result := .ok
            [(.push [7] [] .final, ⟨.ok (some .final), []⟩), (.wipe, ⟨.ok none, []⟩)]
          state := s
          log := log' } ∧
      ∃ c, ((push [8] [] .message).runFrom s log').result = .ok c := by
  obtain ⟨start, hstart⟩ : ∃ start, start = ofHeader (.zero 32) (.zero 24) := ⟨_, rfl⟩
  have hopen : start.finalized = false := hstart ▸ rfl
  have hfirst := start.runFrom_push hopen (show ([7] : Bytes).length ≤ messageMax by decide) [] .final
  have hwiped : ∀ s : SecretStream, s.wipe.finalized = false := fun s => rfl
  rw [← hstart]
  simp only [performAll, Call.perform, Session.runFrom_bind, Session.runFrom_attempt, hfirst,
    Session.runFrom_modify, Session.runFrom_pure, Failure.map_ok]
  refine ⟨_, _, rfl, ?_⟩
  rw [runFrom_push _ (hwiped _) (show ([8] : Bytes).length ≤ messageMax by decide)]
  exact ⟨_, rfl⟩

end SecretStream

end AuthEncryption
