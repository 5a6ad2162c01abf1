import AuthEncryption.Proofs.Transfer.Cutting
import AuthEncryption.Transfer.Source

/-!
# Loops, one turn at a time

A loop is a turn that goes on with another state or ends with a result. It ends within a bound if a
measure gets smaller in every turn that goes on, and its result is that of a function which such a
turn does not change. So it is with the loops at the two ends of a transfer: an exact read is single
reads, whose source loses an event or some bytes each time; a string is written by single offers,
which use up the events of the sink; and full chunks leave a buffer one by one.
-/
namespace AuthEncryption

/-! ## Loops -/

/-- What a turn of a loop comes to. -/
inductive Turn (σ β : Type) where
  | goOn (next : σ)
  | done (result : β)

namespace Turn

variable {σ β : Type} {turn : σ → Turn σ β} {result : σ → β} {measure : σ → Nat}

/-- A loop of at most `k` turns. -/
def loop (turn : σ → Turn σ β) : (k : Nat) → σ → Option β
  | 0, _ => none
  | k + 1, s =>
    match turn s with
    | .goOn next => loop turn k next
    | .done b => some b

/-- What a turn has to keep for a loop to come to `result`: a turn that ends the loop gives it, and
a turn that goes on does not change it and makes the measure smaller. -/
def Leads (turn : σ → Turn σ β) (result : σ → β) (measure : σ → Nat) : Prop :=
  ∀ s, match turn s with
    | .goOn next => result s = result next ∧ measure next < measure s
    | .done b => result s = b

/-- The run lemma: a loop needs one turn more than its measure. -/
theorem Leads.loop_eq (h : Leads turn result measure) {k : Nat} {s : σ} (hk : measure s < k) :
    loop turn k s = some (result s) := by
  induction k generalizing s with
  | zero => exact absurd hk (Nat.not_lt_zero _)
  | succ k ih =>
    have hturn := h s
    rw [loop]
    cases hs : turn s with
    | goOn next =>
      rw [hs] at hturn
      obtain ⟨hresult, hless⟩ := hturn
      rw [hresult]
      exact ih (by omega)
    | done b =>
      rw [hs] at hturn
      exact congrArg some hturn.symm

end Turn

open Turn (loop)

/-! ## Reading and writing a string -/

namespace Source

/-- A turn of an exact read: one read of what is missing. The state is the source, the number of
bytes that are missing and those that were read. -/
def readTurn : Source × Nat × Bytes → Turn (Source × Nat × Bytes) (Except IoKind Bytes × Source)
  | (source, 0, got) => .done (.ok got, source)
  | (source, n + 1, got) =>
    match source.read (n + 1) with
    | (.ok [], rest) => .done (.error .unexpectedEof, rest)
    | (.ok (b :: bs), rest) => .goOn (rest, n + 1 - (b :: bs).length, got ++ b :: bs)
    | (.error kind, rest) =>
      if kind = .interrupted then .goOn (rest, n + 1, got) else .done (.error kind, rest)

/-- An exact read begins with one read. -/
theorem readExact_succ (source : Source) (n : Nat) :
    source.readExact (n + 1) =
      match source.read (n + 1) with
      | (.ok [], rest) => (.error .unexpectedEof, rest)
      | (.ok (b :: bs), rest) =>
        ((rest.readExact (n + 1 - (b :: bs).length)).1.map ((b :: bs) ++ ·),
          (rest.readExact (n + 1 - (b :: bs).length)).2)
      | (.error kind, rest) =>
        if kind = .interrupted then rest.readExact (n + 1) else (.error kind, rest) := by
  cases source with
  | nil => rfl
  | cons event rest =>
    cases event with
    | fail kind => rfl
    | data bytes =>
      cases bytes with
      | nil => rfl
      | cons b bs =>
        cases hdrop : (b :: bs).drop (n + 1) with
        | nil => simp [readExact, read, hdrop]
        | cons later more =>
          -- What was read is all that is missing, so the read behind it asks for nothing.
          have hlength : n < bs.length := by
            have hlong := congrArg List.length hdrop
            simp only [List.length_drop, List.length_cons] at hlong
            omega
          have htake : (b :: bs).take (n + 1) = b :: bs.take n := rfl
          have hnothing : n + 1 - (b :: bs.take n).length = 0 := by
            rw [List.length_cons, List.length_take_of_le (Nat.le_of_lt hlength), Nat.sub_self]
          simp only [readExact, List.isEmpty_cons, Bool.false_eq_true, if_false, hdrop, read, htake,
            hnothing]
          simp

/-- The step lemma: every read that does not end the loop makes the source smaller. -/
theorem leads_readTurn :
    Turn.Leads readTurn
      (fun s => ((s.1.readExact s.2.1).1.map (s.2.2 ++ ·), (s.1.readExact s.2.1).2))
      (fun s => s.1.weight) := by
  rintro ⟨source, missing, got⟩
  cases missing with
  | zero => simp [readTurn, readExact]
  | succ n =>
    have hexact := source.readExact_succ n
    have hsmaller := @weight_of_read (n + 1) (Nat.succ_pos n) source
    rcases hread : source.read (n + 1) with ⟨result, rest⟩
    rw [hread] at hexact
    rcases result with kind | ⟨_ | ⟨b, bs⟩⟩
    · by_cases hkind : kind = .interrupted
      · simp only [hkind, if_true] at hexact
        simp only [readTurn, hexact, hread, hkind, if_true]
        exact ⟨trivial, hsmaller (by simp) hread⟩
      · simp [readTurn, hexact, hread, hkind]
    · simp [readTurn, hexact, hread]
    · simp only [readTurn, hexact, hread]
      refine ⟨?_, hsmaller (by simp) hread⟩
      cases (rest.readExact (n + 1 - (b :: bs).length)).1 <;> simp

end Source

namespace Sink

/-- One offer of a string: the part that is taken. -/
def offer : List SinkEvent → Bytes → Except IoKind Bytes × List SinkEvent
  | [], data => (.ok data, [])
  | .accept count :: rest, data => (.ok (data.take count), rest)
  | .fail kind :: rest, _ => (.error kind, rest)

/-- A turn of a write of a whole string: one offer of what is left. The state is what the sink does
next, what is left and what was taken. -/
def writeTurn : List SinkEvent × Bytes × Bytes →
    Turn (List SinkEvent × Bytes × Bytes) (Except IoKind Unit × Bytes × List SinkEvent)
  | (events, [], taken) => .done (.ok (), taken, events)
  | (events, b :: bs, taken) =>
    match offer events (b :: bs) with
    | (.ok [], rest) => .done (.error .writeZero, taken, rest)
    | (.ok (x :: xs), rest) => .goOn (rest, (b :: bs).drop (x :: xs).length, taken ++ x :: xs)
    | (.error kind, rest) =>
      if kind = .interrupted then .goOn (rest, b :: bs, taken) else .done (.error kind, taken, rest)

/-- The step lemma: an offer uses up an event, or all of the string is taken. -/
theorem leads_writeTurn :
    Turn.Leads writeTurn
      (fun s => ((deliver s.1 s.2.1).1, s.2.2 ++ (deliver s.1 s.2.1).2.1, (deliver s.1 s.2.1).2.2))
      (fun s => s.1.length + if s.2.1.isEmpty then 0 else 1) := by
  rintro ⟨events, data, taken⟩
  cases data with
  | nil => simp [writeTurn, deliver]
  | cons b bs =>
    cases events with
    | nil => simp [writeTurn, offer, deliver]
    | cons event rest =>
      cases event with
      | fail kind =>
        by_cases hkind : kind = .interrupted
        · simp [writeTurn, offer, deliver, hkind]
        · simp [writeTurn, offer, deliver, hkind]
      | accept count =>
        cases count with
        | zero => simp [writeTurn, offer, deliver]
        | succ count =>
          have hdrop : bs.drop (min count bs.length) = bs.drop count := by
            rcases Nat.le_total count bs.length with hle | hle
            · rw [Nat.min_eq_left hle]
            · rw [Nat.min_eq_right hle, List.drop_length, List.drop_of_length_le hle]
          simp only [writeTurn, offer, deliver, List.take_succ_cons, List.drop_succ_cons,
            List.length_cons, List.length_take, hdrop, List.append_assoc]
          cases (bs.drop count).isEmpty <;> simp

end Sink

/-! ## Sending full chunks -/

namespace Writer

/-- A turn of sending what fills a chunk: a chunk, if the buffer holds one. -/
def sendTurn : Writer × Log → Turn (Writer × Log) (Outcome Writer Unit)
  | (w, log) =>
    if w.chunkSize ≤ w.buffer.length then
      match (sendChunk (w.buffer.take w.chunkSize) .message).runFrom
          (w.withBuffer (w.buffer.drop w.chunkSize)) log with
      | { result := .ok (), state, log } => .goOn (state, log)
      | { result := .error f, state, log } => .done { result := .error f, state, log }
    else
      .done { result := .ok (), state := w, log }

/-- The step lemma: a chunk leaves the buffer. -/
theorem leads_sendTurn :
    Turn.Leads sendTurn
      (fun s => (sendFull (s.1.buffer.length / s.1.chunkSize)).runFrom s.1 s.2)
      (fun s => s.1.buffer.length / s.1.chunkSize) := by
  rintro ⟨w, log⟩
  have hpos := w.chunkSize_pos
  by_cases hfull : w.chunkSize ≤ w.buffer.length
  · have hcount : w.buffer.length / w.chunkSize =
        (w.buffer.length - w.chunkSize) / w.chunkSize + 1 := Nat.div_eq_sub_div hpos hfull
    obtain ⟨result, sink, stream, chunks, log₁, hsend⟩ :=
      w.sendChunk_cases (w.buffer.take w.chunkSize) .message log
    simp only [sendTurn, hfull, if_true, hcount, runFrom_sendFull_succ, Session.runFrom_bind, hsend]
    cases result with
    | error f => rfl
    | ok u => simp [withBuffer]
  · simp only [sendTurn, hfull, if_false, Nat.div_eq_of_lt (Nat.lt_of_not_le hfull)]
    rfl

end Writer

end AuthEncryption
