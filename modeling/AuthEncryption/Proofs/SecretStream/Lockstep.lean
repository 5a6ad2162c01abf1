import AuthEncryption.Proofs.SecretStream.Order

/-!
# Both ends move together

A session is a list of turns. In each the receiver is first given some inputs of any kind,
and then both ends make the same move: the sender pushes and the receiver pulls the chunk,
or both replace their key. If nothing of what the receiver was given in between is
accepted, it gets from every move what the sender put in, and both ends are in the same
state behind every move. A step lemma says this of one move, and what is rejected changes
nothing; the session is an induction over its turns.
-/
namespace AuthEncryption

namespace SecretStream

/-- The two ends of a stream. -/
structure Ends where
  sender : SecretStream
  receiver : SecretStream

namespace Ends

variable {α : Type}

def onSender (op : Session SecretStream α) : Session Ends α :=
  op.focus Ends.sender fun ends sender => { ends with sender }

def onReceiver (op : Session SecretStream α) : Session Ends α :=
  op.focus Ends.receiver fun ends receiver => { ends with receiver }

end Ends

/-- What both ends do at one point of a session. -/
inductive Move where
  | push (out : Outgoing)
  | rekey

namespace Move

/-- What the sender puts into a move. -/
def content : Move → Option (Bytes × ChunkTag)
  | push out => some (out.plaintext, out.tag)
  | rekey => none

/-- Whether the stream ends with a move. -/
def isFinal : Move → Bool
  | push out => out.tag.isFinal
  | rekey => false

/-- Whether a plaintext is short enough for a chunk. -/
def Fits : Move → Prop
  | push out => out.plaintext.length ≤ messageMax
  | rekey => True

/-- Both ends make a move; gives what the receiver got. -/
def play : Move → Session Ends (Option (Bytes × ChunkTag))
  | push out => do
    let chunk ← Ends.onSender (SecretStream.push out.plaintext out.ad out.tag)
    let got ← Ends.onReceiver (pull chunk out.ad)
    return some got
  | rekey => do
    Ends.onSender SecretStream.rekey
    Ends.onReceiver SecretStream.rekey
    return none

end Move

/-- One turn of a session. -/
structure Turn where
  /-- What the receiver is given before the move. -/
  strays : List Incoming
  move : Move

/-- How a turn went. -/
structure Round where
  /-- What the receiver made of each stray input. -/
  strays : List (Except Failure (Bytes × ChunkTag))
  /-- What the receiver got from the move. -/
  got : Except Failure (Option (Bytes × ChunkTag))
  /-- Both ends behind the move. -/
  ends : Ends

/-- Gives the receiver one input after the other. -/
def offer : List Incoming → Session Ends (List (Except Failure (Bytes × ChunkTag)))
  | [] => return []
  | input :: rest => do
    let result ← (Ends.onReceiver (pull input.chunk input.ad)).attempt
    return result :: (← offer rest)

def Turn.play (turn : Turn) : Session Ends Round := do
  let strays ← offer turn.strays
  let got ← turn.move.play.attempt
  return { strays, got, ends := ← get }

def playAll : List Turn → Session Ends (List Round)
  | [] => return []
  | turn :: rest => do
    let round ← turn.play
    return round :: (← playAll rest)

/-- A session from the start of a stream. -/
def session (key : FixedBytes 32) (header : Header) (turns : List Turn) :
    Outcome Ends (List Round) :=
  let (sender, log) := (initPush key header).run []
  let (receiver, log) := (initPull key header).run log
  (playAll turns).runFrom { sender, receiver } log

/-! ## One turn -/

/-- Offering inputs always comes to an end, and rejected ones change nothing. -/
theorem runFrom_offer (inputs : List Incoming) (ends : Ends) (log : Log) :
    ∃ results after log', (offer inputs).runFrom ends log =
        { result := .ok results, state := after, log := log' } ∧
      ((∀ result ∈ results, ∃ f, result = .error f) → after = ends) := by
  induction inputs generalizing ends log with
  | nil => exact ⟨[], ends, log, rfl, fun _ => rfl⟩
  | cons input inputs ih =>
    obtain ⟨results, after, log', hrun, hsame⟩ :=
      ih { ends with receiver := ((pull input.chunk input.ad).runFrom ends.receiver log).state }
        ((pull input.chunk input.ad).runFrom ends.receiver log).log
    refine ⟨((pull input.chunk input.ad).runFrom ends.receiver log).result :: results, after, log',
      ?_, ?_⟩
    · simp [offer, Ends.onReceiver, hrun]
    · intro hrejected
      obtain ⟨f, hf⟩ := hrejected _ List.mem_cons_self
      have hstate := ends.receiver.state_of_pull_error hf
      rw [hsame fun result hmem => hrejected result (List.mem_cons_of_mem _ hmem), hstate]

/-- The step lemma: from one state at both ends, a move takes both to the same next state. -/
theorem runFrom_play (s : SecretStream) {move : Move} (hopen : s.finalized = false)
    (hfits : move.Fits) (log : Log) :
    ∃ s' log', move.play.runFrom { sender := s, receiver := s } log =
        { result := .ok move.content, state := { sender := s', receiver := s' }, log := log' } ∧
      s'.finalized = move.isFinal := by
  cases move with
  | push out =>
    have hpush := s.runFrom_push hopen hfits out.ad out.tag
    have hpull := s.runFrom_pull_chunk hopen hfits out.ad out.tag
    refine ⟨s.after out, ?_⟩
    simp only [Move.play, Ends.onSender, Ends.onReceiver, Session.runFrom_bind, Session.runFrom_focus,
      Session.runFrom_pure, hpush, hpull]
    refine ⟨_, rfl, ?_⟩
    rw [after, finalized_next, hopen, Bool.false_or]
    rfl
  | rekey =>
    refine ⟨s.renewed, ?_⟩
    simp only [Move.play, Ends.onSender, Ends.onReceiver, Session.runFrom_bind, Session.runFrom_focus,
      Session.runFrom_pure, runFrom_rekey]
    exact ⟨_, rfl, hopen⟩

/-- A turn always comes to an end. -/
theorem runFrom_turn (turn : Turn) (ends : Ends) (log : Log) :
    ∃ round log', turn.play.runFrom ends log =
      { result := .ok round, state := round.ends, log := log' } := by
  obtain ⟨results, after, log', hrun, -⟩ := runFrom_offer turn.strays ends log
  simp only [Turn.play, Session.runFrom_bind, hrun, Session.runFrom_attempt, Session.runFrom_get,
    Session.runFrom_pure]
  exact ⟨_, _, rfl⟩

/-- What a turn gives if all its strays are rejected. -/
theorem round_of_turn (s : SecretStream) {turn : Turn} (hopen : s.finalized = false)
    (hfits : turn.move.Fits) {log log' : Log} {round : Round} {after : Ends}
    (h : turn.play.runFrom { sender := s, receiver := s } log =
      { result := .ok round, state := after, log := log' })
    (hrejected : ∀ result ∈ round.strays, ∃ f, result = .error f) :
    ∃ s', after = { sender := s', receiver := s' } ∧ round.ends = after ∧
      round.got = .ok turn.move.content ∧ s'.finalized = turn.move.isFinal := by
  obtain ⟨results, ends, log₁, hoffer, hsame⟩ :=
    runFrom_offer turn.strays { sender := s, receiver := s } log
  simp only [Turn.play, Session.runFrom_bind, hoffer, Session.runFrom_attempt,
    Session.runFrom_get, Session.runFrom_pure, Outcome.mk.injEq, Except.ok.injEq] at h
  obtain ⟨rfl, rfl, -⟩ := h
  obtain rfl := hsame hrejected
  obtain ⟨s', log₂, hplay, hfinal⟩ := s.runFrom_play hopen hfits log₁
  rw [hplay]
  exact ⟨s', rfl, rfl, rfl, hfinal⟩

/-! ## A session -/

theorem result_of_playAll_cons {turn : Turn} {ends after : Ends} {log log' : Log} {round : Round}
    (turns : List Turn)
    (h : turn.play.runFrom ends log = { result := .ok round, state := after, log := log' }) :
    ((playAll (turn :: turns)).runFrom ends log).result =
      ((playAll turns).runFrom after log').result.map (round :: ·) := by
  simp only [playAll, Session.runFrom_bind, h]
  rcases (playAll turns).runFrom after log' with ⟨result, last, log''⟩
  cases result <;> rfl

/-- A session always comes to an end. -/
theorem exists_rounds (turns : List Turn) (ends : Ends) (log : Log) :
    ∃ rounds, ((playAll turns).runFrom ends log).result = .ok rounds := by
  induction turns generalizing ends log with
  | nil => exact ⟨[], rfl⟩
  | cons turn turns ih =>
    obtain ⟨round, log', hround⟩ := runFrom_turn turn ends log
    obtain ⟨rounds, hrounds⟩ := ih round.ends log'
    exact ⟨round :: rounds, by rw [result_of_playAll_cons turns hround, hrounds]; rfl⟩

/-- What a round is if both ends moved together. -/
def Together (turn : Turn) (round : Round) : Prop :=
  round.got = .ok turn.move.content ∧ round.ends.receiver = round.ends.sender

/-- The run lemma: from one state at both ends, every round leaves them in one state. -/
theorem together_of_playAll (s : SecretStream) {turns : List Turn} (hopen : s.finalized = false)
    (hfits : ∀ turn ∈ turns, turn.move.Fits)
    (hfinal : ∀ turn ∈ turns.dropLast, turn.move.isFinal = false) {log : Log}
    {rounds : List Round}
    (h : ((playAll turns).runFrom { sender := s, receiver := s } log).result = .ok rounds)
    (hrejected : ∀ round ∈ rounds, ∀ result ∈ round.strays, ∃ f, result = .error f) :
    List.Forall₂ Together turns rounds := by
  induction turns generalizing s log rounds with
  | nil =>
    cases h
    exact List.Forall₂.nil
  | cons turn turns ih =>
    obtain ⟨round, log', hround⟩ := runFrom_turn turn { sender := s, receiver := s } log
    obtain ⟨rest, hrest⟩ := exists_rounds turns round.ends log'
    have hcons := result_of_playAll_cons turns hround
    rw [h, hrest] at hcons
    cases hcons
    obtain ⟨s', hends, -, hgot, hlast⟩ := s.round_of_turn hopen (hfits _ List.mem_cons_self) hround
      (hrejected _ List.mem_cons_self)
    refine List.Forall₂.cons ⟨hgot, by rw [hends]⟩ ?_
    rw [hends] at hrest
    cases turns with
    | nil =>
      cases hrest
      exact List.Forall₂.nil
    | cons next turns =>
      -- Another turn follows, so this one did not end the stream.
      have hmore : s'.finalized = false :=
        hlast.trans (hfinal turn (by rw [List.dropLast_cons_cons]; exact List.mem_cons_self))
      refine ih s' hmore (fun t ht => hfits t (List.mem_cons_of_mem _ ht)) ?_ hrest
        fun r hr => hrejected r (List.mem_cons_of_mem _ hr)
      intro t ht
      exact hfinal t (by rw [List.dropLast_cons_cons]; exact List.mem_cons_of_mem _ ht)

/-- Both ends of a stream move together. Of any moves whose plaintexts fit and of which none
follows a final chunk, each one succeeds at both ends, gives the receiver what the sender
put in, and leaves both in one state, provided that the receiver rejects whatever else it
is given in between. -/
theorem ends_move_together (key : FixedBytes 32) (header : Header) {turns : List Turn}
    (hfits : ∀ turn ∈ turns, turn.move.Fits)
    (hfinal : ∀ turn ∈ turns.dropLast, turn.move.isFinal = false) :
    ∃ rounds, (session key header turns).result = .ok rounds ∧
      ((∀ round ∈ rounds, ∀ result ∈ round.strays, ∃ f, result = .error f) →
        List.Forall₂ (fun turn round => round.got = .ok turn.move.content ∧
          round.ends.receiver = round.ends.sender) turns rounds) := by
  obtain ⟨rounds, hrounds⟩ := exists_rounds turns
    { sender := ofHeader key header, receiver := ofHeader key header }
    [.initialized .pull, .initialized .push]
  refine ⟨rounds, hrounds, fun hrejected => ?_⟩
  exact together_of_playAll (ofHeader key header) rfl hfits hfinal hrounds hrejected

/-- A chunk that rekeys, a rekey and the final chunk, with a stray that is too short. -/
theorem ends_move_together_past_a_stray :
    let turns : List Turn :=
      [⟨[⟨[5], []⟩], .push ⟨[7], [1], .rekey⟩⟩, ⟨[], .rekey⟩, ⟨[], .push ⟨[], [], .final⟩⟩]
    (∀ turn ∈ turns, turn.move.Fits) ∧ (∀ turn ∈ turns.dropLast, turn.move.isFinal = false) ∧
      ∃ rounds, (session (.zero 32) (.zero 24) turns).result = .ok rounds ∧
        List.Forall₂ (fun turn round => round.got = .ok turn.move.content ∧
          round.ends.receiver = round.ends.sender) turns rounds := by
  intro turns
  have hlimit : 1 ≤ messageMax := by decide
  have hfits : ∀ turn ∈ turns, turn.move.Fits := by simp [turns, Move.Fits, hlimit]
  have hfinal : ∀ turn ∈ turns.dropLast, turn.move.isFinal = false := by
    simp [turns, Move.isFinal, ChunkTag.isFinal]
  obtain ⟨rounds, hrounds, htogether⟩ := ends_move_together (.zero 32) (.zero 24) hfits hfinal
  refine ⟨hfits, hfinal, rounds, hrounds, htogether ?_⟩
  obtain ⟨s, hs⟩ : ∃ s, s = ofHeader (.zero 32) (.zero 24) := ⟨_, rfl⟩
  obtain ⟨f, hf⟩ := s.runFrom_pull_of_short (show ([5] : Bytes).length < overhead by decide) []
    [.initialized .pull, .initialized .push]
  have hsession : (session (.zero 32) (.zero 24) turns).result =
      ((playAll turns).runFrom { sender := s, receiver := s }
        [.initialized .pull, .initialized .push]).result := by
    rw [hs]
    rfl
  rw [hsession] at hrounds
  simp [turns, playAll, Turn.play, offer, Ends.onReceiver, hf] at hrounds
  simp [← hrounds]

end SecretStream

end AuthEncryption
