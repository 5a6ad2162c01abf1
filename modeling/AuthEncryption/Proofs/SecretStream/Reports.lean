import AuthEncryption.Proofs.SecretStream.Atomic
import AuthEncryption.Proofs.SecretStream.Order
import AuthEncryption.Proofs.TwoRuns

/-!
# What a stream reports

Two streams under different keys and headers have the same counter and end at the same point if
plaintexts of the same lengths go through them with the same tags, and nothing else of a state
decides about a report. A conversation is a sender, a receiver and what is under way between them,
with pushes, rekeys and receipts in any order. In two conversations of the same shape the same is
under way but for the bytes: this is the invariant of one act, and hence of all of them, that makes
their reports the same.
-/
namespace AuthEncryption

namespace SecretStream

/-- Two states that differ in their secrets only. -/
structure SameProgress (s s' : SecretStream) : Prop where
  counter : s.counter = s'.counter
  finalized : s.finalized = s'.finalized

theorem sameProgress_ofHeader (key key' : FixedBytes 32) (header header' : Header) :
    SameProgress (ofHeader key header) (ofHeader key' header') :=
  ⟨rfl, rfl⟩

theorem run_initPush (key : FixedBytes 32) (header : Header) (log : Log) :
    (initPush key header).run log = (ofHeader key header, .initialized .push :: log) := rfl

theorem run_initPull (key : FixedBytes 32) (header : Header) (log : Log) :
    (initPull key header).run log = (ofHeader key header, .initialized .pull :: log) := rfl

namespace SameProgress

variable {s s' : SecretStream}

theorem stepped (h : SameProgress s s') (mac mac' : Tag 16) :
    SameProgress (s.stepped mac) (s'.stepped mac') :=
  ⟨congrArg (·.mapList Bytes.incrementLE Bytes.length_incrementLE) h.counter, h.finalized⟩

theorem renewed (h : SameProgress s s') : SameProgress s.renewed s'.renewed := ⟨rfl, h.finalized⟩

/-- Whether a chunk is followed by a rekey is seen from its tag and the counter. -/
theorem renews_eq (h : SameProgress s s') (mac mac' : Tag 16) (t : ChunkTag) :
    s.renews mac t = s'.renews mac' t := by
  rw [renews, renews, (h.stepped mac mac').counter]

theorem next (h : SameProgress s s') (mac mac' : Tag 16) (t : ChunkTag) :
    SameProgress (s.next mac t) (s'.next mac' t) := by
  constructor
  · rw [counter_next, counter_next, h.renews_eq mac mac', (h.stepped mac mac').counter]
  · rw [finalized_next, finalized_next, h.finalized]

theorem nextLog_eq (h : SameProgress s s') (mac mac' : Tag 16) (t : ChunkTag) (log : Log) :
    s.nextLog mac t log = s'.nextLog mac' t log := by
  rw [nextLog, nextLog, h.renews_eq mac mac']

end SameProgress

/-! ## Pushes and pulls of one shape -/

/-- Why a push is refused of a plaintext of `n` bytes. -/
def refusal (finalized : Bool) (n : Nat) : Failure :=
  if n + overhead < sizeLimit then
    if finalized then .error (.invalidState "secretstream push after final chunk")
    else .error (.invalidLength context messageMax n)
  else .fault .sizeOverflow

theorem runFrom_push_refused (s : SecretStream) {m : Bytes}
    (h : ¬ (s.finalized = false ∧ m.length ≤ messageMax)) (ad : Bytes) (t : ChunkTag) (log : Log) :
    (push m ad t).runFrom s log =
      { result := .error (refusal s.finalized m.length), state := s, log } := by
  by_cases hsize : m.length + overhead < sizeLimit
  · cases hopen : s.finalized with
    | true => simp [push, addSizes, hsize, pushInto, Check.streamState, hopen, refusal]
    | false =>
      have hlong : messageMax < m.length := Nat.lt_of_not_le fun hle => h ⟨hopen, hle⟩
      simp [push, addSizes, hsize, pushInto, Check.streamState, hopen, Check.messageLength,
        Check.maxLength, hlong, refusal]
  · simp [push, addSizes, hsize, refusal]

/-- Pushes of plaintexts of one length with one tag. -/
theorem alike_push {m m' : Bytes} (hlength : m.length = m'.length) (ad ad' : Bytes)
    (t : ChunkTag) :
    Session.Alike SameProgress (fun c c' => c.length = c'.length) (push m ad t)
      (push m' ad' t) := by
  intro s s' log h
  by_cases hopen : s.finalized = false ∧ m.length ≤ messageMax
  · rw [s.runFrom_push hopen.1 hopen.2,
      s'.runFrom_push (h.finalized ▸ hopen.1) (hlength ▸ hopen.2), hlength,
      h.nextLog_eq _ (s'.pushedMac m' ad' t)]
    exact .ok _ (by rw [length_chunk, length_chunk, hlength]) (h.next _ _ t)
  · have hopen' : ¬ (s'.finalized = false ∧ m'.length ≤ messageMax) := by
      rwa [← h.finalized, ← hlength]
    rw [s.runFrom_push_refused hopen, s'.runFrom_push_refused hopen', h.finalized, hlength]
    exact .error _ log h

theorem runFrom_pushInto_refused (s : SecretStream) {m buffer : Bytes}
    (h : ¬ (s.finalized = false ∧ m.length ≤ messageMax ∧ m.length + overhead ≤ buffer.length))
    (ad : Bytes) (t : ChunkTag) (log : Log) :
    ∃ f, (pushInto m ad t).runFrom { state := s, buffer } log =
      { result := .error f, state := { state := s, buffer }, log } := by
  obtain ⟨cause, hrun⟩ | ⟨hroom, -⟩ := s.pushInto_cases m ad buffer t log
  · exact ⟨_, hrun⟩
  · cases hopen : s.finalized with
    | true => simp [pushInto, Check.streamState, hopen]
    | false =>
      have hlong : messageMax < m.length := Nat.lt_of_not_le fun hle => h ⟨hopen, hle, hroom⟩
      simp [pushInto, Check.streamState, hopen, Check.messageLength, Check.maxLength, hlong]

/-- A genuine chunk is refused for lack of room without a report. -/
theorem runFrom_pullInto_chunk_refused (s : SecretStream) {m buffer : Bytes}
    (hopen : s.finalized = false) (hshort : buffer.length < m.length) (ad : Bytes) (t : ChunkTag)
    (log : Log) :
    ∃ f, (pullInto (s.chunk m ad t) ad).runFrom { state := s, buffer } log =
      { result := .error f, state := { state := s, buffer }, log } := by
  simp [pullInto, Check.streamState, hopen, chunk, splitChunk_eq, Check.bufferLength, hshort]

/-! ## Where an end writes -/

/-- A place for a chunk or a plaintext: a new buffer of its size, or one of the caller's. -/
inductive Place where
  | new
  | into (buffer : Bytes)

namespace Place

/-- The bytes that a place has room for, if they are limited. -/
def room : Place → Option Nat
  | new => none
  | into buffer => some buffer.length

/-- Whether `n` bytes can be written to a place. -/
def Fits (place : Place) (n : Nat) : Prop := ∀ room ∈ place.room, n ≤ room

/-- Encrypts a chunk to a place. -/
def push (place : Place) (out : Outgoing) : Session SecretStream Bytes :=
  match place with
  | new => SecretStream.push out.plaintext out.ad out.tag
  | into buffer => Session.ofRun fun s log =>
    let outcome := (pushInto out.plaintext out.ad out.tag).runFrom { state := s, buffer } log
    { result := outcome.result.map fun n => outcome.state.buffer.take n
      state := outcome.state.state
      log := outcome.log }

/-- Checks a chunk and decrypts it to a place. -/
def pull (place : Place) (input : Incoming) : Session SecretStream (Bytes × ChunkTag) :=
  match place with
  | new => SecretStream.pull input.chunk input.ad
  | into buffer => Session.ofRun fun s log =>
    let outcome := (pullInto input.chunk input.ad).runFrom { state := s, buffer } log
    { result := outcome.result.map fun got => (outcome.state.buffer.take got.1, got.2)
      state := outcome.state.state
      log := outcome.log }

variable {place : Place} {s : SecretStream} {out : Outgoing}

theorem runFrom_push (hopen : s.finalized = false) (hm : out.plaintext.length ≤ messageMax)
    (hroom : place.Fits (out.plaintext.length + overhead)) (log : Log) :
    (place.push out).runFrom s log =
      { result := .ok (s.outChunk out)
        state := s.after out
        log := s.nextLog (s.pushedMac out.plaintext out.ad out.tag) out.tag
          (.pushed out.plaintext.length out.tag :: log) } := by
  cases place with
  | new => exact s.runFrom_push hopen hm out.ad out.tag log
  | into buffer =>
    have hlength := s.length_chunk out.plaintext out.ad out.tag
    have hrun := s.runFrom_pushInto hopen hm (hroom _ rfl) out.ad out.tag log
    simp only [push, Session.runFrom_ofRun, hrun, Failure.map_ok, ← hlength, List.take_left]
    rfl

theorem runFrom_push_refused (h : ¬ (s.finalized = false ∧ out.plaintext.length ≤ messageMax ∧
    place.Fits (out.plaintext.length + overhead))) (log : Log) :
    ∃ f, (place.push out).runFrom s log = { result := .error f, state := s, log } := by
  cases place with
  | new =>
    have hclosed : ¬ (s.finalized = false ∧ out.plaintext.length ≤ messageMax) :=
      fun hopen => h ⟨hopen.1, hopen.2, by simp [Fits, room]⟩
    exact ⟨_, s.runFrom_push_refused hclosed out.ad out.tag log⟩
  | into buffer =>
    have hclosed : ¬ (s.finalized = false ∧ out.plaintext.length ≤ messageMax ∧
        out.plaintext.length + overhead ≤ buffer.length) :=
      fun hopen => h ⟨hopen.1, hopen.2.1, by simpa [Fits, room] using hopen.2.2⟩
    obtain ⟨f, hrun⟩ := s.runFrom_pushInto_refused hclosed out.ad out.tag log
    exact ⟨f, by simp only [push, Session.runFrom_ofRun, hrun, Failure.map_error]⟩

theorem runFrom_pull (hopen : s.finalized = false) (hm : out.plaintext.length ≤ messageMax)
    (hroom : place.Fits out.plaintext.length) (log : Log) :
    (place.pull ⟨s.outChunk out, out.ad⟩).runFrom s log =
      { result := .ok (out.plaintext, out.tag)
        state := s.after out
        log := s.nextLog (s.pushedMac out.plaintext out.ad out.tag) out.tag
          (.pulled out.plaintext.length out.tag :: log) } := by
  cases place with
  | new => exact s.runFrom_pull_chunk hopen hm out.ad out.tag log
  | into buffer =>
    have hrun := s.runFrom_pullInto_chunk hopen hm (hroom _ rfl) out.ad out.tag log
    simp only [pull, outChunk, Session.runFrom_ofRun, hrun, Failure.map_ok, List.take_left]
    rfl

theorem runFrom_pull_refused (hopen : s.finalized = false)
    (hroom : ¬ place.Fits out.plaintext.length) (log : Log) :
    ∃ f, (place.pull ⟨s.outChunk out, out.ad⟩).runFrom s log =
      { result := .error f, state := s, log } := by
  cases place with
  | new => exact absurd (by simp [Fits, room]) hroom
  | into buffer =>
    have hshort : buffer.length < out.plaintext.length := by simpa [Fits, room] using hroom
    obtain ⟨f, hrun⟩ := s.runFrom_pullInto_chunk_refused hopen hshort out.ad out.tag log
    exact ⟨f, by simp only [pull, outChunk, Session.runFrom_ofRun, hrun, Failure.map_error]⟩

end Place

/-! ## Conversations -/

/-- What the sender has sent and the receiver has not taken yet. -/
inductive Parcel where
  | chunk (input : Incoming)
  /-- A rekey that both ends agreed on at this point. -/
  | rekey

/-- Two ends of a stream and what is under way between them, the earliest first. -/
structure Conversation where
  sender : SecretStream
  receiver : SecretStream
  underway : List Parcel

namespace Conversation

def start (key : FixedBytes 32) (header : Header) : Conversation :=
  { sender := ofHeader key header, receiver := ofHeader key header, underway := [] }

def onSender {α : Type} (op : Session SecretStream α) : Session Conversation α :=
  op.focus Conversation.sender fun c sender => { c with sender }

def onReceiver {α : Type} (op : Session SecretStream α) : Session Conversation α :=
  op.focus Conversation.receiver fun c receiver => { c with receiver }

end Conversation

/-- What happens next in a conversation. -/
inductive Act where
  | push (place : Place) (out : Outgoing)
  | rekey
  /-- The receiver pulls the chunk that is under way, or rekeys as the sender did. -/
  | receive (place : Place)

/-- What is seen of an act: lengths and tags. -/
inductive Shape where
  | push (room : Option Nat) (length : Nat) (tag : ChunkTag)
  | rekey
  | receive (room : Option Nat)
deriving DecidableEq

namespace Act

def shape : Act → Shape
  | push place out => .push place.room out.plaintext.length out.tag
  | rekey => .rekey
  | receive place => .receive place.room

/-- One act. What is refused is passed over, and a chunk that was refused stays under way. -/
def play : Act → Session Conversation Unit
  | push place out => do
    match ← (Conversation.onSender (place.push out)).attempt with
    | .ok chunk =>
      modify fun c => { c with underway := c.underway ++ [.chunk { chunk, ad := out.ad }] }
    | .error _ => pure ()
  | rekey => do
    Conversation.onSender SecretStream.rekey
    modify fun c => { c with underway := c.underway ++ [.rekey] }
  | receive place => do
    match (← get).underway with
    | [] => pure ()
    | .rekey :: rest => do
      Conversation.onReceiver SecretStream.rekey
      modify ({ · with underway := rest })
    | .chunk input :: rest => do
      match ← (Conversation.onReceiver (place.pull input)).attempt with
      | .ok _ => modify ({ · with underway := rest })
      | .error _ => pure ()

end Act

/-- The parcels that lead a receiver to the state of the sender, and what is seen of them: the
length and the tag of a chunk. -/
inductive Leads : SecretStream → List Parcel → List (Option (Nat × ChunkTag)) → SecretStream → Prop
  | nil (s : SecretStream) : Leads s [] [] s
  | chunk {s s' : SecretStream} {out : Outgoing} {parcels : List Parcel}
    {shapes : List (Option (Nat × ChunkTag))} (hopen : s.finalized = false)
    (hm : out.plaintext.length ≤ messageMax) (h : Leads (s.after out) parcels shapes s') :
    Leads s (.chunk ⟨s.outChunk out, out.ad⟩ :: parcels)
      (some (out.plaintext.length, out.tag) :: shapes) s'
  | rekey {s s' : SecretStream} {parcels : List Parcel} {shapes : List (Option (Nat × ChunkTag))}
    (h : Leads s.renewed parcels shapes s') : Leads s (.rekey :: parcels) (none :: shapes) s'

namespace Leads

variable {s s' : SecretStream} {parcels : List Parcel} {shapes : List (Option (Nat × ChunkTag))}

theorem push (h : Leads s parcels shapes s') {out : Outgoing} (hopen : s'.finalized = false)
    (hm : out.plaintext.length ≤ messageMax) :
    Leads s (parcels ++ [.chunk ⟨s'.outChunk out, out.ad⟩])
      (shapes ++ [some (out.plaintext.length, out.tag)]) (s'.after out) := by
  induction h with
  | nil s => exact .chunk hopen hm (.nil _)
  | chunk hopen₁ hm₁ _ ih => exact .chunk hopen₁ hm₁ (ih hopen)
  | rekey _ ih => exact .rekey (ih hopen)

/-- Where a chunk is seen to be under way, there is one of that length and with that tag. -/
theorem exists_chunk {n : Nat} {t : ChunkTag} (h : Leads s parcels (some (n, t) :: shapes) s') :
    ∃ out rest, parcels = .chunk ⟨s.outChunk out, out.ad⟩ :: rest ∧ s.finalized = false ∧
      out.plaintext.length ≤ messageMax ∧ n = out.plaintext.length ∧ t = out.tag ∧
      Leads (s.after out) rest shapes s' := by
  cases h with
  | chunk hopen hm hrest => exact ⟨_, _, rfl, hopen, hm, rfl, rfl, hrest⟩

theorem renew (h : Leads s parcels shapes s') :
    Leads s (parcels ++ [.rekey]) (shapes ++ [none]) s'.renewed := by
  induction h with
  | nil s => exact .rekey (.nil _)
  | chunk hopen hm _ ih => exact .chunk hopen hm ih
  | rekey _ ih => exact .rekey ih

end Leads

/-- Two conversations that differ in their secrets only. -/
structure Conversation.Alike (c c' : Conversation) : Prop where
  sender : SameProgress c.sender c'.sender
  receiver : SameProgress c.receiver c'.receiver
  underway : ∃ shapes, Leads c.receiver c.underway shapes c.sender ∧
    Leads c'.receiver c'.underway shapes c'.sender

namespace Conversation

variable {c c' : Conversation}

theorem Alike.play_push (h : Alike c c') {place place' : Place} {out out' : Outgoing}
    (hroom : place.room = place'.room) (hlength : out.plaintext.length = out'.plaintext.length)
    (htag : out.tag = out'.tag) (log : Log) :
    ((Act.push place out).play.runFrom c log).Alike Alike Eq
      ((Act.push place' out').play.runFrom c' log) := by
  obtain ⟨shapes, hleads, hleads'⟩ := h.underway
  simp only [Act.play, onSender, Session.runFrom_bind, Session.runFrom_attempt,
    Session.runFrom_focus]
  by_cases hopen : c.sender.finalized = false ∧ out.plaintext.length ≤ messageMax ∧
      place.Fits (out.plaintext.length + overhead)
  · have hopen' : c'.sender.finalized = false ∧ out'.plaintext.length ≤ messageMax ∧
        place'.Fits (out'.plaintext.length + overhead) := by
      rwa [← h.sender.finalized, ← hlength, Place.Fits, ← hroom]
    rw [Place.runFrom_push hopen.1 hopen.2.1 hopen.2.2,
      Place.runFrom_push hopen'.1 hopen'.2.1 hopen'.2.2,
      h.sender.nextLog_eq _ (c'.sender.pushedMac out'.plaintext out'.ad out'.tag), htag, hlength]
    refine .ok _ rfl ⟨?_, h.receiver, _, hleads.push hopen.1 hopen.2.1, ?_⟩
    · rw [after, after, htag]
      exact h.sender.next _ _ _
    · rw [hlength, htag]
      exact hleads'.push hopen'.1 hopen'.2.1
  · have hopen' : ¬ (c'.sender.finalized = false ∧ out'.plaintext.length ≤ messageMax ∧
        place'.Fits (out'.plaintext.length + overhead)) := by
      rwa [← h.sender.finalized, ← hlength, Place.Fits, ← hroom]
    obtain ⟨f, hrun⟩ := Place.runFrom_push_refused hopen log
    obtain ⟨f', hrun'⟩ := Place.runFrom_push_refused hopen' log
    rw [hrun, hrun']
    exact .ok log rfl h

theorem Alike.play_rekey (h : Alike c c') (log : Log) :
    (Act.rekey.play.runFrom c log).Alike Alike Eq (Act.rekey.play.runFrom c' log) := by
  obtain ⟨shapes, hleads, hleads'⟩ := h.underway
  simp only [Act.play, onSender, Session.runFrom_bind, Session.runFrom_focus, runFrom_rekey,
    Session.runFrom_modify]
  exact .ok _ rfl ⟨h.sender.renewed, h.receiver, _, hleads.renew, hleads'.renew⟩

theorem Alike.play_receive (h : Alike c c') {place place' : Place}
    (hroom : place.room = place'.room) (log : Log) :
    ((Act.receive place).play.runFrom c log).Alike Alike Eq
      ((Act.receive place').play.runFrom c' log) := by
  obtain ⟨hsender, hreceiver, shapes, hleads, hleads'⟩ := h
  obtain ⟨s, r, parcels⟩ := c
  obtain ⟨s', r', parcels'⟩ := c'
  simp only [Act.play, onReceiver, Session.runFrom_bind, Session.runFrom_get] at hleads hleads' ⊢
  cases hleads with
  | nil =>
    cases hleads' with
    | nil => exact .ok log rfl ⟨hsender, hreceiver, [], .nil _, .nil _⟩
  | @rekey _ _ parcels shapes hrest =>
    cases hleads' with
    | @rekey _ _ parcels' _ hrest' =>
      simp only [Session.runFrom_bind, Session.runFrom_focus, runFrom_rekey, Session.runFrom_modify]
      exact .ok _ rfl ⟨hsender, hreceiver.renewed, shapes, hrest, hrest'⟩
  | @chunk _ _ out parcels shapes hopen hm hrest =>
    obtain ⟨out', parcels', rfl, hopen', hm', hlength, htag, hrest'⟩ := hleads'.exists_chunk
    simp only [Session.runFrom_bind, Session.runFrom_attempt, Session.runFrom_focus]
    by_cases hfits : place.Fits out.plaintext.length
    · have hfits' : place'.Fits out'.plaintext.length := by
        rwa [← hlength, Place.Fits, ← hroom]
      rw [Place.runFrom_pull hopen hm hfits, Place.runFrom_pull hopen' hm' hfits',
        hreceiver.nextLog_eq _ (r'.pushedMac out'.plaintext out'.ad out'.tag), htag, hlength]
      refine .ok _ rfl ⟨hsender, ?_, shapes, hrest, hrest'⟩
      rw [after, after, htag]
      exact hreceiver.next _ _ _
    · have hfits' : ¬ place'.Fits out'.plaintext.length := by
        rwa [← hlength, Place.Fits, ← hroom]
      obtain ⟨f, hrun⟩ := Place.runFrom_pull_refused hopen hfits log
      obtain ⟨f', hrun'⟩ := Place.runFrom_pull_refused hopen' hfits' log
      rw [hrun, hrun']
      exact .ok log rfl ⟨hsender, hreceiver, _, .chunk hopen hm hrest, hleads'⟩

/-- The step lemma: acts of one shape. -/
theorem alike_play {act act' : Act} (h : act.shape = act'.shape) :
    Session.Alike Alike Eq act.play act'.play := by
  intro c c' log hc
  cases act with
  | push place out =>
    cases act' with
    | push place' out' =>
      injection h with hroom hlength htag
      exact hc.play_push hroom hlength htag log
    | rekey => cases h
    | receive place' => cases h
  | rekey =>
    cases act' with
    | push place' out' => cases h
    | rekey => exact hc.play_rekey log
    | receive place' => cases h
  | receive place =>
    cases act' with
    | push place' out' => cases h
    | rekey => cases h
    | receive place' =>
      injection h with hroom
      exact hc.play_receive hroom log

/-- The run lemma: sequences of acts of one shape each. -/
theorem alike_forM_play {acts acts' : List Act}
    (h : acts.map Act.shape = acts'.map Act.shape) :
    Session.Alike Alike Eq (forM acts Act.play) (forM acts' Act.play) := by
  induction acts generalizing acts' with
  | nil =>
    obtain rfl : acts' = [] := List.map_eq_nil_iff.mp h.symm
    exact Session.alike_pure rfl
  | cons act acts ih =>
    cases acts' with
    | nil => cases h
    | cons act' acts' =>
      rw [List.map_cons, List.map_cons] at h
      injection h with hact hacts
      exact (alike_play hact).next (ih hacts)

theorem alike_start (key key' : FixedBytes 32) (header header' : Header) :
    Alike (start key header) (start key' header') :=
  ⟨sameProgress_ofHeader key key' header header', sameProgress_ofHeader key key' header header', [],
    .nil (ofHeader key header), .nil (ofHeader key' header')⟩

end Conversation

end SecretStream

end AuthEncryption
