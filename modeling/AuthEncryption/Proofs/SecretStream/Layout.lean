import AuthEncryption.Proofs.SecretStream.Epochs
import AuthEncryption.Proofs.SecretStream.Reports

/-!
# The layout of a stream

The layout computes a stream without a cipher that is drawn from piece by piece. A key, a number
and an inner nonce give the keystream of the next chunk; the first 32 bytes of it are the
authenticator's key, the second block masks the tag, and the plaintext is masked from the third
block on. The authenticator's tag of the chunk and the keystream of the state behind it give the
next key, number and inner nonce. A push makes the chunk of the layout and a state in which the
layout goes on, and this step, by induction over the calls of a sender, makes every chunk of a
run one that the layout gives from the key and the header.
-/
namespace AuthEncryption

/-- What the chunks of a stream are computed from. -/
@[ext] structure Ratchet where
  key : FixedBytes 32
  /-- The number of the next chunk since the last rekey. -/
  counter : Nat
  innerNonce : FixedBytes 8
  /-- Whether the final chunk has been made. -/
  ended : Bool

namespace Ratchet

/-- The start of a stream: a subkey from the first part of the header, and the rest of it. -/
def start (key : FixedBytes 32) (header : Header) : Ratchet :=
  { key := Family.chacha.subkey key (header.front 16)
    counter := 1
    innerNonce := header.back 8
    ended := false }

variable (r : Ratchet)

def nonce : Nonce 12 := ⟨Bytes.ofNatLE 4 r.counter ++ r.innerNonce.toList, by simp⟩

/-- The `n` bytes from byte `offset` on of the keystream from block zero. -/
def keystream (offset n : Nat) : FixedBytes n :=
  (Cipher.ietf r.key r.nonce).stretchFixed 0 offset n

/-- The second block of the keystream, with the tag's byte in front. -/
def tagBlock (t : ChunkTag) : Bytes := (r.keystream 64 64).toList.modifyHead (· ^^^ t.toByte)

def body (m : Bytes) : Bytes := Bytes.xor m (r.keystream 128 m.length).toList

/-- The string that is authenticated: the associated data and, filled up together, the block of
the tag and the body, and then the two lengths. -/
def macInput (m ad : Bytes) (t : ChunkTag) : Bytes :=
  ad ++ Bytes.zeros (Bytes.pad16 ad.length) ++
    r.tagBlock t ++ r.body m ++ Bytes.zeros (Bytes.pad16 (64 + m.length)) ++
    Bytes.ofNatLE 8 ad.length ++ Bytes.ofNatLE 8 (64 + m.length)

def mac (m ad : Bytes) (t : ChunkTag) : Tag 16 :=
  Poly1305.authenticate (r.keystream 0 32) (r.macInput m ad t)

def chunk (m ad : Bytes) (t : ChunkTag) : Bytes :=
  (r.tagBlock t).take 1 ++ r.body m ++ (r.mac m ad t).toList

/-- The authenticator's tag goes into the inner nonce, and the counter steps. -/
def stepped (mac : Tag 16) : Ratchet :=
  { r with
    counter := (r.counter + 1) % 2 ^ 32
    innerNonce := r.innerNonce.xor (mac.front 8) }

/-- Forty bytes of keystream go into the key and the inner nonce, and the counter starts again. -/
def renewed : Ratchet :=
  { r with
    key := r.key.xor (r.keystream 0 32)
    counter := 1
    innerNonce := r.innerNonce.xor (r.keystream 32 8) }

/-- The ratchet behind a chunk. -/
def next (m ad : Bytes) (t : ChunkTag) : Ratchet :=
  let moved := r.stepped (r.mac m ad t)
  let behind := if t = .rekey ∨ t = .final ∨ moved.counter = 0 then moved.renewed else moved
  { behind with ended := r.ended || decide (t = .final) }

end Ratchet

namespace SecretStream

variable (s : SecretStream)

/-- What the layout needs of a state. -/
def ratchet : Ratchet :=
  { key := s.key, counter := s.count, innerNonce := s.innerNonce, ended := s.finalized }

theorem ratchet_ofHeader (key : FixedBytes 32) (header : Header) :
    (ofHeader key header).ratchet = .start key header := rfl

/-! ## One chunk -/

theorem nonce_ratchet : s.ratchet.nonce = s.nonce := by
  apply FixedBytes.ext
  have hcounter := Bytes.ofNatLE_toNatLE s.counter.toList
  rw [FixedBytes.length_toList] at hcounter
  show Bytes.ofNatLE 4 s.count ++ s.innerNonce.toList = s.counter.toList ++ s.innerNonce.toList
  rw [count, hcounter]

theorem keystream_ratchet (offset n : Nat) :
    s.ratchet.keystream offset n = s.cipher.stretchFixed 0 offset n := by
  rw [Ratchet.keystream, nonce_ratchet]
  rfl

theorem tagBlock_ratchet (t : ChunkTag) :
    s.ratchet.tagBlock t = (s.opened.maskBlock t.toByte).toList := by
  rw [Ratchet.tagBlock, keystream_ratchet, Opening.toList_maskBlock]
  show List.modifyHead _ s.opened.tagMask.toList = _
  rw [s.opened.tagMask.toList_eq_cons, List.modifyHead_cons, UInt8.xor_comm]
  rfl

theorem body_ratchet (m : Bytes) : s.ratchet.body m = s.maskBody m := by
  rw [Ratchet.body, keystream_ratchet]
  rfl

theorem macInput_ratchet (m ad : Bytes) (t : ChunkTag) :
    s.ratchet.macInput m ad t = s.pushedString ⟨m, ad, t⟩ := by
  simp [Ratchet.macInput, pushedString, Opening.macParts, tagBlock_ratchet, body_ratchet, Bytes.le64]

theorem mac_ratchet (m ad : Bytes) (t : ChunkTag) : s.ratchet.mac m ad t = s.pushedMac m ad t := by
  rw [Ratchet.mac, keystream_ratchet, macInput_ratchet, pushedMac, tag_opened]
  rfl

/-- The chunk of a plaintext is that of the layout. -/
theorem chunk_ratchet (m ad : Bytes) (t : ChunkTag) : s.ratchet.chunk m ad t = s.chunk m ad t := by
  rw [Ratchet.chunk, tagBlock_ratchet, body_ratchet, mac_ratchet, Opening.toList_maskBlock, chunk,
    Opening.maskByte_eq]
  rfl

/-! ## The next state -/

theorem ratchet_stepped (mac : Tag 16) : (s.stepped mac).ratchet = s.ratchet.stepped mac := by
  apply Ratchet.ext
  · rfl
  · exact s.count_stepped mac
  · rfl
  · rfl

theorem ratchet_renewed : s.renewed.ratchet = s.ratchet.renewed := by
  have hkey : (s.cipher.stretchFixed 0 0 40).front 32 = s.ratchet.keystream 0 32 := by
    rw [keystream_ratchet]
    exact s.cipher.front_stretchFixed 0 0 (by decide)
  have hnonce : (s.cipher.stretchFixed 0 0 40).back 8 = s.ratchet.keystream 32 8 := by
    rw [keystream_ratchet]
    exact s.cipher.back_stretchFixed 0 0 (by decide)
  apply Ratchet.ext
  · exact congrArg s.key.xor hkey
  · rfl
  · exact congrArg s.innerNonce.xor hnonce
  · rfl

/-- Behind a chunk the layout goes on. -/
theorem ratchet_next (m ad : Bytes) (t : ChunkTag) :
    (s.next (s.pushedMac m ad t) t).ratchet = s.ratchet.next m ad t := by
  obtain ⟨mac, hmac⟩ : ∃ mac, mac = s.pushedMac m ad t := ⟨_, rfl⟩
  have hrenews : s.renews mac t = true ↔
      t = .rekey ∨ t = .final ∨ (s.stepped mac).ratchet.counter = 0 := by
    rw [renews_iff, ChunkTag.shouldRekey_iff, Bytes.isZero_iff, or_assoc]
    rfl
  have hended : (s.next mac t).ratchet.ended = (s.ratchet.ended || decide (t = .final)) :=
    (s.finalized_next mac t).trans (by cases t <;> rfl)
  rw [Ratchet.next, mac_ratchet, ← hmac, ← ratchet_stepped, ← ratchet_renewed, ← hended]
  by_cases h : s.renews mac t = true
  · rw [if_pos (hrenews.mp h)]
    cases hfinal : t.isFinal <;> simp [next, h, hfinal, ratchet, count]
  · rw [if_neg (mt hrenews.mpr h)]
    cases hfinal : t.isFinal <;> simp [next, h, hfinal, ratchet, count]

end SecretStream

/-! ## Runs -/

namespace Ratchet

variable (r : Ratchet)

/-- A chunk and the ratchet behind it. -/
def send (out : SecretStream.Outgoing) : Option Bytes × Ratchet :=
  (some (r.chunk out.plaintext out.ad out.tag), r.next out.plaintext out.ad out.tag)

/-- What is made by a call of a sender, and the ratchet behind it. A plaintext is refused that is
too long, that comes after the end or for whose chunk the buffer is too short. -/
def follow : SecretStream.SendCall → Option Bytes × Ratchet
  | .push out =>
    if r.ended = false ∧ out.plaintext.length ≤ SecretStream.messageMax then r.send out
    else (none, r)
  | .pushInto buffer out =>
    if r.ended = false ∧ out.plaintext.length ≤ SecretStream.messageMax ∧
        out.plaintext.length + SecretStream.overhead ≤ buffer.length then r.send out
    else (none, r)
  | .rekey => (none, r.renewed)

/-- What is made by one call after the other. -/
def followAll (r : Ratchet) : List SecretStream.SendCall → List (Option Bytes) × Ratchet
  | [] => ([], r)
  | call :: calls =>
    let (made, r) := r.follow call
    let (rest, r) := r.followAll calls
    (made :: rest, r)

end Ratchet

namespace SecretStream

/-- Performs one call after the other, whatever each of them gives, and gives the chunks that
they make. -/
def sendAll : List SendCall → Session SecretStream (List (Option Bytes))
  | [] => return []
  | call :: calls => do
    let made ← call.perform.attempt
    return made.toOption.join :: (← sendAll calls)

variable (s : SecretStream)

/-- What a call makes, and what the layout needs of the state behind it. -/
def observed (outcome : Outcome SecretStream (Option Bytes)) : Option Bytes × Ratchet :=
  (outcome.result.toOption.join, outcome.state.ratchet)

/-- A chunk and the state behind it are what the layout sends. -/
theorem observed_of_chunk (out : Outgoing) (log : Log) :
    observed { result := .ok (some (s.outChunk out)), state := s.after out, log } =
      s.ratchet.send out := by
  rw [Ratchet.send, chunk_ratchet, ← ratchet_next]
  rfl

/-- The step lemma: a call makes what the layout says, and the layout goes on behind it. -/
theorem observed_perform (call : SendCall) (log : Log) :
    observed (call.perform.runFrom s log) = s.ratchet.follow call := by
  cases call with
  | push out =>
    by_cases h : s.ratchet.ended = false ∧ out.plaintext.length ≤ messageMax
    · have hrun := s.runFrom_push h.1 h.2 out.ad out.tag log
      simp only [SendCall.perform, Session.runFrom_bind, hrun, Session.runFrom_pure,
        Ratchet.follow]
      rw [if_pos h]
      exact s.observed_of_chunk out _
    · have hrun := s.runFrom_push_refused h out.ad out.tag log
      simp only [SendCall.perform, Session.runFrom_bind, hrun, Ratchet.follow]
      rw [if_neg h]
      rfl
  | pushInto buffer out =>
    by_cases h : s.ratchet.ended = false ∧ out.plaintext.length ≤ messageMax ∧
        out.plaintext.length + overhead ≤ buffer.length
    · have hrun := s.runFrom_pushInto h.1 h.2.1 h.2.2 out.ad out.tag log
      rw [s.runFrom_perform_pushInto hrun, Ratchet.follow, if_pos h]
      exact s.observed_of_chunk out _
    · obtain ⟨f, hrun⟩ := s.runFrom_pushInto_refused h out.ad out.tag log
      simp only [SendCall.perform, Session.runFrom_bind, WithBuffer.runFrom_lend, hrun,
        Session.runFrom_liftFailure, Ratchet.follow]
      rw [if_neg h]
      rfl
  | rekey =>
    simp only [SendCall.perform, Session.runFrom_bind, runFrom_rekey, Session.runFrom_pure,
      Ratchet.follow, ← ratchet_renewed]
    rfl

/-- The run lemma. -/
theorem runFrom_sendAll (calls : List SendCall) (log : Log) :
    ∃ s' log', (sendAll calls).runFrom s log =
        { result := .ok (s.ratchet.followAll calls).1, state := s', log := log' } ∧
      s'.ratchet = (s.ratchet.followAll calls).2 := by
  induction calls generalizing s log with
  | nil => exact ⟨s, log, rfl, rfl⟩
  | cons call calls ih =>
    obtain ⟨s', log', hrest, hend⟩ := ih (call.perform.runFrom s log).state
      (call.perform.runFrom s log).log
    have hstep := s.observed_perform call log
    refine ⟨s', log', ?_, ?_⟩
    · simp only [sendAll, Session.runFrom_bind, Session.runFrom_attempt, hrest,
        Session.runFrom_pure, Ratchet.followAll, ← hstep, observed]
    · simp only [hend, Ratchet.followAll, ← hstep, observed]

/-- The layout of a stream. From every state that has not ended, a plaintext within the limit is
pushed to the chunk that the layout computes from the key, the counter and the inner nonce, and
the layout goes on behind it. Whatever a sender does from the start of a stream, and whatever its
calls give, the chunks that are made are those that the layout gives from the subkey of the key
and the first part of the header, the number one and the rest of the header. -/
theorem push_makes_laid_out_chunk :
    (∀ (s : SecretStream) (m ad : Bytes) (t : ChunkTag) (log : Log), s.finalized = false →
      m.length ≤ messageMax →
        ((push m ad t).runFrom s log).result = .ok (s.ratchet.chunk m ad t) ∧
          ((push m ad t).runFrom s log).state.ratchet = s.ratchet.next m ad t) ∧
    (∀ (key : FixedBytes 32) (header : Header) (calls : List SendCall),
      let begun := (initPush key header).run []
      let sent := (sendAll calls).runFrom begun.1 begun.2
      let laidOut := (Ratchet.start key header).followAll calls
      sent.result = .ok laidOut.1 ∧ sent.state.ratchet = laidOut.2) := by
  constructor
  · intro s m ad t log hopen hm
    rw [s.runFrom_push hopen hm]
    exact ⟨congrArg Except.ok (s.chunk_ratchet m ad t).symm, s.ratchet_next m ad t⟩
  · intro key header calls
    obtain ⟨s', log', hrun, hend⟩ :=
      (ofHeader key header).runFrom_sendAll calls [.initialized .push]
    rw [ratchet_ofHeader] at hrun hend
    simp only [run_initPush, hrun]
    exact ⟨trivial, hend⟩

/-- One byte is pushed at the start of a stream. -/
theorem push_makes_laid_out_chunk_of_one_byte :
    (ofHeader (.zero 32) (.zero 24)).finalized = false ∧ [(7 : UInt8)].length ≤ messageMax ∧
      ((push [7] [] .final).runFrom (ofHeader (.zero 32) (.zero 24)) []).result =
        .ok ((Ratchet.start (.zero 32) (.zero 24)).chunk [7] [] .final) := by
  have hopen : (ofHeader (.zero 32) (.zero 24)).finalized = false := rfl
  have hfits : [(7 : UInt8)].length ≤ messageMax := by decide
  exact ⟨hopen, hfits, (push_makes_laid_out_chunk.1 _ [7] [] .final [] hopen hfits).1⟩

end SecretStream

end AuthEncryption
