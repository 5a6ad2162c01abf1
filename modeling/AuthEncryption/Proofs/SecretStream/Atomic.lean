import AuthEncryption.Proofs.SecretStream.Chunks

/-!
# All or nothing

A push or a pull into a caller's buffer either reports a cause, and then the state of the
stream and all of the buffer are as before, or it succeeds and writes its bytes to the front
of the buffer and nothing behind them. For a push the causes are a stream that has ended, a
plaintext that is too long and a buffer that is too short; for a pull they are a stream
that has ended, a chunk or a buffer that is too short, a wrong authenticator's tag and an
unknown tag byte. The state need not be one that a stream can reach.
-/
namespace AuthEncryption

/-- An operation on a state and a buffer reported a cause and changed nothing, or it wrote
the first `written` bytes of the buffer at most. -/
def WithBuffer.AllOrNothing {σ α : Type} (before : WithBuffer σ) (written : α → Nat)
    (outcome : Outcome (WithBuffer σ) α) : Prop :=
  match outcome.result with
  | .error f => (∃ cause, f = .error cause) ∧ outcome.state = before
  | .ok a =>
    written a ≤ before.buffer.length ∧ outcome.state.buffer.length = before.buffer.length ∧
      outcome.state.buffer.drop (written a) = before.buffer.drop (written a)

namespace WithBuffer

variable {σ α : Type} {before : WithBuffer σ} {written : α → Nat}

theorem allOrNothing_of_error (cause : Error) (log : Log) :
    AllOrNothing before written { result := .error (.error cause), state := before, log } :=
  ⟨⟨cause, rfl⟩, rfl⟩

/-- Writing a string to the front of the buffer leaves what is behind it. -/
theorem allOrNothing_of_front {front : Bytes} (hroom : front.length ≤ before.buffer.length) {a : α}
    (ha : written a = front.length) {state : σ} {log : Log} :
    AllOrNothing before written
      { result := .ok a
        state := { state, buffer := front ++ before.buffer.drop front.length }
        log } := by
  have hwhole : (front ++ before.buffer.drop front.length).length = before.buffer.length := by
    rw [List.length_append, List.length_drop]
    omega
  show written a ≤ _ ∧ _ ∧ _
  rw [ha]
  exact ⟨hroom, hwhole, List.drop_left⟩

end WithBuffer

namespace SecretStream

variable (s : SecretStream)

/-- A push reports a cause and changes nothing, or it writes its chunk and moves on. -/
theorem pushInto_cases (m ad buffer : Bytes) (t : ChunkTag) (log : Log) :
    (∃ cause, (pushInto m ad t).runFrom { state := s, buffer } log =
      { result := .error (.error cause), state := { state := s, buffer }, log }) ∨
    (m.length + overhead ≤ buffer.length ∧
      (pushInto m ad t).runFrom { state := s, buffer } log =
        { result := .ok (m.length + overhead)
          state :=
            { state := s.next (s.pushedMac m ad t) t
              buffer := s.chunk m ad t ++ buffer.drop (m.length + overhead) }
          log := s.nextLog (s.pushedMac m ad t) t (.pushed m.length t :: log) }) := by
  cases hopen : s.finalized with
  | true => simp [pushInto, Check.streamState, hopen]
  | false =>
    by_cases hm : m.length ≤ messageMax
    · by_cases hroom : m.length + overhead ≤ buffer.length
      · exact Or.inr ⟨hroom, s.runFrom_pushInto hopen hm hroom ad t log⟩
      · left
        have hlimit : ¬ messageMax < m.length := Nat.not_lt_of_le hm
        have hshort : buffer.length < m.length + overhead := Nat.lt_of_not_le hroom
        simp [pushInto, Check.streamState, hopen, Check.messageLength, Check.maxLength, hlimit,
          addSizes_overhead hm, Check.bufferLength, hshort]
    · left
      have hlong : messageMax < m.length := Nat.lt_of_not_le hm
      simp [pushInto, Check.streamState, hopen, Check.messageLength, Check.maxLength, hlong]

/-- The chunk of a plaintext is pulled into any buffer with room for the plaintext. -/
theorem runFrom_pullInto_chunk {m buffer : Bytes} (hopen : s.finalized = false)
    (hm : m.length ≤ messageMax) (hroom : m.length ≤ buffer.length) (ad : Bytes) (t : ChunkTag)
    (log : Log) :
    (pullInto (s.chunk m ad t) ad).runFrom { state := s, buffer } log =
      { result := .ok (m.length, t)
        state :=
          { state := s.next (s.pushedMac m ad t) t
            buffer := m ++ buffer.drop m.length }
        log := s.nextLog (s.pushedMac m ad t) t (.pulled m.length t :: log) } := by
  have hlen := s.length_maskBody m
  have hbody : (s.maskBody m).length ≤ messageMax := by rwa [hlen]
  have hfits : (s.maskBody m).length ≤ buffer.length := by rwa [hlen]
  have hmac : s.opened.tag ad (s.opened.restoreBlock (s.opened.maskByte t.toByte))
      (s.maskBody m) = s.pushedMac m ad t := by
    rw [Opening.restoreBlock_maskByte, pushedMac]
  have hmask := s.runOn_maskInto (Nat.le_of_eq (List.length_take_of_le hfits).symm) hbody
  rw [List.drop_take, Nat.sub_self, List.take_zero, List.append_nil, maskBody_maskBody] at hmask
  rw [chunk, s.runFrom_pullInto hopen hfits, if_pos hmac, Opening.maskByte_maskByte,
    ChunkTag.ofByte?_toByte]
  rw [hlen] at hmask
  simp only [hlen, hmask]

/-- A string with the parts of a chunk is refused, or it is the chunk of what its body masks. -/
theorem pullInto_parts_cases {body buffer : Bytes} (hopen : s.finalized = false)
    (hroom : body.length ≤ buffer.length) (sent : UInt8) (mac : Tag 16) (ad : Bytes) (log : Log) :
    (∃ cause log', (pullInto (sent :: (body ++ mac.toList)) ad).runFrom { state := s, buffer } log =
      { result := .error (.error cause), state := { state := s, buffer }, log := log' }) ∨
    ∃ t, sent :: (body ++ mac.toList) = s.chunk (s.maskBody body) ad t := by
  by_cases hmac : s.opened.tag ad (s.opened.restoreBlock sent) body = mac
  · cases htag : ChunkTag.ofByte? (s.opened.maskByte sent) with
    | none =>
      left
      rw [s.runFrom_pullInto hopen hroom, if_pos hmac, htag]
      exact ⟨_, _, rfl⟩
    | some t =>
      right
      have hsent : sent = s.opened.maskByte t.toByte := by
        rw [← toByte_of_ofByte? htag, Opening.maskByte_maskByte]
      refine ⟨t, ?_⟩
      rw [chunk, pushedMac, maskBody_maskBody, ← hmac, hsent, Opening.restoreBlock_maskByte]
  · left
    rw [s.runFrom_pullInto hopen hroom, if_neg hmac]
    exact ⟨_, _, rfl⟩

/-- A pull reports a cause and changes nothing, or it is given the chunk of a plaintext,
writes the plaintext and moves on. -/
theorem pullInto_cases {c : Bytes} (hc : c.length ≤ messageMax + overhead) (ad buffer : Bytes)
    (log : Log) :
    (∃ cause log', (pullInto c ad).runFrom { state := s, buffer } log =
      { result := .error (.error cause), state := { state := s, buffer }, log := log' }) ∨
    (∃ m t, c = s.chunk m ad t ∧ m.length ≤ buffer.length ∧
      (pullInto c ad).runFrom { state := s, buffer } log =
        { result := .ok (m.length, t)
          state :=
            { state := s.next (s.pushedMac m ad t) t
              buffer := m ++ buffer.drop m.length }
          log := s.nextLog (s.pushedMac m ad t) t (.pulled m.length t :: log) }) := by
  cases hopen : s.finalized with
  | true => simp [pullInto, Check.streamState, hopen]
  | false =>
    by_cases hlong : overhead ≤ c.length
    · obtain ⟨sent, body, mac, rfl⟩ := exists_parts hlong
      by_cases hroom : body.length ≤ buffer.length
      · obtain hrefused | ⟨t, hchunk⟩ := s.pullInto_parts_cases hopen hroom sent mac ad log
        · exact Or.inl hrefused
        · right
          have hfits : (s.maskBody body).length ≤ buffer.length := by rwa [length_maskBody]
          have hbody : (s.maskBody body).length ≤ messageMax := by
            rw [hchunk, length_chunk] at hc
            omega
          rw [hchunk]
          exact ⟨_, t, rfl, hfits, s.runFrom_pullInto_chunk hopen hbody hfits ad t log⟩
      · left
        have hshort : buffer.length < body.length := Nat.lt_of_not_le hroom
        simp [pullInto, Check.streamState, hopen, splitChunk_eq, Check.bufferLength, hshort]
    · left
      have hshort : c.length < overhead := Nat.lt_of_not_le hlong
      simp [pullInto, Check.streamState, hopen, splitChunk, Check.ciphertextLength, hshort]

/-- Pushing and pulling are atomic: what fails leaves the state and the buffer alone, and
what succeeds leaves the buffer alone behind the bytes that it returns. -/
theorem into_buffer_all_or_nothing (dst : Bytes) (log : Log) :
    (∀ (plaintext ad : Bytes) (t : ChunkTag),
      WithBuffer.AllOrNothing { state := s, buffer := dst } id
        ((pushInto plaintext ad t).runFrom { state := s, buffer := dst } log)) ∧
    (∀ chunk ad : Bytes, chunk.length ≤ messageMax + overhead →
      WithBuffer.AllOrNothing { state := s, buffer := dst } Prod.fst
        ((pullInto chunk ad).runFrom { state := s, buffer := dst } log)) := by
  constructor
  · intro plaintext ad t
    obtain ⟨cause, hrun⟩ | ⟨hroom, hrun⟩ := s.pushInto_cases plaintext ad dst t log
    · rw [hrun]
      exact WithBuffer.allOrNothing_of_error cause log
    · have hlen := s.length_chunk plaintext ad t
      rw [← hlen] at hroom
      rw [hrun, ← hlen]
      apply WithBuffer.allOrNothing_of_front hroom
      rfl
  · intro chunk ad hchunk
    obtain ⟨cause, log', hrun⟩ | ⟨m, t, -, hroom, hrun⟩ := s.pullInto_cases hchunk ad dst log
    · rw [hrun]
      exact WithBuffer.allOrNothing_of_error cause log'
    · rw [hrun]
      apply WithBuffer.allOrNothing_of_front hroom
      rfl

/-- A chunk of one byte is pulled into a buffer of three: it succeeds, and the last two bytes
stay. -/
theorem into_longer_buffer_all_or_nothing :
    ∃ c, c.length ≤ messageMax + overhead ∧
      ((pullInto c []).runFrom
        { state := ofHeader (.zero 32) (.zero 24), buffer := [9, 8, 7] } []).result =
          .ok (1, .push) ∧
      ((pullInto c []).runFrom
        { state := ofHeader (.zero 32) (.zero 24), buffer := [9, 8, 7] } []).state.buffer.drop 1 =
          [8, 7] := by
  obtain ⟨s, hs⟩ : ∃ s, s = ofHeader (.zero 32) (.zero 24) := ⟨_, rfl⟩
  have hopen : s.finalized = false := hs ▸ rfl
  have hlen : (s.chunk [7] [] .push).length ≤ messageMax + overhead := by
    rw [length_chunk]
    decide
  have hok : ((pullInto (s.chunk [7] [] .push) []).runFrom { state := s, buffer := [9, 8, 7] }
      []).result = .ok (1, .push) := by
    rw [s.runFrom_pullInto_chunk hopen (m := [7]) (by decide) (by decide)]
    rfl
  have hatomic := (into_buffer_all_or_nothing s [9, 8, 7] []).2 _ [] hlen
  rw [WithBuffer.AllOrNothing, hok] at hatomic
  rw [← hs]
  exact ⟨_, hlen, hok, hatomic.2.2⟩

end SecretStream

end AuthEncryption
