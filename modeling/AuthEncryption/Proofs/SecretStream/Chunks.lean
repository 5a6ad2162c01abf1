import AuthEncryption.Proofs.Effects
import AuthEncryption.Proofs.SecretStream.Steps

/-!
# What pushing and pulling do

A push of a plaintext within the limit writes its chunk to the front of the buffer and
moves the state on. A pull of a string that is long enough compares its last bytes with
the authenticator's tag of the rest, looks the tag up, and only then writes the plaintext
and moves on. Whatever is not accepted leaves the state as it was.
-/
namespace AuthEncryption.SecretStream

variable (s : SecretStream)

/-! ## Pushing -/

/-- The authenticator's tag in the chunk of a plaintext. -/
def pushedMac (m ad : Bytes) (t : ChunkTag) : Tag 16 :=
  s.opened.tag ad (s.opened.maskBlock t.toByte) (s.maskBody m)

/-- The chunk of a plaintext. -/
def chunk (m ad : Bytes) (t : ChunkTag) : Bytes :=
  s.opened.maskByte t.toByte :: (s.maskBody m ++ (s.pushedMac m ad t).toList)

@[simp] theorem length_chunk (m ad : Bytes) (t : ChunkTag) :
    (s.chunk m ad t).length = m.length + overhead := by
  simp [chunk, overhead]

/-- A buffer with room for a chunk has a place for its tag byte, its body and its
authenticator's tag. -/
theorem exists_places {buffer : Bytes} {n : Nat} (h : n + overhead ≤ buffer.length) :
    ∃ x y z w : Bytes, buffer = x ++ (y ++ (z ++ w)) ∧ x.length = 1 ∧ y.length = n ∧
      z.length = 16 ∧ w = buffer.drop (n + overhead) := by
  refine ⟨buffer.take 1, (buffer.drop 1).take n, ((buffer.drop 1).drop n).take 16,
    ((buffer.drop 1).drop n).drop 16, ?_, ?_, ?_, ?_, ?_⟩
  · simp only [List.take_append_drop]
  all_goals simp only [overhead] at h
  · rw [List.length_take]
    omega
  · rw [List.length_take, List.length_drop]
    omega
  · rw [List.length_take, List.length_drop, List.length_drop]
    omega
  · rw [List.drop_drop, List.drop_drop, overhead]
    congr 1
    omega

theorem runOn_writeChunk {m buffer : Bytes} (h : m.length ≤ messageMax)
    (hroom : m.length + overhead ≤ buffer.length) (ad : Bytes) (t : ChunkTag) :
    (writeChunk s.opened (m.length + overhead) m ad t).runOn buffer =
      (.ok (s.pushedMac m ad t), s.chunk m ad t ++ buffer.drop (m.length + overhead)) := by
  obtain ⟨x, y, z, w, hbuffer, hx, hy, hz, hw⟩ := exists_places hroom
  obtain ⟨b, hb⟩ : ∃ b, b = s.opened.maskByte t.toByte := ⟨_, rfl⟩
  obtain ⟨a, rfl⟩ := List.length_eq_one_iff.mp hx
  have htotal : m.length + overhead = ([a] ++ (y ++ z)).length := by
    simp only [List.length_append, List.length_singleton, hy, hz, overhead]
    omega
  have hsent : (OnBuffer.onFront 1 (OnBuffer.put 0 b)).runOn ([a] ++ (y ++ z)) =
      (.ok (), [b] ++ (y ++ z)) := by
    rw [OnBuffer.runOn_onFront _ hx.symm, OnBuffer.runOn_put_zero]
  have hbody : (OnBuffer.onFront m.length do
      let _ ← s.opened.payload.maskInto m
      get).runOn (y ++ z) = (.ok (s.maskBody m), s.maskBody m ++ z) := by
    have hmask := s.runOn_maskInto (Nat.le_of_eq hy.symm) h
    rw [List.drop_of_length_le (Nat.le_of_eq hy), List.append_nil] at hmask
    simp only [OnBuffer.runOn_onFront _ hy.symm, OnBuffer.runOn_bind, hmask, OnBuffer.runOn_get]
  have hmac : (OnBuffer.onBack m.length (OnBuffer.copy (s.pushedMac m ad t).toList)).runOn
      (s.maskBody m ++ z) = (.ok (), s.maskBody m ++ (s.pushedMac m ad t).toList) := by
    have hlen : (s.pushedMac m ad t).toList.length = z.length := by
      rw [FixedBytes.length_toList, hz]
    rw [OnBuffer.runOn_onBack _ (s.length_maskBody m).symm, OnBuffer.runOn_copy hlen]
  have htag : s.opened.tag ad (s.opened.maskBlock t.toByte) (s.maskBody m) = s.pushedMac m ad t :=
    rfl
  have hplaces : buffer = ([a] ++ (y ++ z)) ++ w := by
    rw [hbuffer, List.append_assoc, List.append_assoc]
  rw [← hw, hplaces, writeChunk, OnBuffer.runOn_onFront _ htotal]
  simp only [OnBuffer.runOn_bind, ← hb, hsent,
    OnBuffer.runOn_onBack _ (show 1 = [b].length from rfl), hbody, htag, hmac, OnBuffer.runOn_pure]
  simp [chunk, ← hb]

/-- A plaintext within the limit leaves room for the rest of its chunk in a size. -/
theorem addSizes_overhead {n : Nat} (h : n ≤ messageMax) :
    addSizes n overhead = .ok (n + overhead) := by
  have hlimit : messageMax + overhead < sizeLimit := by decide
  exact if_pos (Nat.lt_of_le_of_lt (Nat.add_le_add_right h overhead) hlimit)

theorem runFrom_pushInto {m buffer : Bytes} (hopen : s.finalized = false)
    (h : m.length ≤ messageMax) (hroom : m.length + overhead ≤ buffer.length) (ad : Bytes)
    (t : ChunkTag) (log : Log) :
    (pushInto m ad t).runFrom { state := s, buffer } log =
      { result := .ok (m.length + overhead)
        state :=
          { state := s.next (s.pushedMac m ad t) t
            buffer := s.chunk m ad t ++ buffer.drop (m.length + overhead) }
        log := s.nextLog (s.pushedMac m ad t) t (.pushed m.length t :: log) } := by
  have hlimit : ¬ messageMax < m.length := Nat.not_lt_of_le h
  have hfits : ¬ buffer.length < m.length + overhead := Nat.not_lt_of_le hroom
  simp [pushInto, Check.streamState, hopen, Check.messageLength, Check.maxLength, hlimit,
    addSizes_overhead h, Check.bufferLength, hfits, opening_eq, s.runOn_writeChunk h hroom,
    runFrom_advance]

theorem runFrom_push {m : Bytes} (hopen : s.finalized = false) (h : m.length ≤ messageMax)
    (ad : Bytes) (t : ChunkTag) (log : Log) :
    (push m ad t).runFrom s log =
      { result := .ok (s.chunk m ad t)
        state := s.next (s.pushedMac m ad t) t
        log := s.nextLog (s.pushedMac m ad t) t (.pushed m.length t :: log) } := by
  have hroom : m.length + overhead ≤ (Bytes.zeros (m.length + overhead)).length := by simp
  simp [push, addSizes_overhead h, s.runFrom_pushInto hopen h hroom]

/-- A plaintext that is too long changes nothing. -/
theorem runFrom_push_of_gt {m : Bytes} (h : messageMax < m.length) (ad : Bytes) (t : ChunkTag)
    (log : Log) :
    ∃ f, (push m ad t).runFrom s log = { result := .error f, state := s, log } := by
  by_cases hsize : m.length + overhead < sizeLimit
  · cases hopen : s.finalized <;>
      simp [push, addSizes, hsize, pushInto, Check.streamState, hopen, Check.messageLength,
        Check.maxLength, h]
  · simp [push, addSizes, hsize]

/-- A stream that has ended takes no more chunks. -/
theorem runFrom_push_of_finalized (hclosed : s.finalized = true) (m ad : Bytes) (t : ChunkTag)
    (log : Log) :
    ∃ f, (push m ad t).runFrom s log = { result := .error f, state := s, log } := by
  by_cases hsize : m.length + overhead < sizeLimit
  · simp [push, addSizes, hsize, pushInto, Check.streamState, hclosed]
  · simp [push, addSizes, hsize]

/-- What a successful push says about its chunk and the next state. -/
theorem push_eq_ok_iff {m ad c : Bytes} {t : ChunkTag} {s' : SecretStream} {log : Log} :
    ((push m ad t).runFrom s log).result = .ok c ∧ ((push m ad t).runFrom s log).state = s' ↔
      s.finalized = false ∧ m.length ≤ messageMax ∧
        c = s.chunk m ad t ∧ s' = s.next (s.pushedMac m ad t) t := by
  cases hopen : s.finalized with
  | true =>
    obtain ⟨f, hf⟩ := s.runFrom_push_of_finalized hopen m ad t log
    simp [hf]
  | false =>
    by_cases h : m.length ≤ messageMax
    · rw [s.runFrom_push hopen h, Except.ok.injEq]
      simp only [h, true_and, eq_comm]
    · obtain ⟨f, hf⟩ := s.runFrom_push_of_gt (Nat.lt_of_not_le h) ad t log
      simp [hf, h]

/-! ## Pulling -/

theorem splitChunk_eq (sent : UInt8) (body : Bytes) (mac : Tag 16) :
    splitChunk (sent :: (body ++ mac.toList)) = .ok (sent, body, mac) := by
  have hmac : FixedBytes.ofPadded 16 mac.toList = mac :=
    FixedBytes.ext ((FixedBytes.toList_ofPadded (by simp)).trans (List.take_of_length_le (by simp)))
  have hlong : ¬ body.length + 16 + 1 < 17 := by omega
  simp [splitChunk, Check.ciphertextLength, overhead, hlong, subSizes, splitBytes, hmac]

/-- A string that is long enough has the parts of a chunk. -/
theorem exists_parts {c : Bytes} (h : overhead ≤ c.length) :
    ∃ (sent : UInt8) (body : Bytes) (mac : Tag 16), c = sent :: (body ++ mac.toList) := by
  cases c with
  | nil => simp [overhead] at h
  | cons sent rest =>
    obtain ⟨body, mac, rfl⟩ := FixedBytes.exists_append (show 16 ≤ rest.length from
      Nat.le_of_succ_le_succ h)
    exact ⟨sent, body, mac, rfl⟩

/-- What a pull does with a string that has the parts of a chunk. -/
theorem runFrom_pullInto {body buffer : Bytes} (hopen : s.finalized = false)
    (hroom : body.length ≤ buffer.length) (sent : UInt8) (mac : Tag 16) (ad : Bytes) (log : Log) :
    (pullInto (sent :: (body ++ mac.toList)) ad).runFrom { state := s, buffer } log =
      if s.opened.tag ad (s.opened.restoreBlock sent) body = mac then
        match ChunkTag.ofByte? (s.opened.maskByte sent) with
        | some t =>
          match (s.opened.payload.maskInto body).runOn (buffer.take body.length) with
          | (.ok _, plaintext) =>
            { result := .ok (body.length, t)
              state := { state := s.next mac t, buffer := plaintext ++ buffer.drop body.length }
              log := s.nextLog mac t (.pulled body.length t :: log) }
          | (.error f, part) =>
            { result := .error f
              state := { state := s, buffer := part ++ buffer.drop body.length }
              log }
        | none =>
          { result := .error (.error (.forgedOrCorrupted context))
            state := { state := s, buffer }
            log := .unknownTag :: log }
      else
        { result := .error (.error (.forgedOrCorrupted context))
          state := { state := s, buffer }
          log := .rejected (body.length + overhead) :: log } := by
  have hfits : ¬ buffer.length < body.length := Nat.not_lt_of_le hroom
  by_cases hmac : s.opened.tag ad (s.opened.restoreBlock sent) body = mac
  · cases htag : ChunkTag.ofByte? (s.opened.maskByte sent) with
    | some t =>
      cases hmask : (s.opened.payload.maskInto body).runOn (buffer.take body.length) with
      | mk result part =>
        have hbody : (OnBuffer.onFront body.length (s.opened.payload.maskInto body)).runOn buffer =
            (result, part ++ buffer.drop body.length) := by
          rw [OnBuffer.runOn_onFront_take _ hroom, hmask]
        cases result <;>
          simp [pullInto, Check.streamState, hopen, splitChunk_eq, Check.bufferLength, hfits,
            opening_eq, hmac, htag, hbody, runFrom_advance]
    | none =>
      simp [pullInto, Check.streamState, hopen, splitChunk_eq, Check.bufferLength, hfits, opening_eq,
        hmac, htag]
  · have hdiff : (s.opened.tag ad (s.opened.restoreBlock sent) body).toList ≠ mac.toList :=
      fun heq => hmac (FixedBytes.ext heq)
    simp [pullInto, Check.streamState, hopen, splitChunk_eq, Check.bufferLength, hfits, opening_eq,
      hmac, hdiff, overhead]

theorem runFrom_pull_parts {body : Bytes} (hopen : s.finalized = false) (sent : UInt8)
    (mac : Tag 16) (ad : Bytes) (log : Log) :
    (pull (sent :: (body ++ mac.toList)) ad).runFrom s log =
      if s.opened.tag ad (s.opened.restoreBlock sent) body = mac then
        match ChunkTag.ofByte? (s.opened.maskByte sent) with
        | some t =>
          match (s.opened.payload.maskInto body).runOn (Bytes.zeros body.length) with
          | (.ok _, plaintext) =>
            { result := .ok (plaintext, t)
              state := s.next mac t
              log := s.nextLog mac t (.pulled body.length t :: log) }
          | (.error f, _) => { result := .error f, state := s, log }
        | none =>
          { result := .error (.error (.forgedOrCorrupted context))
            state := s
            log := .unknownTag :: log }
      else
        { result := .error (.error (.forgedOrCorrupted context))
          state := s
          log := .rejected (body.length + overhead) :: log } := by
  have hlen : (sent :: (body ++ mac.toList)).length - overhead = body.length := by
    simp [overhead]
  have hroom : body.length ≤ (Bytes.zeros body.length).length := by simp
  rw [pull, hlen]
  simp only [bind_pure_comp, Session.runFrom_map, WithBuffer.runFrom_fresh,
    s.runFrom_pullInto hopen hroom, Bytes.take_zeros, Bytes.drop_zeros, List.append_nil]
  split
  · split
    · split <;> rfl
    · rfl
  · rfl

/-- A body within the limit is unmasked if the rest is right. -/
theorem runFrom_pull {body : Bytes} (hopen : s.finalized = false) (h : body.length ≤ messageMax)
    (sent : UInt8) (mac : Tag 16) (ad : Bytes) (log : Log) :
    (pull (sent :: (body ++ mac.toList)) ad).runFrom s log =
      if s.opened.tag ad (s.opened.restoreBlock sent) body = mac then
        match ChunkTag.ofByte? (s.opened.maskByte sent) with
        | some t =>
          { result := .ok (s.maskBody body, t)
            state := s.next mac t
            log := s.nextLog mac t (.pulled body.length t :: log) }
        | none =>
          { result := .error (.error (.forgedOrCorrupted context))
            state := s
            log := .unknownTag :: log }
      else
        { result := .error (.error (.forgedOrCorrupted context))
          state := s
          log := .rejected (body.length + overhead) :: log } := by
  have hroom : body.length ≤ (Bytes.zeros body.length).length := by simp
  rw [s.runFrom_pull_parts hopen, s.runOn_maskInto hroom h, Bytes.drop_zeros, List.append_nil]

/-- A string that is too short changes nothing. -/
theorem runFrom_pull_of_short {c : Bytes} (h : c.length < overhead) (ad : Bytes) (log : Log) :
    ∃ f, (pull c ad).runFrom s log = { result := .error f, state := s, log } := by
  cases hopen : s.finalized <;>
    simp [pull, pullInto, Check.streamState, hopen, splitChunk, Check.ciphertextLength, h]

/-- A stream that has ended accepts nothing. -/
theorem runFrom_pull_of_finalized (hclosed : s.finalized = true) (c ad : Bytes) (log : Log) :
    ∃ f, (pull c ad).runFrom s log = { result := .error f, state := s, log } := by
  simp [pull, pullInto, Check.streamState, hclosed]

/-- A string with a body beyond the limit is not accepted either: the keystream ends. -/
theorem runFrom_pull_of_long {body : Bytes} (hopen : s.finalized = false)
    (h : messageMax < body.length) (sent : UInt8) (mac : Tag 16) (ad : Bytes) (log : Log) :
    ∃ f after, (pull (sent :: (body ++ mac.toList)) ad).runFrom s log =
      { result := .error f, state := s, log := after } := by
  have hroom : body.length ≤ (Bytes.zeros body.length).length := by simp
  have hstuck : ((s.opened.payload.maskInto body).runOn (Bytes.zeros body.length)).1 =
      .error (.fault .counterExhausted) :=
    Cipher.runOn_maskInto_beyond s.first_le (s.within_of_le (Nat.le_refl 128)) hroom
      fun hw => absurd (s.within_chunk.mp hw) (Nat.not_le_of_lt h)
  rw [s.runFrom_pull_parts hopen]
  split
  · split
    · cases hmask : (s.opened.payload.maskInto body).runOn (Bytes.zeros body.length) with
      | mk result part =>
        rw [hmask] at hstuck
        cases hstuck
        exact ⟨_, _, rfl⟩
    · exact ⟨_, _, rfl⟩
  · exact ⟨_, _, rfl⟩

/-! ## What is accepted -/

theorem toByte_of_ofByte? {b : UInt8} {t : ChunkTag} (h : ChunkTag.ofByte? b = some t) :
    b = t.toByte := by
  unfold ChunkTag.ofByte? at h
  repeat' split at h
  all_goals cases h
  all_goals assumption

theorem runFrom_pull_chunk {m : Bytes} (hopen : s.finalized = false) (h : m.length ≤ messageMax)
    (ad : Bytes) (t : ChunkTag) (log : Log) :
    (pull (s.chunk m ad t) ad).runFrom s log =
      { result := .ok (m, t)
        state := s.next (s.pushedMac m ad t) t
        log := s.nextLog (s.pushedMac m ad t) t (.pulled m.length t :: log) } := by
  have hbody : (s.maskBody m).length ≤ messageMax := by rwa [length_maskBody]
  have hmac : s.opened.tag ad (s.opened.restoreBlock (s.opened.maskByte t.toByte))
      (s.maskBody m) = s.pushedMac m ad t := by
    rw [Opening.restoreBlock_maskByte, pushedMac]
  rw [chunk, s.runFrom_pull hopen hbody, if_pos hmac, Opening.maskByte_maskByte,
    ChunkTag.ofByte?_toByte, maskBody_maskBody, length_maskBody]

/-- A pull fails and changes nothing, or its input is the chunk of a plaintext. -/
theorem pull_cases (c ad : Bytes) (log : Log) :
    (∃ f after, (pull c ad).runFrom s log = { result := .error f, state := s, log := after }) ∨
      (s.finalized = false ∧ ∃ m t, m.length ≤ messageMax ∧ c = s.chunk m ad t) := by
  cases hopen : s.finalized with
  | true =>
    obtain ⟨f, hf⟩ := s.runFrom_pull_of_finalized hopen c ad log
    exact Or.inl ⟨f, log, hf⟩
  | false =>
    by_cases hlong : overhead ≤ c.length
    · obtain ⟨sent, body, mac, rfl⟩ := exists_parts hlong
      by_cases hbody : body.length ≤ messageMax
      · rw [s.runFrom_pull hopen hbody]
        by_cases hmac : s.opened.tag ad (s.opened.restoreBlock sent) body = mac
        · rw [if_pos hmac]
          cases htag : ChunkTag.ofByte? (s.opened.maskByte sent) with
          | none => exact Or.inl ⟨_, _, rfl⟩
          | some t =>
            have hsent : sent = s.opened.maskByte t.toByte := by
              rw [← toByte_of_ofByte? htag, Opening.maskByte_maskByte]
            refine Or.inr ⟨rfl, s.maskBody body, t, by rwa [length_maskBody], ?_⟩
            rw [chunk, pushedMac, maskBody_maskBody, ← hsent, ← hmac, hsent,
              Opening.restoreBlock_maskByte]
        · rw [if_neg hmac]
          exact Or.inl ⟨_, _, rfl⟩
      · exact Or.inl (s.runFrom_pull_of_long hopen (Nat.lt_of_not_le hbody) sent mac ad log)
    · obtain ⟨f, hf⟩ := s.runFrom_pull_of_short (Nat.lt_of_not_le hlong) ad log
      exact Or.inl ⟨f, log, hf⟩

/-- What a successful pull says about its input and the next state. -/
theorem pull_eq_ok_iff {c m ad : Bytes} {t : ChunkTag} {s' : SecretStream} {log : Log} :
    ((pull c ad).runFrom s log).result = .ok (m, t) ∧ ((pull c ad).runFrom s log).state = s' ↔
      s.finalized = false ∧ m.length ≤ messageMax ∧
        c = s.chunk m ad t ∧ s' = s.next (s.pushedMac m ad t) t := by
  constructor
  · rintro ⟨hok, rfl⟩
    obtain ⟨f, after, hf⟩ | ⟨hopen, m', t', hm, rfl⟩ := s.pull_cases c ad log
    · rw [hf] at hok
      cases hok
    · rw [s.runFrom_pull_chunk hopen hm] at hok ⊢
      cases hok
      exact ⟨hopen, hm, rfl, rfl⟩
  · rintro ⟨hopen, hm, rfl, rfl⟩
    rw [s.runFrom_pull_chunk hopen hm]
    exact ⟨rfl, rfl⟩

/-- What is not accepted leaves the state as it was. -/
theorem state_of_pull_error {c ad : Bytes} {f : Failure} {log : Log}
    (h : ((pull c ad).runFrom s log).result = .error f) :
    ((pull c ad).runFrom s log).state = s := by
  obtain ⟨f', after, hf⟩ | ⟨hopen, m, t, hm, rfl⟩ := s.pull_cases c ad log
  · rw [hf]
  · rw [s.runFrom_pull_chunk hopen hm] at h
    cases h

end AuthEncryption.SecretStream
