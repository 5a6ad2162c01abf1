import AuthEncryption.Proofs.SecretStream.Chunks
import Mathlib.Logic.ExistsUnique

/-!
# Pulling is the inverse of pushing

A successful pull and a successful push of the same plaintext say the same about the chunk
and the next state: a pull accepts exactly what a push from the same state gives, and both
ends move on alike, rekeying included. The authenticator's tag of a chunk is therefore
determined by the rest, and the tag byte of an accepted chunk is a known one.
-/
namespace AuthEncryption.SecretStream

variable (s : SecretStream)

/-- The last bytes that a receiver compares with. -/
def expectedMac (sent : UInt8) (body ad : Bytes) : Tag 16 :=
  s.opened.tag ad (s.opened.restoreBlock sent) body

theorem pull_parts_eq_ok_iff {body ad m : Bytes} {sent : UInt8} {mac : Tag 16} {t : ChunkTag}
    {log : Log} (hopen : s.finalized = false) (h : body.length ≤ messageMax) :
    ((pull (sent :: (body ++ mac.toList)) ad).runFrom s log).result = .ok (m, t) ↔
      mac = s.expectedMac sent body ad ∧ ChunkTag.ofByte? (s.opened.maskByte sent) = some t ∧
        m = s.maskBody body := by
  rw [s.runFrom_pull hopen h, expectedMac]
  by_cases hmac : s.opened.tag ad (s.opened.restoreBlock sent) body = mac
  · cases htag : ChunkTag.ofByte? (s.opened.maskByte sent) with
    | none => simp [hmac]
    | some t' =>
      simp only [hmac, if_true, Except.ok.injEq, Prod.mk.injEq, Option.some.injEq, true_and]
      constructor
      · rintro ⟨rfl, rfl⟩
        exact ⟨rfl, rfl⟩
      · rintro ⟨rfl, rfl⟩
        exact ⟨rfl, rfl⟩
  · simp [hmac, Ne.symm hmac]

/-- From a state that has not ended, a string pulls to a plaintext and a tag with a next
state exactly if pushing these gives that string with that state. Every plaintext within
the limit can be pushed. For each first byte and body, one authenticator's tag is accepted
if the byte unmasks to a known tag, and none if it does not. -/
theorem pull_inverts_push {s : SecretStream} (hopen : s.finalized = false) (ad : Bytes)
    (pushLog pullLog : Log) :
    (∀ (c m : Bytes) (t : ChunkTag) (s' : SecretStream),
      ((pull c ad).runFrom s pullLog).result = .ok (m, t) ∧
          ((pull c ad).runFrom s pullLog).state = s' ↔
        ((push m ad t).runFrom s pushLog).result = .ok c ∧
          ((push m ad t).runFrom s pushLog).state = s') ∧
    (∀ (m : Bytes) (t : ChunkTag), m.length ≤ messageMax →
      ∃ c, ((push m ad t).runFrom s pushLog).result = .ok c ∧ c.length = m.length + overhead) ∧
    (∀ (sent : UInt8) (body : Bytes), body.length ≤ messageMax →
      (∀ t, ChunkTag.ofByte? (s.opened.maskByte sent) = some t → ∃! mac : Tag 16, ∃ m,
        ((pull (sent :: (body ++ mac.toList)) ad).runFrom s pullLog).result = .ok (m, t)) ∧
      (ChunkTag.ofByte? (s.opened.maskByte sent) = none → ∀ (mac : Tag 16) (m : Bytes) (t : ChunkTag),
        ((pull (sent :: (body ++ mac.toList)) ad).runFrom s pullLog).result ≠ .ok (m, t))) := by
  refine ⟨fun c m t s' => ?_, fun m t hm => ?_, fun sent body hbody => ⟨fun t htag => ?_, ?_⟩⟩
  · rw [pull_eq_ok_iff, push_eq_ok_iff]
  · exact ⟨s.chunk m ad t, by rw [s.runFrom_push hopen hm], s.length_chunk m ad t⟩
  · refine ⟨s.expectedMac sent body ad, ⟨s.maskBody body, ?_⟩, ?_⟩
    · exact (s.pull_parts_eq_ok_iff hopen hbody).mpr ⟨rfl, htag, rfl⟩
    · rintro mac ⟨m, hok⟩
      exact ((s.pull_parts_eq_ok_iff hopen hbody).mp hok).1
  · intro hnone mac m t hok
    have htag := ((s.pull_parts_eq_ok_iff hopen hbody).mp hok).2.1
    rw [hnone] at htag
    cases htag

/-- One byte goes through a stream at its start. -/
theorem pull_inverts_push_of_one_byte :
    (ofHeader (.zero 32) (.zero 24)).finalized = false ∧
    ∃ c, ((push [7] [] .push).runFrom (ofHeader (.zero 32) (.zero 24)) []).result = .ok c ∧
      ((pull c []).runFrom (ofHeader (.zero 32) (.zero 24)) []).result = .ok ([7], .push) ∧
      ((pull c []).runFrom (ofHeader (.zero 32) (.zero 24)) []).state =
        ((push [7] [] .push).runFrom (ofHeader (.zero 32) (.zero 24)) []).state := by
  have hopen : (ofHeader (.zero 32) (.zero 24)).finalized = false := rfl
  obtain ⟨hinverse, hpush, -⟩ := pull_inverts_push hopen [] [] []
  obtain ⟨c, hc, -⟩ := hpush [7] .push (by decide)
  exact ⟨hopen, c, hc, (hinverse c [7] .push _).mpr ⟨hc, rfl⟩⟩

end AuthEncryption.SecretStream
