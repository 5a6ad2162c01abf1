import AuthEncryption.Proofs.SecretStream.Epochs

/-!
# Where the counter comes round

The counter of a stream is a string of four bytes. The test behind a chunk finds it zero where it
had its last value before, whatever the rest of the state is. This is where a rekey is forced: if no
tag asks for one, the stream is rekeyed each time the counter has run through the values from one
to the last.
-/
namespace AuthEncryption

namespace SecretStream

variable (s : SecretStream)

/-- The test for zero is a test for the last value. -/
theorem isZero_stepped_iff (mac : Tag 16) :
    Bytes.isZero (s.stepped mac).counter.toList = true ↔ s.count = 2 ^ 32 - 1 := by
  rw [stepped, FixedBytes.toList_mapList, Bytes.isZero_incrementLE_iff, FixedBytes.length_toList]
  rfl

theorem renews_iff_last (mac : Tag 16) (tag : ChunkTag) :
    s.renews mac tag = true ↔ tag.shouldRekey = true ∨ s.count = 2 ^ 32 - 1 := by
  rw [renews_iff, isZero_stepped_iff]

/-- Where the tag asks for no rekey, only the last value of the counter forces one. -/
theorem renews_iff_of_not_asked (mac : Tag 16) {tag : ChunkTag} (htag : tag.shouldRekey = false) :
    s.renews mac tag = true ↔ s.count = 2 ^ 32 - 1 := by
  rw [renews_iff_last, htag, or_iff_right Bool.false_ne_true]

/-! ## One chunk -/

/-- Without such a tag the counter goes on by one, and from its last value to one. -/
theorem count_next (mac : Tag 16) {tag : ChunkTag} (htag : tag.shouldRekey = false) :
    (s.next mac tag).count = if s.count = 2 ^ 32 - 1 then 1 else s.count + 1 := by
  have hlt := s.count_lt
  rw [count, counter_next]
  simp only [s.renews_iff_of_not_asked mac htag]
  split
  · rfl
  · exact (s.count_stepped mac).trans (Nat.mod_eq_of_lt (by omega))

/-- A chunk reports one rekey or none. -/
theorem count_rekeyed_nextLog (mac : Tag 16) (tag : ChunkTag) (log : Log) :
    (s.nextLog mac tag log).count .rekeyed =
      log.count .rekeyed + if s.renews mac tag then 1 else 0 := by
  cases hfinal : tag.isFinal <;> cases hrenews : s.renews mac tag <;>
    simp [nextLog, hfinal, hrenews]

/-! ## Many chunks -/

/-- Moves on behind chunks with these authenticators and tags. -/
def advanceAll (chunks : List (Tag 16 × ChunkTag)) : Session SecretStream Unit :=
  forM chunks fun chunk => advance chunk.1 chunk.2

/-- The run lemma: the stream is rekeyed behind the chunk that finds the counter at its last value,
and then behind every `2 ^ 32 - 1` chunks. -/
theorem count_rekeyed_advanceAll {chunks : List (Tag 16 × ChunkTag)}
    (htags : ∀ chunk ∈ chunks, chunk.2.shouldRekey = false) (log : Log) :
    ((advanceAll chunks).runFrom s log).log.count .rekeyed =
      log.count .rekeyed + (s.count + chunks.length - 1) / (2 ^ 32 - 1) := by
  induction chunks generalizing s log with
  | nil =>
    have hlt := s.count_lt
    rw [List.length_nil, Nat.add_zero, Nat.div_eq_of_lt (by omega)]
    rfl
  | cons chunk chunks ih =>
    obtain ⟨hfirst, hrest⟩ := List.forall_mem_cons.mp htags
    have hrun : ((advanceAll (chunk :: chunks)).runFrom s log).log =
        ((advanceAll chunks).runFrom (s.next chunk.1 chunk.2)
          (s.nextLog chunk.1 chunk.2 log)).log := by
      simp only [advanceAll, List.forM_cons, Session.runFrom_bind, runFrom_advance]
    rw [hrun, ih _ hrest, count_rekeyed_nextLog, s.count_next chunk.1 hfirst, List.length_cons]
    -- Behind a forced rekey the rest starts at one, and else one value later.
    simp only [s.renews_iff_of_not_asked chunk.1 hfirst]
    split <;> omega

/-- What is said of the counter of a stream. -/
structure RekeysBehindLast (s : SecretStream) : Prop where
  /-- The test behind a chunk is passed where the counter had its last value. -/
  tested : ∀ mac, Bytes.isZero (s.stepped mac).counter.toList = true ↔ s.count = 2 ^ 32 - 1
  /-- There, or where the tag asks for it, the state becomes that of a rekey. Elsewhere it is the
  one that the chunk has stepped. -/
  state : ∀ mac tag, { ((advance mac tag).runOn s).state with finalized := s.finalized } =
    if tag.shouldRekey = true ∨ s.count = 2 ^ 32 - 1 then (rekey.runOn (s.stepped mac)).state
    else s.stepped mac
  /-- Chunks whose tags ask for no rekey force one each time the counter comes round. -/
  forced : ∀ chunks, (∀ chunk ∈ chunks, chunk.2.shouldRekey = false) →
    ((advanceAll chunks).runOn s).log.count .rekeyed =
      (s.count + chunks.length - 1) / (2 ^ 32 - 1)

/-- The step of a counter is addition of one at every width, without an overflow on the way, and it
gives zero behind the last value only. In a stream this is what forces a rekey. -/
theorem increment_adds_one (bs : Bytes) (s : SecretStream) :
    bs.CountsUp ∧ s.RekeysBehindLast where
  left :=
    { length := Bytes.length_incrementLE bs
      value := Bytes.toNatLE_incrementLE bs
      inRange := Bytes.incrementChecked_eq bs
      steps := fun k =>
        ⟨Bytes.length_iterate_incrementLE bs k, Bytes.toNatLE_iterate_incrementLE bs k⟩
      zero := Bytes.incrementLE_eq_zeros_iff bs
      tested := Bytes.isZero_incrementLE_iff bs }
  right :=
    { tested := s.isZero_stepped_iff
      state := fun mac tag => by
        simp only [Session.runOn, runFrom_advance, runFrom_rekey, next_eq_stepped_or_renewed,
          renews_iff_last]
      forced := fun chunks htags => by
        rw [Session.runOn, s.count_rekeyed_advanceAll htags, List.count_nil, Nat.zero_add] }

/-- A carry that goes through two bytes, and a stream at its last value: the first of two chunks
forces a rekey and the second does not. -/
theorem increment_adds_one_to_full_bytes :
    let s : SecretStream :=
      { ofHeader (.zero 32) (.zero 24) with counter := ⟨[255, 255, 255, 255], rfl⟩ }
    Bytes.toNatLE (Bytes.incrementLE^[2] [255, 255, 0]) = 65537 ∧
      ((advanceAll [(.zero 16, .message), (.zero 16, .push)]).runOn s).log.count .rekeyed = 1 := by
  intro s
  obtain ⟨hcounts, hrekeys⟩ := increment_adds_one [255, 255, 0] s
  have hlast : s.count = 2 ^ 32 - 1 := rfl
  refine ⟨(hcounts.steps 2).2.trans (by decide), ?_⟩
  rw [hrekeys.forced _ (by decide), hlast]
  rfl

end SecretStream

end AuthEncryption
