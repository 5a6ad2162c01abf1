import AuthEncryption.Proofs.SecretStream.Chunks

/-!
# A stream arrives in order

A sender pushes plaintexts one after the other; a receiver with the same key and header is
given any strings at all and passes over those that are not accepted. As long as what it
accepts is what was sent, both ends are in the same state. The first thing it accepts that
was not sent there carries the authenticator's value, under the key of that place, of a
string that the sender did not authenticate with this key: nothing else breaks the order.
The argument needs that the authenticated string determines the associated data, the block
of the tag and the body.
-/
namespace AuthEncryption.SecretStream

/-! ## The authenticated string -/

theorem length_lt_of_le_messageMax {n : Nat} (h : n ≤ messageMax) : 64 + n < UInt64.size := by
  have hlimit : 64 + messageMax < UInt64.size := by decide
  exact Nat.lt_of_le_of_lt (Nat.add_le_add_left h 64) hlimit

/-- Both lengths stand at the end, so the parts can be told apart. -/
theorem macParts_inj {ad ad' body body' : Bytes} {block block' : FixedBytes 64}
    (had : ad.length < UInt64.size) (had' : ad'.length < UInt64.size)
    (hbody : body.length ≤ messageMax) (hbody' : body'.length ≤ messageMax)
    (h : (Opening.macParts ad block body).flatten = (Opening.macParts ad' block' body').flatten) :
    ad = ad' ∧ block = block' ∧ body = body' := by
  simp only [Opening.macParts, List.flatten_cons, List.flatten_nil, List.append_nil,
    ← List.append_assoc] at h
  obtain ⟨h, hbodyLength⟩ := List.append_inj' h (by simp)
  obtain ⟨h, hadLength⟩ := List.append_inj' h (by simp)
  have hadSame : ad.length = ad'.length := Bytes.le64_inj had had' hadLength
  have hbodySame : 64 + body.length = 64 + body'.length :=
    Bytes.le64_inj (length_lt_of_le_messageMax hbody) (length_lt_of_le_messageMax hbody') hbodyLength
  obtain ⟨h, -⟩ := List.append_inj' h (by rw [hbodySame])
  obtain ⟨h, hbodies⟩ := List.append_inj' h (Nat.add_left_cancel hbodySame)
  obtain ⟨h, hblocks⟩ := List.append_inj' h (by simp)
  obtain ⟨hads, -⟩ := List.append_inj' h (by rw [hadSame])
  exact ⟨hads, FixedBytes.ext hblocks, hbodies⟩

/-! ## Both ends -/

@[ext] structure Outgoing where
  plaintext : Bytes
  ad : Bytes
  tag : ChunkTag

/-- What is seen of a chunk that is pushed, and reported. -/
def Outgoing.seen (out : Outgoing) : Nat × ChunkTag := (out.plaintext.length, out.tag)

structure Incoming where
  chunk : Bytes
  ad : Bytes

/-- An input that was accepted, with what the pull returned. -/
structure Delivery where
  input : Incoming
  plaintext : Bytes
  tag : ChunkTag

/-- Pushes one after the other and gives the chunks. -/
def pushAll : List Outgoing → Session SecretStream (List Bytes)
  | [] => return []
  | out :: rest => do
    let c ← push out.plaintext out.ad out.tag
    return c :: (← pushAll rest)

/-- Pulls one after the other, passing over what is not accepted. -/
def pullAll : List Incoming → SecretStream → Log → List Delivery
  | [], _, _ => []
  | input :: rest, s, log =>
    let outcome := (pull input.chunk input.ad).runFrom s log
    match outcome.result with
    | .ok (plaintext, tag) =>
      { input, plaintext, tag } :: pullAll rest outcome.state outcome.log
    | .error _ => pullAll rest outcome.state outcome.log

/-- The sender's run from the start of a stream. -/
def sent (key : FixedBytes 32) (header : Header) (outs : List Outgoing) :
    Outcome SecretStream (List Bytes) :=
  let (s, log) := (initPush key header).run []
  (pushAll outs).runFrom s log

/-- The receiver's run from the start of a stream. -/
def received (key : FixedBytes 32) (header : Header) (inputs : List Incoming) : List Delivery :=
  let (s, log) := (initPull key header).run []
  pullAll inputs s log

/-- What arrives if nothing is lost, changed or moved. -/
def undisturbed (outs : List Outgoing) (chunks : List Bytes) : List Delivery :=
  List.zipWith (fun out c => ⟨⟨c, out.ad⟩, out.plaintext, out.tag⟩) outs chunks

variable (s : SecretStream)

/-- The string that a sender authenticates. -/
def pushedString (out : Outgoing) : Bytes :=
  (Opening.macParts out.ad (s.opened.maskBlock out.tag.toByte) (s.maskBody out.plaintext)).flatten

/-- The string that a receiver authenticates, if its input has the parts of a chunk. -/
def pulledString (input : Incoming) : Bytes :=
  match splitChunk input.chunk with
  | .ok (sent, body, _) => (Opening.macParts input.ad (s.opened.restoreBlock sent) body).flatten
  | .error _ => []

/-! ## One step -/

/-- The chunk of what is pushed. -/
def outChunk (out : Outgoing) : Bytes := s.chunk out.plaintext out.ad out.tag

/-- The state of both ends behind it. -/
def after (out : Outgoing) : SecretStream :=
  s.next (s.pushedMac out.plaintext out.ad out.tag) out.tag

/-- The last bytes of a chunk are the value of its string under the key of the state. -/
theorem drop_outChunk (out : Outgoing) :
    (s.outChunk out).drop ((s.outChunk out).length - 16) =
      (Poly1305.authenticate s.oneTimeKey (s.pushedString out)).toList := by
  have hsplit : s.outChunk out = (s.opened.maskByte out.tag.toByte ::
      s.maskBody out.plaintext) ++ (s.pushedMac out.plaintext out.ad out.tag).toList := rfl
  have hlen : (s.outChunk out).length - 16 = (s.opened.maskByte out.tag.toByte ::
      s.maskBody out.plaintext).length := by
    rw [hsplit, List.length_append, FixedBytes.length_toList, Nat.add_sub_cancel]
  rw [hlen, hsplit, List.drop_left, pushedMac, tag_opened]
  rfl

theorem pulledString_outChunk (out : Outgoing) :
    s.pulledString ⟨s.outChunk out, out.ad⟩ = s.pushedString out := by
  rw [pulledString, outChunk, chunk, splitChunk_eq]
  simp only [Opening.restoreBlock_maskByte]
  rfl

theorem pushedString_inj {a b : Outgoing} (ha : a.ad.length < UInt64.size)
    (hb : b.ad.length < UInt64.size) (hma : a.plaintext.length ≤ messageMax)
    (hmb : b.plaintext.length ≤ messageMax) (h : s.pushedString a = s.pushedString b) : a = b := by
  obtain ⟨had, hblock, hbody⟩ := macParts_inj ha hb (by rwa [length_maskBody])
    (by rwa [length_maskBody]) h
  have hbyte : a.tag.toByte = b.tag.toByte := by
    have hsent : s.opened.maskByte a.tag.toByte = s.opened.maskByte b.tag.toByte :=
      congrArg (FixedBytes.get · 0) hblock
    rw [← s.opened.maskByte_maskByte a.tag.toByte, hsent, Opening.maskByte_maskByte]
  have htag : a.tag = b.tag := by
    have hknown := congrArg ChunkTag.ofByte? hbyte
    simpa using hknown
  have htext : a.plaintext = b.plaintext := by
    rw [← s.maskBody_maskBody a.plaintext, hbody, maskBody_maskBody]
  exact Outgoing.ext htext had htag

/-- A pull fails and changes nothing, or it accepts the chunk of something that could have
been pushed. -/
theorem pull_incoming (input : Incoming) (log : Log) :
    (∃ f log', (pull input.chunk input.ad).runFrom s log =
      { result := .error f, state := s, log := log' }) ∨
    (∃ out log', out.plaintext.length ≤ messageMax ∧ input = ⟨s.outChunk out, out.ad⟩ ∧
      (pull input.chunk input.ad).runFrom s log =
        { result := .ok (out.plaintext, out.tag), state := s.after out, log := log' }) := by
  obtain ⟨c, ad⟩ := input
  obtain ⟨f, log', hf⟩ | ⟨hopen, m, t, hm, rfl⟩ := s.pull_cases c ad log
  · exact Or.inl ⟨f, log', hf⟩
  · exact Or.inr ⟨⟨m, ad, t⟩, _, hm, rfl, s.runFrom_pull_chunk hopen hm ad t log⟩

/-- A run of pushes that succeeds gives the first chunk and goes on behind it. -/
theorem pushAll_cons {out : Outgoing} {outs : List Outgoing} {chunks : List Bytes} {log : Log}
    (h : ((pushAll (out :: outs)).runFrom s log).result = .ok chunks) :
    out.plaintext.length ≤ messageMax ∧ ∃ rest log', chunks = s.outChunk out :: rest ∧
      ((pushAll outs).runFrom (s.after out) log').result = .ok rest ∧
      ∀ outs', ((pushAll (out :: outs')).runFrom s log).state =
        ((pushAll outs').runFrom (s.after out) log').state := by
  cases hopen : s.finalized with
  | true =>
    obtain ⟨f, hf⟩ := s.runFrom_push_of_finalized hopen out.plaintext out.ad out.tag log
    simp [pushAll, hf] at h
  | false =>
    by_cases hm : out.plaintext.length ≤ messageMax
    · have hstep := s.runFrom_push hopen hm out.ad out.tag log
      have hnext : ∀ outs', (pushAll (out :: outs')).runFrom s log =
          (do return s.outChunk out :: (← pushAll outs')).runFrom (s.after out)
            (s.nextLog (s.pushedMac out.plaintext out.ad out.tag) out.tag
              (.pushed out.plaintext.length out.tag :: log)) := by
        intro outs'
        rw [pushAll, Session.runFrom_bind, hstep]
        rfl
      rw [hnext] at h
      simp only [bind_pure_comp, Session.runFrom_map] at h hnext
      cases hrest : ((pushAll outs).runFrom (s.after out)
          (s.nextLog (s.pushedMac out.plaintext out.ad out.tag) out.tag
            (.pushed out.plaintext.length out.tag :: log))).result with
      | error f =>
        rw [hrest] at h
        cases h
      | ok rest =>
        rw [hrest] at h
        cases h
        exact ⟨hm, rest, _, rfl, hrest, fun outs' => by rw [hnext]⟩
    · obtain ⟨f, hf⟩ := s.runFrom_push_of_gt (Nat.lt_of_not_le hm) out.ad out.tag log
      simp [pushAll, hf] at h

/-! ## Whole runs -/

/-- Each chunk is the one that its place in the run gives. -/
theorem getElem?_of_pushAll {outs : List Outgoing} {chunks : List Bytes} {log : Log}
    (h : ((pushAll outs).runFrom s log).result = .ok chunks) {j : Nat} {out : Outgoing}
    (hout : outs[j]? = some out) :
    chunks[j]? = some (((pushAll (outs.take j)).runFrom s log).state.outChunk out) := by
  induction outs generalizing s chunks log j with
  | nil => cases hout
  | cons first outs ih =>
    obtain ⟨-, rest, log', rfl, hrest, hstate⟩ := s.pushAll_cons h
    cases j with
    | zero =>
      cases hout
      rfl
    | succ j =>
      rw [List.take_succ_cons, hstate]
      exact ih (s.after first) hrest hout

/-- An input carries the value, under the key of the state, of a string that the sender did
not authenticate in this state. -/
structure Forged (s : SecretStream) (out? : Option Outgoing) (input : Incoming) : Prop where
  value : input.chunk.drop (input.chunk.length - 16) =
    (Poly1305.authenticate s.oneTimeKey (s.pulledString input)).toList
  fresh : ∀ out, out? = some out → s.pulledString input ≠ s.pushedString out

/-- A genuine chunk of something else is forged where it was not sent. -/
theorem forged_outChunk {got : Outgoing} {out? : Option Outgoing}
    (h : ∀ out, out? = some out → s.pushedString got ≠ s.pushedString out) :
    Forged s out? ⟨s.outChunk got, got.ad⟩ := by
  constructor
  · rw [pulledString_outChunk]
    exact s.drop_outChunk got
  · rw [pulledString_outChunk]
    exact h

/-- The first delivery that is not what was sent. -/
structure Deviation (s : SecretStream) (log : Log) (outs : List Outgoing) (chunks : List Bytes)
    (got : List Delivery) (j : Nat) (d : Delivery) : Prop where
  delivered : got[j]? = some d
  before : got.take j = (undisturbed outs chunks).take j
  other : (undisturbed outs chunks)[j]? ≠ some d
  forged : Forged ((pushAll (outs.take j)).runFrom s log).state outs[j]? d.input

/-- A run that deviates behind a first delivery deviates one place later. -/
theorem Deviation.cons {out : Outgoing} {outs : List Outgoing} {rest : List Bytes}
    {got : List Delivery} {j : Nat} {d : Delivery} {log log' : Log}
    (h : Deviation (s.after out) log' outs rest got j d)
    (hstate : ∀ outs', ((pushAll (out :: outs')).runFrom s log).state =
      ((pushAll outs').runFrom (s.after out) log').state) :
    Deviation s log (out :: outs) (s.outChunk out :: rest)
      (⟨⟨s.outChunk out, out.ad⟩, out.plaintext, out.tag⟩ :: got) (j + 1) d where
  delivered := h.delivered
  before := congrArg (List.cons _) h.before
  other := h.other
  forged := by
    rw [List.take_succ_cons, hstate]
    exact h.forged

/-- The run lemma: from one state at both ends, what arrives is what was sent up to the end
or up to a forged input. -/
theorem prefix_or_deviation {outs : List Outgoing} {chunks : List Bytes} {log log' : Log}
    {inputs : List Incoming} (h : ((pushAll outs).runFrom s log).result = .ok chunks)
    (houts : ∀ out ∈ outs, out.ad.length < UInt64.size)
    (hinputs : ∀ input ∈ inputs, input.ad.length < UInt64.size) :
    pullAll inputs s log' <+: undisturbed outs chunks ∨
      ∃ j d, Deviation s log outs chunks (pullAll inputs s log') j d := by
  -- Both ends are in the state `s`. An input that fails leaves the receiver there, and one
  -- with the sender's string takes both ends to the same next state.
  induction inputs generalizing s outs chunks log log' with
  | nil => exact Or.inl List.nil_prefix
  | cons input inputs ih =>
    have hrest : ∀ input ∈ inputs, input.ad.length < UInt64.size :=
      fun input hmem => hinputs input (List.mem_cons_of_mem _ hmem)
    obtain ⟨f, log₁, hf⟩ | ⟨got, log₁, hm, rfl, hok⟩ := s.pull_incoming input log'
    · rw [pullAll, hf]
      exact ih s h houts hrest
    · have hpull : pullAll (⟨s.outChunk got, got.ad⟩ :: inputs) s log' =
          ⟨⟨s.outChunk got, got.ad⟩, got.plaintext, got.tag⟩ :: pullAll inputs (s.after got) log₁ := by
        rw [pullAll, hok]
      rw [hpull]
      cases outs with
      | nil =>
        exact Or.inr ⟨0, _, rfl, rfl, by simp [undisturbed],
          s.forged_outChunk fun _ hout => by cases hout⟩
      | cons out outs =>
        obtain ⟨hmOut, rest, log₂, rfl, hrun, hstate⟩ := s.pushAll_cons h
        by_cases hsame : s.pushedString got = s.pushedString out
        · have heq : got = out := s.pushedString_inj (hinputs _ List.mem_cons_self)
            (houts _ List.mem_cons_self) hm hmOut hsame
          subst heq
          obtain hprefix | ⟨j, d, hdeviation⟩ := ih (s.after got) hrun
            (fun out hmem => houts out (List.mem_cons_of_mem _ hmem)) hrest
          · exact Or.inl (List.cons_prefix_cons.mpr ⟨rfl, hprefix⟩)
          · exact Or.inr ⟨j + 1, d, hdeviation.cons s hstate⟩
        · refine Or.inr ⟨0, _, rfl, rfl, fun hfirst => hsame ?_, s.forged_outChunk ?_⟩
          · simp only [undisturbed, List.zipWith_cons_cons, List.getElem?_cons_zero,
              Option.some.injEq, Delivery.mk.injEq, Incoming.mk.injEq] at hfirst
            obtain ⟨⟨-, had⟩, htext, htag⟩ := hfirst
            rw [Outgoing.ext htext had htag]
          · rintro out' hout
            cases hout
            exact hsame

/-- Order integrity of a stream. The last bytes of each chunk are the authenticator's value
of its string under the key of its place. Whatever the receiver is given, what it accepts
is what was sent, in order and from the start, or the first thing it accepts that is not
carries the value, under the key of its place, of a string that the sender did not
authenticate there. -/
theorem arrives_in_order_or_forged (key : FixedBytes 32) (header : Header)
    {outs : List Outgoing} {chunks : List Bytes} {inputs : List Incoming}
    (hsent : (sent key header outs).result = .ok chunks)
    (houts : ∀ out ∈ outs, out.ad.length < 2 ^ 63)
    (hinputs : ∀ input ∈ inputs, input.ad.length < 2 ^ 63) :
    (∀ j out, outs[j]? = some out → ∃ c, chunks[j]? = some c ∧ c.drop (c.length - 16) =
      (Poly1305.authenticate (sent key header (outs.take j)).state.oneTimeKey
        ((sent key header (outs.take j)).state.pushedString out)).toList) ∧
    (received key header inputs <+: undisturbed outs chunks ∨
      ∃ j d, (received key header inputs)[j]? = some d ∧
        (received key header inputs).take j = (undisturbed outs chunks).take j ∧
        (undisturbed outs chunks)[j]? ≠ some d ∧
        Forged (sent key header (outs.take j)).state outs[j]? d.input) := by
  have hsize : 2 ^ 63 < UInt64.size := by decide
  constructor
  · intro j out hout
    exact ⟨_, getElem?_of_pushAll _ hsent hout, drop_outChunk _ out⟩
  · obtain hprefix | ⟨j, d, hdeviation⟩ := prefix_or_deviation (ofHeader key header) hsent
      (fun out hmem => Nat.lt_trans (houts out hmem) hsize)
      (fun input hmem => Nat.lt_trans (hinputs input hmem) hsize)
    · exact Or.inl hprefix
    · exact Or.inr ⟨j, d, hdeviation.delivered, hdeviation.before, hdeviation.other,
        hdeviation.forged⟩

/-- One chunk with its replay behind it. -/
theorem arrives_in_order_or_forged_of_replay :
    ∃ c, (sent (.zero 32) (.zero 24) [⟨[7], [1], .push⟩]).result = .ok [c] ∧
      (∀ out ∈ [Outgoing.mk [7] [1] .push], out.ad.length < 2 ^ 63) ∧
      (∀ input ∈ [Incoming.mk c [1], ⟨c, [1]⟩], input.ad.length < 2 ^ 63) ∧
      (received (.zero 32) (.zero 24) [⟨c, [1]⟩, ⟨c, [1]⟩] <+:
          undisturbed [⟨[7], [1], .push⟩] [c] ∨
        ∃ j d, (received (.zero 32) (.zero 24) [⟨c, [1]⟩, ⟨c, [1]⟩])[j]? = some d ∧
          Forged (sent (.zero 32) (.zero 24) ([⟨[7], [1], .push⟩].take j)).state
            [Outgoing.mk [7] [1] .push][j]? d.input) := by
  have hpush := runFrom_push (ofHeader (.zero 32) (.zero 24)) (m := [7]) rfl (by decide) [1] .push
    [.initialized .push]
  have hsent : (sent (.zero 32) (.zero 24) [⟨[7], [1], .push⟩]).result =
      .ok [(ofHeader (.zero 32) (.zero 24)).chunk [7] [1] .push] := by
    show ((pushAll [⟨[7], [1], .push⟩]).runFrom (ofHeader (.zero 32) (.zero 24))
      [.initialized .push]).result = _
    simp [pushAll, hpush]
  have houts : ∀ out ∈ [Outgoing.mk [7] [1] .push], out.ad.length < 2 ^ 63 := by simp
  have hinputs : ∀ c, ∀ input ∈ [Incoming.mk c [1], ⟨c, [1]⟩], input.ad.length < 2 ^ 63 := by simp
  refine ⟨_, hsent, houts, hinputs _, ?_⟩
  obtain hprefix | ⟨j, d, hdelivered, -, -, hforged⟩ :=
    (arrives_in_order_or_forged (.zero 32) (.zero 24) hsent houts (hinputs _)).2
  · exact Or.inl hprefix
  · exact Or.inr ⟨j, d, hdelivered, hforged⟩

end AuthEncryption.SecretStream
