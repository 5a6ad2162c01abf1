import AuthEncryption.Proofs.Counters
import AuthEncryption.Proofs.SecretStream.Ending
import AuthEncryption.Proofs.SecretStream.Order

/-!
# Epochs of a sender

A rekey ends an epoch. It may be a call of its own, or follow a chunk whose tag asks for it
or behind which the counter has come round to zero. In an epoch one cipher is made for each
chunk and one for the rekey behind them. All of them have the same key, so their nonces must
differ, and the counters in the nonces do: the chunks count from one, and the rekey has the
next number or, behind the last one, zero. The history of a sender keeps what went out and the
states around it. A step lemma says what a call adds to it. That the chunks and the rekeys are
made with the ciphers of the states that the history names, and what the counters of these
states are, follows by induction over the calls.
-/
namespace AuthEncryption

namespace SecretStream

/-- The value of the counter. -/
def count (s : SecretStream) : Nat := Bytes.toNatLE s.counter.toList

/-- The ciphers of two states have no block of keystream from the same square. -/
def Apart (a b : SecretStream) : Prop := ∀ i j, a.cipher.numbered i ≠ b.cipher.numbered j

variable (s : SecretStream)

theorem count_lt : s.count < 2 ^ 32 := by
  have hlt := Bytes.toNatLE_lt s.counter.toList
  rw [FixedBytes.length_toList] at hlt
  exact hlt

/-- Every chunk steps the counter. -/
theorem count_stepped (mac : Tag 16) : (s.stepped mac).count = (s.count + 1) % 2 ^ 32 := by
  rw [count, stepped, FixedBytes.toList_mapList, Bytes.toNatLE_incrementLE,
    FixedBytes.length_toList]
  rfl

/-- Behind the number of the block the square holds the counter. -/
theorem toNat_numbered (i : UInt64) : ((s.cipher.numbered i)[13]).toNat = s.count := by
  have hword : (s.cipher.numbered i)[13] =
      Word.readAt (Bytes.zeros 4 ++ (s.counter.toList ++ s.innerNonce.toList)) 4 := rfl
  have hskip : Bytes.toNatLE (Bytes.zeros 4 ++ (s.counter.toList ++ s.innerNonce.toList)) / 256 ^ 4 =
      s.count + 256 ^ 4 * Bytes.toNatLE s.innerNonce.toList := by
    rw [Bytes.toNatLE_append, Bytes.toNatLE_zeros, Bytes.length_zeros, Nat.zero_add,
      Nat.mul_div_cancel_left _ (by decide), Bytes.toNatLE_append, FixedBytes.length_toList]
    rfl
  have hlt := s.count_lt
  rw [hword, Word.toNat_readAt, hskip]
  omega

theorem apart_of_count_ne {a b : SecretStream} (h : a.count ≠ b.count) : a.Apart b := by
  intro i j hsame
  refine h ?_
  rw [← a.toNat_numbered i, hsame, b.toNat_numbered]

theorem count_of_nonce : s.count = Bytes.toNatLE (s.nonce.front 4).toList := by
  rw [FixedBytes.toList_front _ (by decide), nonce, FixedBytes.toList_append,
    List.take_left' (by simp)]
  rfl

theorem nonce_ne_of_count_ne {a b : SecretStream} (h : a.count ≠ b.count) : a.nonce ≠ b.nonce := by
  intro hsame
  refine h ?_
  rw [count_of_nonce, hsame, ← count_of_nonce]

/-! ## Calls -/

/-- What a sender may do with its stream without wiping it. -/
inductive SendCall where
  | push (out : Outgoing)
  | pushInto (buffer : Bytes) (out : Outgoing)
  | rekey

/-- Performs a call and gives the chunk that it makes. -/
def SendCall.perform : SendCall → Session SecretStream (Option Bytes)
  | push out => do
    let chunk ← SecretStream.push out.plaintext out.ad out.tag
    return some chunk
  | pushInto buffer out => do
    let (written, buffer) ← WithBuffer.lend buffer
      (SecretStream.pushInto out.plaintext out.ad out.tag)
    return some (buffer.take (← written))
  | rekey => do
    SecretStream.rekey
    return none

/-- What a call sends, if it is not a rekey. -/
def SendCall.sends : SendCall → Option Outgoing
  | push out => some out
  | pushInto _ out => some out
  | rekey => none

/-- The authenticator's tag at the end of a chunk. -/
def macOf (chunk : Bytes) : Tag 16 := .ofPadded 16 (chunk.drop (chunk.length - 16))

/-! ## Histories -/

/-- A chunk that went out. -/
structure Sent where
  /-- The state before it. -/
  state : SecretStream
  call : SendCall
  chunk : Bytes

/-- What a sender makes between two rekeys, and the second of them. -/
structure Epoch where
  /-- The state in which the epoch begins. -/
  start : SecretStream
  sent : List Sent
  /-- The state that is rekeyed. -/
  rekey : SecretStream
  /-- The state behind the rekey. -/
  behind : SecretStream

namespace Epoch

/-- The states before the chunks. -/
def chunks (e : Epoch) : List SecretStream := e.sent.map Sent.state

/-- The states of which the ciphers of an epoch are made. -/
def states (e : Epoch) : List SecretStream := e.chunks ++ [e.rekey]

/-- The chunks and the rekey of an epoch are made with the ciphers of its states, and these are
the states that the stream goes through. -/
structure Made (e : Epoch) : Prop where
  /-- From the start on every chunk steps the state with the tag at its end. -/
  states : e.states = e.sent.scanl (fun s c => s.stepped (macOf c.chunk)) e.start
  /-- A chunk is that of its state: the first block of the state's keystream has the key of the
  authenticator, the second one masks the tag, and the plaintext is masked from the third on. -/
  chunks : ∀ c ∈ e.sent, c.call.sends.map c.state.outChunk = some c.chunk
  /-- The rekey masks key and inner nonce with the front of the keystream of its state. -/
  behind : { e.behind with finalized := e.rekey.finalized } = e.rekey.renewed

/-- Under one key the chunks count from one, and the rekey goes on, or starts again from
zero. -/
structure Counted (e : Epoch) : Prop where
  lt : e.chunks.length < 2 ^ 32
  chunks : e.chunks.map count = List.range' 1 e.chunks.length
  rekey : e.rekey.count = (1 + e.chunks.length) % 2 ^ 32
  key : ∀ s ∈ e.chunks, s.key = e.rekey.key

variable {e : Epoch}

theorem Counted.nodup (h : e.Counted) : (e.states.map count).Nodup := by
  have hlt := h.lt
  -- The rekey goes on behind the chunks, or its counter is zero and theirs are not.
  have hnew : e.rekey.count ∉ List.range' 1 e.chunks.length := by
    rw [h.rekey, List.mem_range'_1]
    omega
  rw [states, List.map_append, h.chunks, List.map_singleton, ← List.concat_eq_append]
  exact List.Nodup.concat hnew List.nodup_range'

/-- Different counters make different nonces. -/
theorem Counted.nodup_nonce (h : e.Counted) : (e.states.map nonce).Nodup :=
  List.pairwise_map.mpr ((List.pairwise_map.mp h.nodup).imp nonce_ne_of_count_ne)

/-- Different counters make different squares. -/
theorem Counted.pairwise_apart (h : e.Counted) : e.states.Pairwise Apart :=
  (List.pairwise_map.mp h.nodup).imp apart_of_count_ne

/-- The state that is rekeyed is the one to which the chunks have stepped the first. -/
theorem Made.rekey_eq (h : e.Made) :
    e.rekey = e.sent.foldl (fun s c => s.stepped (macOf c.chunk)) e.start := by
  have hlast := congrArg List.getLast? h.states
  rw [List.getLast?_scanl, Epoch.states, List.getLast?_concat] at hlast
  exact Option.some.inj hlast

/-- One more chunk, made in the state that the others have left. -/
theorem Made.concat (h : e.Made) {c : Sent} (hstate : c.state = e.rekey)
    (hchunk : c.call.sends.map c.state.outChunk = some c.chunk) {behind : SecretStream}
    (hbehind : { behind with finalized := c.state.finalized } =
      (c.state.stepped (macOf c.chunk)).renewed) :
    Made ⟨e.start, e.sent ++ [c], c.state.stepped (macOf c.chunk), behind⟩ where
  states := by
    rw [List.scanl_append, ← h.states, ← h.rekey_eq, ← hstate]
    simp [Epoch.states, Epoch.chunks, hstate]
  chunks d hd := by
    obtain hbefore | hlast := List.mem_append.mp hd
    · exact h.chunks d hbefore
    · rw [List.mem_singleton.mp hlast]
      exact hchunk
  behind := hbehind

end Epoch

/-- A sender and what it has made since the start. -/
structure History where
  state : SecretStream
  /-- The epochs that a rekey has ended. -/
  ended : List Epoch
  /-- The state behind the last rekey. -/
  start : SecretStream
  /-- The chunks since then. -/
  sent : List Sent

namespace History

/-- The sender's end of a stream before its first call. -/
def ofHeader (key : FixedBytes 32) (header : Header) : History :=
  let state := ((initPush key header).run []).1
  { state, ended := [], start := state, sent := [] }

/-- The states before the chunks since the last rekey. -/
def chunks (h : History) : List SecretStream := h.sent.map Sent.state

/-- The epoch that a rekey would end now. -/
def current (h : History) : Epoch :=
  { start := h.start, sent := h.sent, rekey := h.state,
    behind := (SecretStream.rekey.runOn h.state).state }

def epochs (h : History) : List Epoch := h.ended ++ [h.current]

/-- The epoch goes on in another state. -/
def goOn (h : History) (sent : List Sent) (state : SecretStream) : History :=
  { h with state, sent }

/-- A rekey of one state has left another. -/
def renew (h : History) (sent : List Sent) (rekey behind : SecretStream) : History :=
  { state := behind, ended := h.ended ++ [{ start := h.start, sent, rekey, behind }],
    start := behind, sent := [] }

/-- A successful call. If a rekey is reported behind a chunk, it is one of the state that the
chunk has stepped. -/
def follow (h : History) (call : SendCall) : Except Failure History := do
  let outcome := call.perform.runOn h.state
  match ← outcome.result with
  | none => return h.renew h.sent h.state outcome.state
  | some chunk =>
    let sent := h.sent ++ [{ state := h.state, call, chunk }]
    if outcome.log.contains .rekeyed then
      return h.renew sent (h.state.stepped (macOf chunk)) outcome.state
    else
      return h.goOn sent outcome.state

/-- Calls that all succeed. -/
def followAll (h : History) (calls : List SendCall) : Except Failure History :=
  calls.foldlM follow h

end History

/-! ## One call -/

variable (s : SecretStream)

/-- The authenticator's tag of what is pushed. -/
def outMac (out : Outgoing) : Tag 16 := s.pushedMac out.plaintext out.ad out.tag

theorem macOf_outChunk (out : Outgoing) : macOf (s.outChunk out) = s.outMac out := by
  apply FixedBytes.ext
  rw [macOf, FixedBytes.toList_ofPadded, drop_outChunk, List.take_of_length_le (by simp), outMac,
    pushedMac, tag_opened]
  · rfl
  · simp [outChunk, overhead]

/-- A rekey is reported exactly where the state is renewed. -/
theorem contains_rekeyed_nextLog (mac : Tag 16) (t : ChunkTag) (n : Nat) :
    (s.nextLog mac t [.pushed n t]).contains .rekeyed = s.renews mac t := by
  cases hfinal : t.isFinal <;> cases hrenews : s.renews mac t <;>
    simp [nextLog, hfinal, hrenews]

/-- Behind a rekey the counter is one. -/
theorem counter_next_of_renews {mac : Tag 16} {t : ChunkTag} (h : s.renews mac t = true) :
    (s.next mac t).counter = firstCounter :=
  (s.counter_next mac t).trans (if_pos h)

/-- Without a rekey a chunk leaves the state that it has stepped. -/
theorem next_of_not_renews {mac : Tag 16} {t : ChunkTag} (h : s.renews mac t = false) :
    s.next mac t = s.stepped mac := by
  have hfinal : t.isFinal = false := by
    cases t with
    | final => exact absurd ((s.renews_iff mac .final).mpr (Or.inl rfl)) (Bool.eq_false_iff.mp h)
    | _ => rfl
  rw [next, h, hfinal]
  rfl

/-- Without a rekey the counter has not come round to zero. -/
theorem count_stepped_of_not_renews {mac : Tag 16} {t : ChunkTag} (h : s.renews mac t = false) :
    (s.stepped mac).count = (s.count + 1) % 2 ^ 32 ∧ (s.stepped mac).count ≠ 0 := by
  refine ⟨s.count_stepped mac, fun hzero => ?_⟩
  rw [count, ← Bytes.isZero_iff] at hzero
  simp [renews, hzero] at h

/-- The outcome of a call that made a chunk. -/
def chunkOutcome (out : Outgoing) : Outcome SecretStream (Option Bytes) :=
  { result := .ok (some (s.outChunk out))
    state := s.after out
    log := s.nextLog (s.outMac out) out.tag [.pushed out.plaintext.length out.tag] }

theorem runOn_perform_push {out : Outgoing} (hopen : s.finalized = false)
    (h : out.plaintext.length ≤ messageMax) :
    (SendCall.push out).perform.runOn s = s.chunkOutcome out := by
  simp only [SendCall.perform, Session.runOn, Session.runFrom_bind, s.runFrom_push hopen h,
    Session.runFrom_pure]
  rfl

/-- A buffer into which a chunk was pushed has the chunk in front. -/
theorem runFrom_perform_pushInto {out : Outgoing} {buffer rest : Bytes} {log log' : Log}
    (hrun : (SecretStream.pushInto out.plaintext out.ad out.tag).runFrom { state := s, buffer } log =
      { result := .ok (out.plaintext.length + overhead)
        state := { state := s.after out, buffer := s.outChunk out ++ rest }
        log := log' }) :
    (SendCall.pushInto buffer out).perform.runFrom s log =
      { result := .ok (some (s.outChunk out)), state := s.after out, log := log' } := by
  have hfront : (s.outChunk out ++ rest).take (out.plaintext.length + overhead) = s.outChunk out :=
    List.take_left' (s.length_chunk out.plaintext out.ad out.tag)
  simp only [SendCall.perform, Session.runFrom_bind, WithBuffer.runFrom_lend, hrun,
    Session.runFrom_liftFailure, Session.runFrom_pure, hfront]

/-- A successful call has made a chunk, or it was a rekey. -/
theorem runOn_perform_of_ok {call : SendCall} {made : Option Bytes}
    (h : (call.perform.runOn s).result = .ok made) :
    (∃ out, call.sends = some out ∧ call.perform.runOn s = s.chunkOutcome out) ∨
      call.sends = none ∧
        call.perform.runOn s = { result := .ok none, state := s.renewed, log := [.rekeyed] } := by
  cases call with
  | push out =>
    obtain ⟨f, hrun⟩ | ⟨c, mac, log, hrun⟩ := s.push_state_cases out.plaintext out.ad out.tag []
    · simp [SendCall.perform, Session.runOn, hrun] at h
    · obtain ⟨hopen, hm, -⟩ := s.push_eq_ok_iff.mp ⟨congrArg Outcome.result hrun, rfl⟩
      exact Or.inl ⟨out, rfl, s.runOn_perform_push hopen hm⟩
  | pushInto buffer out =>
    obtain ⟨cause, hrun⟩ | ⟨-, hrun⟩ := s.pushInto_cases out.plaintext out.ad buffer out.tag []
    · simp [SendCall.perform, Session.runOn, hrun] at h
    · exact Or.inl ⟨out, rfl, s.runFrom_perform_pushInto hrun⟩
  | rekey => exact Or.inr ⟨rfl, by simp [SendCall.perform, Session.runOn, runFrom_rekey]⟩

namespace History

variable {h h' : History}

/-- The chunks with one more, made in the state that is there now. -/
def sending (h : History) (call : SendCall) (out : Outgoing) : List Sent :=
  h.sent ++ [{ state := h.state, call, chunk := h.state.outChunk out }]

theorem follow_of_chunk {call : SendCall} {out : Outgoing}
    (hrun : call.perform.runOn h.state = h.state.chunkOutcome out) :
    h.follow call = .ok (
      if h.state.renews (h.state.outMac out) out.tag then
        h.renew (h.sending call out) (h.state.stepped (h.state.outMac out)) (h.state.after out)
      else h.goOn (h.sending call out) (h.state.after out)) := by
  have hreported := h.state.contains_rekeyed_nextLog (h.state.outMac out) out.tag
    out.plaintext.length
  simp only [follow, hrun, chunkOutcome, Failure.ok_bind, hreported, macOf_outChunk]
  split <;> rfl

/-- The step lemma: a call makes a chunk, a chunk and a rekey behind it, or a rekey. -/
theorem follow_cases {call : SendCall} (hcall : h.follow call = .ok h') :
    (∃ out, call.sends = some out ∧ h.state.renews (h.state.outMac out) out.tag = false ∧
      h' = h.goOn (h.sending call out) (h.state.stepped (h.state.outMac out))) ∨
    (∃ out, call.sends = some out ∧ h.state.renews (h.state.outMac out) out.tag = true ∧
      h' =
        h.renew (h.sending call out) (h.state.stepped (h.state.outMac out)) (h.state.after out)) ∨
    (call.sends = none ∧ h' = h.renew h.sent h.state h.state.renewed) := by
  cases hresult : (call.perform.runOn h.state).result with
  | error f => simp [follow, hresult] at hcall
  | ok made =>
    obtain ⟨out, hsends, hrun⟩ | ⟨hsends, hrun⟩ := h.state.runOn_perform_of_ok hresult
    · rw [follow_of_chunk hrun, Except.ok.injEq] at hcall
      cases hrenews : h.state.renews (h.state.outMac out) out.tag with
      | true =>
        rw [hrenews, if_pos rfl] at hcall
        exact Or.inr (Or.inl ⟨out, hsends, hrenews, hcall.symm⟩)
      | false =>
        rw [hrenews, if_neg Bool.false_ne_true, after, ← outMac,
          h.state.next_of_not_renews hrenews] at hcall
        exact Or.inl ⟨out, hsends, hrenews, hcall.symm⟩
    · simp only [follow, hrun, Failure.ok_bind] at hcall
      exact Or.inr (Or.inr ⟨hsends, (Except.ok.inj hcall).symm⟩)

/-! ## The states of a run -/

/-- What a sender has made so far, from its first state on and by these calls. -/
structure Traced (begun : SecretStream) (calls : List SendCall) (h : History) : Prop where
  /-- Every epoch begins in the state behind the rekey before it. -/
  starts : h.epochs.map Epoch.start = begun :: h.ended.map Epoch.behind
  made : ∀ e ∈ h.epochs, e.Made
  /-- Every call that sends has its place. -/
  calls : (h.epochs.flatMap Epoch.sent).map Sent.call = calls.filter (·.sends.isSome)

theorem current_eq (h : History) : h.current = ⟨h.start, h.sent, h.state, h.state.renewed⟩ := by
  simp [current, Session.runOn, runFrom_rekey]

theorem current_mem (h : History) : h.current ∈ h.epochs :=
  List.mem_append_right _ (List.mem_singleton_self _)

/-- At the start of an epoch there are no chunks. -/
theorem made_current {h : History} (hsent : h.sent = []) (hstart : h.start = h.state) :
    h.current.Made := by
  rw [current_eq, hsent, hstart]
  exact ⟨rfl, fun c hc => absurd hc List.not_mem_nil, rfl⟩

theorem traced_ofHeader (key : FixedBytes 32) (header : Header) :
    Traced (SecretStream.ofHeader key header) [] (ofHeader key header) where
  starts := rfl
  made e he := by
    rw [List.mem_singleton.mp he]
    exact made_current rfl rfl
  calls := rfl

variable {begun : SecretStream} {calls : List SendCall}

/-- The current epoch with one more chunk. -/
theorem Traced.sending (ht : Traced begun calls h) {call : SendCall} {out : Outgoing}
    (hsends : call.sends = some out) {behind : SecretStream}
    (hbehind : { behind with finalized := h.state.finalized } =
      (h.state.stepped (h.state.outMac out)).renewed) :
    Epoch.Made
      ⟨h.start, h.sending call out, h.state.stepped (h.state.outMac out), behind⟩ := by
  rw [← macOf_outChunk] at hbehind ⊢
  exact (ht.made _ h.current_mem).concat rfl (by rw [hsends]; rfl) hbehind

theorem map_start_epochs (h : History) :
    h.epochs.map Epoch.start = h.ended.map Epoch.start ++ [h.start] := by
  rw [epochs, List.map_append]
  rfl

/-- The calls of a history are those of the ended epochs and those since then. -/
theorem map_call_epochs (h : History) :
    (h.epochs.flatMap Epoch.sent).map Sent.call =
      (h.ended.flatMap Epoch.sent).map Sent.call ++ h.sent.map Sent.call := by
  rw [epochs, List.flatMap_append, List.flatMap_singleton, List.map_append]
  rfl

theorem map_call_sending (h : History) {call : SendCall} {out : Outgoing}
    (hsends : call.sends = some out) :
    (h.sending call out).map Sent.call =
      h.sent.map Sent.call ++ [call].filter (·.sends.isSome) := by
  simp [History.sending, hsends]

/-- The epoch goes on with one more call. -/
theorem Traced.goOn (ht : Traced begun calls h) {sent : List Sent} {state : SecretStream}
    (hmade : (h.goOn sent state).current.Made) {call : SendCall}
    (hcalls : sent.map Sent.call = h.sent.map Sent.call ++ [call].filter (·.sends.isSome)) :
    Traced begun (calls ++ [call]) (h.goOn sent state) where
  starts := by
    have hstarts := ht.starts
    rw [map_start_epochs] at hstarts ⊢
    exact hstarts
  made e he := by
    obtain hended | hcurrent := List.mem_append.mp he
    · exact ht.made e (List.mem_append_left _ hended)
    · rw [List.mem_singleton.mp hcurrent]
      exact hmade
  calls := by
    rw [List.filter_append, ← ht.calls, map_call_epochs, map_call_epochs, List.append_assoc,
      ← hcalls]
    rfl

/-- A rekey ends the epoch, and the next one begins. -/
theorem Traced.renew (ht : Traced begun calls h) {sent : List Sent} {rekey behind : SecretStream}
    (hmade : Epoch.Made ⟨h.start, sent, rekey, behind⟩) {call : SendCall}
    (hcalls : sent.map Sent.call = h.sent.map Sent.call ++ [call].filter (·.sends.isSome)) :
    Traced begun (calls ++ [call]) (h.renew sent rekey behind) where
  starts := by
    have hstarts := ht.starts
    rw [map_start_epochs] at hstarts ⊢
    simp only [History.renew, List.map_append, List.map_singleton, hstarts, List.cons_append]
  made e he := by
    obtain hended | hcurrent := List.mem_append.mp he
    · obtain hbefore | hnew := List.mem_append.mp hended
      · exact ht.made e (List.mem_append_left _ hbefore)
      · rw [List.mem_singleton.mp hnew]
        exact hmade
    · rw [List.mem_singleton.mp hcurrent]
      exact made_current rfl rfl
  calls := by
    rw [List.filter_append, ← ht.calls, map_call_epochs, map_call_epochs, List.append_assoc,
      ← hcalls]
    simp [History.renew]

/-- A call is traced. -/
theorem Traced.follow (ht : Traced begun calls h) {call : SendCall}
    (hcall : h.follow call = .ok h') : Traced begun (calls ++ [call]) h' := by
  obtain ⟨out, hsends, hrenews, rfl⟩ | ⟨out, hsends, hrenews, rfl⟩ | ⟨hsends, rfl⟩ :=
    follow_cases hcall
  · refine ht.goOn ?_ (h.map_call_sending hsends)
    rw [current_eq]
    exact ht.sending hsends rfl
  · have hnext := h.state.next_eq_stepped_or_renewed (h.state.outMac out) out.tag
    rw [hrenews, if_pos rfl] at hnext
    exact ht.renew (ht.sending hsends hnext) (h.map_call_sending hsends)
  · have hcurrent := ht.made _ h.current_mem
    rw [current_eq] at hcurrent
    exact ht.renew hcurrent (by simp [hsends])

/-- The run lemma. -/
theorem Traced.followAll (ht : Traced begun calls h) {more : List SendCall}
    (hcalls : h.followAll more = .ok h') : Traced begun (calls ++ more) h' := by
  induction more generalizing h calls with
  | nil =>
    cases hcalls
    rwa [List.append_nil]
  | cons call more ih =>
    cases hcall : h.follow call with
    | error f => simp [History.followAll, hcall] at hcalls
    | ok next =>
      have hrest : next.followAll more = .ok h' := by
        simpa [History.followAll, hcall] using hcalls
      have hall := ih (ht.follow hcall) hrest
      rwa [List.append_assoc] at hall

/-! ## The counters of a run -/

/-- The counter is the number of the next chunk in its epoch. -/
structure Counted (h : History) : Prop where
  state : h.state.count = 1 + h.chunks.length
  first : h.chunks = [] → h.state.counter = firstCounter
  chunks : h.chunks.map count = List.range' 1 h.chunks.length
  key : ∀ s ∈ h.chunks, s.key = h.state.key
  ended : ∀ e ∈ h.ended, e.Counted

theorem chunks_sending (h : History) (call : SendCall) (out : Outgoing) :
    (h.sending call out).map Sent.state = h.chunks ++ [h.state] := by
  rw [History.sending, List.map_append]
  rfl

theorem Counted.lt (hc : h.Counted) : 1 + h.chunks.length < 2 ^ 32 := by
  rw [← hc.state]
  exact h.state.count_lt

theorem Counted.current (hc : h.Counted) : h.current.Counted where
  lt := Nat.lt_of_le_of_lt (Nat.le_add_left _ 1) hc.lt
  chunks := hc.chunks
  rekey := by
    show h.state.count = (1 + h.chunks.length) % 2 ^ 32
    rw [Nat.mod_eq_of_lt hc.lt]
    exact hc.state
  key := hc.key

theorem Counted.epochs (hc : h.Counted) : ∀ e ∈ h.epochs, e.Counted := by
  intro e he
  obtain hended | hcurrent := List.mem_append.mp he
  · exact hc.ended e hended
  · rw [List.mem_singleton.mp hcurrent]
    exact hc.current

/-- One more chunk has the next number. -/
theorem Counted.map_concat (hc : h.Counted) :
    (h.chunks ++ [h.state]).map count = List.range' 1 (h.chunks ++ [h.state]).length := by
  rw [List.map_append, hc.chunks, List.length_append, List.length_singleton, List.range'_concat,
    List.map_singleton, hc.state, Nat.one_mul]

theorem Counted.key_concat (hc : h.Counted) :
    ∀ s ∈ h.chunks ++ [h.state], s.key = h.state.key := by
  intro k hk
  obtain hbefore | hlast := List.mem_append.mp hk
  · exact hc.key k hbefore
  · rw [List.mem_singleton.mp hlast]

/-- The epoch that a rekey ends behind one more chunk. -/
theorem Counted.sending (hc : h.Counted) (call : SendCall) (out : Outgoing) (mac : Tag 16)
    (behind : SecretStream) :
    Epoch.Counted ⟨h.start, h.sending call out, h.state.stepped mac, behind⟩ := by
  have hchunks := h.chunks_sending call out
  refine ⟨?_, ?_, ?_, ?_⟩ <;> rw [Epoch.chunks, hchunks]
  · have hlt := hc.lt
    rw [List.length_append, List.length_singleton]
    omega
  · exact hc.map_concat
  · rw [count_stepped, hc.state, List.length_append, List.length_singleton, Nat.add_assoc]
  · exact hc.key_concat

/-- Behind a rekey the counter is one. -/
theorem Counted.renew (hc : h.Counted) {sent : List Sent} {rekey behind : SecretStream}
    (hnew : Epoch.Counted ⟨h.start, sent, rekey, behind⟩) (hfirst : behind.counter = firstCounter) :
    (h.renew sent rekey behind).Counted where
  state := by
    show behind.count = 1
    rw [count, hfirst]
    rfl
  first _ := hfirst
  chunks := rfl
  key _ hk := absurd hk List.not_mem_nil
  ended e he := by
    obtain hbefore | hlast := List.mem_append.mp he
    · exact hc.ended e hbefore
    · rw [List.mem_singleton.mp hlast]
      exact hnew

theorem counted_ofHeader (key : FixedBytes 32) (header : Header) :
    (ofHeader key header).Counted where
  state := rfl
  first _ := rfl
  chunks := rfl
  key _ hk := absurd hk List.not_mem_nil
  ended _ he := absurd he List.not_mem_nil

/-- A call keeps the counters in step. -/
theorem Counted.follow (hc : h.Counted) {call : SendCall} (hcall : h.follow call = .ok h') :
    h'.Counted := by
  obtain ⟨out, -, hrenews, rfl⟩ | ⟨out, -, hrenews, rfl⟩ | ⟨-, rfl⟩ := follow_cases hcall
  · have hlt := hc.lt
    have hchunks : (h.goOn (h.sending call out)
        (h.state.stepped (h.state.outMac out))).chunks = h.chunks ++ [h.state] :=
      h.chunks_sending call out
    obtain ⟨hcount, hnonzero⟩ := h.state.count_stepped_of_not_renews hrenews
    rw [hc.state] at hcount
    refine ⟨?_, ?_, ?_, ?_, hc.ended⟩ <;> rw [hchunks]
    · -- A counter that has not come round to zero is one more than before.
      rw [List.length_append, List.length_singleton]
      show (h.state.stepped (h.state.outMac out)).count = _
      omega
    · exact fun hnil => absurd hnil (by simp)
    · exact hc.map_concat
    · exact hc.key_concat
  · exact hc.renew (hc.sending call out _ _) (h.state.counter_next_of_renews hrenews)
  · have hcurrent := hc.current
    rw [current_eq] at hcurrent
    exact hc.renew hcurrent rfl

/-- The run lemma. -/
theorem Counted.followAll (hc : h.Counted) {calls : List SendCall}
    (hcalls : h.followAll calls = .ok h') : h'.Counted := by
  induction calls generalizing h with
  | nil =>
    cases hcalls
    exact hc
  | cons call calls ih =>
    cases hcall : h.follow call with
    | error f => simp [History.followAll, hcall] at hcalls
    | ok next =>
      refine ih (hc.follow hcall) ?_
      simpa [History.followAll, hcall] using hcalls

end History

/-- No keystream is used twice in an epoch. Behind any successful pushes and rekeys from the
start of a stream, the counter is never zero and is the number of the next chunk in the epoch;
where an epoch begins it is one. Every chunk of the run has its place in an epoch. The first epoch
begins with the start of the stream and each other one behind the rekey before it. In every epoch
the states follow from one another by the chunks, and the chunks and the rekey are made with the
keystream of these states. The chunks have the counters from one on, and the ciphers that are made,
for the chunks and for the rekey at the end, have one key, and no two of them have the same
counter, the same nonce or a square in common, so that no block of the one is a block of the
other. -/
theorem no_keystream_reuse_in_epoch (key : FixedBytes 32) (header : Header)
    (calls : List SendCall) (h : History)
    (hrun : (History.ofHeader key header).followAll calls = .ok h) :
    h.state.count ≠ 0 ∧ h.state.count = 1 + h.chunks.length ∧
      (h.chunks = [] → h.state.counter = firstCounter) ∧
      (h.epochs.flatMap Epoch.sent).map Sent.call = calls.filter (·.sends.isSome) ∧
      h.epochs.map Epoch.start = ofHeader key header :: h.ended.map Epoch.behind ∧
      ∀ e ∈ h.epochs, e.Made ∧ e.chunks.map count = List.range' 1 e.chunks.length ∧
        (∀ s ∈ e.chunks, s.key = e.rekey.key) ∧
        (e.states.map count).Nodup ∧ (e.states.map nonce).Nodup ∧ e.states.Pairwise Apart := by
  have hc : h.Counted := (History.counted_ofHeader key header).followAll hrun
  have ht : History.Traced (ofHeader key header) calls h :=
    (History.traced_ofHeader key header).followAll hrun
  refine ⟨?_, hc.state, hc.first, ht.calls, ht.starts, fun e he => ?_⟩
  · rw [hc.state]
    omega
  · have hepoch := hc.epochs e he
    exact ⟨ht.made e he, hepoch.chunks, hepoch.key, hepoch.nodup, hepoch.nodup_nonce,
      hepoch.pairwise_apart⟩

/-- A chunk, and another one behind which the stream is rekeyed: three ciphers. -/
theorem no_keystream_reuse_of_two_chunks :
    ∃ h e, (History.ofHeader (.zero 32) (.zero 24)).followAll
        [.push ⟨[7], [1], .message⟩, .push ⟨[], [], .rekey⟩] = .ok h ∧
      h.ended = [e] ∧ e.states.length = 3 ∧ e.Made ∧ e.states.Pairwise Apart := by
  obtain ⟨begun, hbegun⟩ : ∃ s, s = ofHeader (.zero 32) (.zero 24) := ⟨_, rfl⟩
  obtain ⟨out, hout⟩ : ∃ out : Outgoing, out = ⟨[7], [1], .message⟩ := ⟨_, rfl⟩
  obtain ⟨last, hlast⟩ : ∃ out : Outgoing, out = ⟨[], [], .rekey⟩ := ⟨_, rfl⟩
  have hopen : begun.finalized = false := hbegun ▸ rfl
  have hcounter : begun.counter = firstCounter := hbegun ▸ rfl
  have hmore : (begun.after out).finalized = false := by
    rw [after, finalized_next, hopen, hout]
    rfl
  have hkeeps : begun.renews (begun.outMac out) out.tag = false := by
    rw [renews, stepped, hcounter, hout]
    rfl
  have hrenews : ∀ mac, (begun.after out).renews mac last.tag = true := by
    intro mac
    rw [hlast]
    rfl
  have hfirst : History.follow ⟨begun, [], begun, []⟩ (.push out) =
      .ok ⟨begun.after out, [], begun, [⟨begun, .push out, begun.outChunk out⟩]⟩ := by
    rw [History.follow_of_chunk (begun.runOn_perform_push hopen (by rw [hout]; decide)),
      if_neg (Bool.eq_false_iff.mp hkeeps)]
    rfl
  obtain ⟨h, e, hsecond, hended, hlength⟩ :
      ∃ h e, History.follow ⟨begun.after out, [], begun, [⟨begun, .push out, begun.outChunk out⟩]⟩
        (.push last) = .ok h ∧ h.ended = [e] ∧ e.states.length = 3 := by
    rw [History.follow_of_chunk (runOn_perform_push _ hmore (by rw [hlast]; decide)),
      if_pos (hrenews _)]
    exact ⟨_, _, rfl, rfl, rfl⟩
  have hrun : (History.ofHeader (.zero 32) (.zero 24)).followAll [.push out, .push last] =
      .ok h := by
    have hstart : History.ofHeader (.zero 32) (.zero 24) = ⟨begun, [], begun, []⟩ := hbegun ▸ rfl
    rw [hstart, History.followAll, List.foldlM_cons, hfirst, Failure.ok_bind, List.foldlM_cons,
      hsecond]
    rfl
  obtain ⟨-, -, -, -, -, hepochs⟩ := no_keystream_reuse_in_epoch _ _ _ _ hrun
  have he : e ∈ h.epochs := List.mem_append_left _ (hended ▸ List.mem_singleton_self e)
  obtain ⟨hmade, -, -, -, -, hapart⟩ := hepochs e he
  subst hout hlast
  exact ⟨h, e, hrun, hended, hlength, hmade, hapart⟩

end SecretStream

end AuthEncryption
