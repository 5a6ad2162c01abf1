import AuthEncryption.Proofs.Transfer.Cutting
import AuthEncryption.Proofs.Transfer.Truncation

/-!
# A source is encrypted

A source and a sink fail independently of each other. What a source delivers before its end, an
empty read or a failure is one text, however it comes in, and a writer that pumps the source does
what it does if it is given this text at once and then the failure, if there was one. So the sink
takes a front of the stream of the text: all of it if nothing fails but the flush, and otherwise
not all of it, as the final chunk is sent only behind a source that ended well.
-/
namespace AuthEncryption

open Bytes (ShortOf)
open SecretStream

namespace Source

/-- What a source delivers up to its first empty read or its first failure but an interruption. -/
def deliverable : Source → Bytes
  | [] => []
  | .data piece :: rest => if piece.isEmpty then [] else piece ++ deliverable rest
  | .fail kind :: rest => if kind = .interrupted then deliverable rest else []

/-- The failure at which a source stops to deliver, if it is not its end. -/
def failure : Source → Option IoKind
  | [] => none
  | .data piece :: rest => if piece.isEmpty then none else failure rest
  | .fail kind :: rest => if kind = .interrupted then failure rest else some kind

variable {source rest : Source} {n : Nat}

/-- A read that gives a string takes it from the front of what is delivered; one that gives an
empty string is the end of it. -/
theorem of_read_ok (hn : 0 < n) {got : Bytes} (h : source.read n = (.ok got, rest)) :
    got = [] ∧ source.deliverable = [] ∧ source.failure = none ∨
      got ≠ [] ∧ source.deliverable = got ++ rest.deliverable ∧ source.failure = rest.failure := by
  rcases source with _ | ⟨piece | kind, later⟩
  · cases h
    exact Or.inl ⟨rfl, rfl, rfl⟩
  · rw [read] at h
    split at h
    · cases h
      cases got with
      | nil => exact Or.inl ⟨rfl, rfl, rfl⟩
      | cons b bs => exact Or.inr ⟨List.cons_ne_nil b bs, rfl, rfl⟩
    · rename_i b left hdrop
      cases h
      have hsome : piece.isEmpty = false := by
        cases piece with
        | nil => simp at hdrop
        | cons b bs => rfl
      refine Or.inr ⟨?_, ?_, ?_⟩
      · intro hnone
        rcases List.take_eq_nil_iff.mp hnone with hzero | rfl
        · omega
        · cases hsome
      · simp only [deliverable, hsome, Bool.false_eq_true, if_false, List.isEmpty_cons]
        rw [← List.append_assoc, ← hdrop, List.take_append_drop]
      · simp only [failure, hsome, Bool.false_eq_true, if_false, List.isEmpty_cons]
  · cases h

/-- A read that fails is passed over if it was interrupted, and is the end otherwise. -/
theorem of_read_error {kind : IoKind} (h : source.read n = (.error kind, rest)) :
    source.deliverable = (if kind = .interrupted then rest.deliverable else []) ∧
      source.failure = (if kind = .interrupted then rest.failure else some kind) := by
  rcases source with _ | ⟨piece | kind', later⟩
  · cases h
  · rw [read] at h
    split at h <;> cases h
  · cases h
    exact ⟨rfl, rfl⟩

end Source

/-! ## What is taken of a stream -/

/-- How sending a stream to a sink ends, if what it is made from came with a failure or not, and
what of it was taken: all of it if nothing fails, or only the flush does, and else a front that is
not all of it. -/
inductive Emitted (sink : Sink) (failure : Option IoKind) (stream : Bytes) :
    Except Failure Unit → Bytes → Prop
  | whole : failure = none → Emitted sink failure stream (.ok ()) stream
  | unflushed (kind : IoKind) : failure = none → ¬ sink.Smooth →
      Emitted sink failure stream (.error (.error (.io "stream flush" kind))) stream
  | short {f : Failure} {sent : Bytes} : ShortOf sent stream →
      (∀ kind, f ≠ .error (.io "stream flush" kind)) → (sink.Smooth → failure ≠ none) →
      Emitted sink failure stream (.error f) sent

namespace Emitted

variable {sink : Sink} {failure : Option IoKind} {stream sent : Bytes}
  {result : Except Failure Unit}

theorem isFront (h : Emitted sink failure stream result sent) : sent <+: stream := by
  cases h with
  | whole => exact List.prefix_refl _
  | unflushed kind => exact List.prefix_refl _
  | short hshort => exact hshort.isFront

theorem eq_iff (h : Emitted sink failure stream result sent) :
    sent = stream ↔
      result = .ok () ∨ ∃ kind, result = .error (.error (.io "stream flush" kind)) := by
  cases h with
  | whole => simp
  | unflushed kind => simp
  | short hshort hother => simp [hshort.ne, hother]

theorem ne_of_failure (h : Emitted sink failure stream result sent) (hfailed : failure ≠ none) :
    sent ≠ stream := by
  cases h with
  | whole hnone => exact absurd hnone hfailed
  | unflushed kind hnone => exact absurd hnone hfailed
  | short hshort => exact hshort.ne

theorem ok_of_smooth (h : Emitted sink failure stream result sent) (hs : sink.Smooth)
    (hnone : failure = none) : result = .ok () := by
  cases h with
  | whole => rfl
  | unflushed kind _ hrough => exact absurd hs hrough
  | short _ _ hcause => exact absurd hnone (hcause hs)

end Emitted

namespace Writer

variable {w w₁ : Writer} {key : FixedBytes 32} {header : Header} {ad : Bytes} {c : Nat}
  {sink : Sink}

/-- A failure within the chunks of a text leaves a front of the stream. -/
theorem shortOf_of_stopped (h : Started key header ad c sink w) (hsize : c + overhead < UInt32.size)
    {text : Bytes} {f : Failure} (hstopped : Stopped w (chunksOf ad c text) w₁ f) :
    ∃ sent, w₁.sink.taken = sink.taken ++ sent ∧ ShortOf sent (streamOf key header ad c text) ∧
      (∀ kind, f ≠ .error (.io "stream flush" kind)) ∧ ¬ sink.Smooth := by
  obtain ⟨front, htaken, hfront⟩ := hstopped.taken
  rw [h.stream] at hfront
  refine ⟨header.toList ++ front, ?_, hfront.append_left _, ?_⟩
  · rw [htaken, h.taken, List.append_assoc]
  · rcases hstopped.cause with ⟨⟨kind, rfl⟩, hrough⟩ | ⟨out, hmem, hlong⟩
    · exact ⟨by simp, hrough ∘ h.smooth⟩
    · have hshort := (of_mem_chunksOf (h.chunkSize ▸ w.chunkSize_pos) hmem).2
      omega

/-- A run of chunks that was taken without the final one is a front of the stream. -/
theorem shortOf_fullChunks (key : FixedBytes 32) (header : Header) (ad : Bytes) (c : Nat)
    (text : Bytes) :
    ShortOf (header.toList ++ (ofHeader key header).frames (fullChunks ad c text))
      (streamOf key header ad c text) := by
  have hlast : ShortOf [] (((ofHeader key header).afterAll (fullChunks ad c text)).frames
      [{ plaintext := Bytes.leftover c text, ad, tag := .final }]) := by
    rw [frames_singleton]
    exact .of_ne_nil (Frame.ofChunk_ne_nil _)
  have hall := (hlast.append_left
    ((ofHeader key header).frames (fullChunks ad c text))).append_left header.toList
  rwa [List.append_nil, ← frames_append] at hall

end Writer

namespace Pipe

open Writer

/-- Stops with the failure of a source, if there is one. -/
def stop : Option IoKind → Session Writer Unit
  | none => pure ()
  | some kind => throw (.error (.io "stream read" kind))

/-- Pumping a source is writing all that it delivers, and then failing if it does. -/
theorem seen_pump (source : Source) {w : Writer} (hopen : w.stream.finalized = false)
    (hshort : w.buffer.length < w.chunkSize) (log : Log) :
    seen ((pump source).runFrom w log) =
      seen ((do write source.deliverable; stop source.failure).runFrom w log) := by
  have hportion : 0 < portion := by decide
  fun_induction pump source generalizing w log with
  | case1 source rest hread =>
    obtain ⟨-, hnone, hend⟩ | ⟨hsome, -⟩ := Source.of_read_ok hportion hread
    · rw [hnone, hend, Session.runFrom_bind, runFrom_write_nil hshort]
      rfl
    · exact absurd rfl hsome
  | case2 source b bs rest hread ih =>
    obtain ⟨hnone, -⟩ | ⟨-, htext, hfailure⟩ := Source.of_read_ok hportion hread
    · cases hnone
    rw [htext, hfailure]
    calc seen ((do write (b :: bs); pump rest).runFrom w log)
        = seen ((do write (b :: bs); write rest.deliverable; stop rest.failure).runFrom w log) :=
          seen_bind_congr rfl fun w₁ log₁ hrun =>
            ih (of_write hopen hrun).1 (of_write hopen hrun).2 log₁
      _ = seen ((do
            (do write (b :: bs); write rest.deliverable)
            stop rest.failure).runFrom w log) := by
          rw [bind_assoc]
      _ = seen ((do write ((b :: bs) ++ rest.deliverable); stop rest.failure).runFrom w log) :=
          (seen_bind_congr (seen_write_append hopen (b :: bs) rest.deliverable log)
            fun _ _ _ => rfl).symm
  | case3 source rest hread ih =>
    obtain ⟨htext, hfailure⟩ := Source.of_read_error hread
    rw [htext, hfailure]
    exact ih hopen hshort log
  | case4 source kind rest hkind hread =>
    obtain ⟨hnone, hend⟩ := Source.of_read_error hread
    rw [if_neg hkind] at hnone hend
    rw [hnone, hend, Session.runFrom_bind, runFrom_write_nil hshort]
    rfl

/-- Sends a text at once under a header, and then fails if a source did. -/
def sendText (key : FixedBytes 32) (header : Header) (ad text : Bytes) (failure : Option IoKind) :
    Session Sink Unit := do
  let writer ← create key header ad defaultChunkSize
  (do write text; stop failure; finalize : Session Writer Unit).focus
    (fun sink => { writer with sink }) (fun _ w => w.sink)

variable {key : FixedBytes 32} {header : Header} {ad text : Bytes} {random : RandomSource}
  {failure : Option IoKind}

/-- How a source delivers its text makes no difference. -/
theorem runFrom_encrypt (key : FixedBytes 32) (ad : Bytes)
    (hheader : (Header.random.runOn random).1 = .ok header) (source : Source) (sink : Sink)
    (log : Log) :
    (encrypt key ad random source).runFrom sink log =
      (sendText key header ad source.deliverable source.failure).runFrom sink log := by
  simp only [encrypt, createRandom, sendText, Session.runFrom_bind, Session.runFrom_liftError,
    hheader, Failure.mapError_ok]
  rcases hcreate : (create key header ad defaultChunkSize).runFrom sink log with
    ⟨result, after, log₁⟩
  cases result with
  | error f => rfl
  | ok w =>
    obtain ⟨rfl, hstarted⟩ := started_of_create hcreate
    have hshort : w.buffer.length < w.chunkSize := by
      rw [hstarted.buffer]
      exact w.chunkSize_pos
    have hsame : seen ((do pump source; finalize).runFrom w log₁) =
        seen ((do write source.deliverable; stop source.failure; finalize).runFrom w log₁) := by
      rw [← bind_assoc]
      exact seen_bind_congr (seen_pump source hstarted.unfinished hshort log₁) fun _ _ _ => rfl
    exact runFrom_focus_of_seen hsame

/-- What is taken of a text, and never the final chunk if the source failed. -/
theorem emitted_of_started {w : Writer} {c : Nat} {sink : Sink}
    (h : Started key header ad c sink w) (hsize : c + overhead < UInt32.size) (text : Bytes)
    (failure : Option IoKind) (log : Log) :
    ∃ sent, ((do write text; stop failure; finalize : Session Writer Unit).runFrom w log
          ).state.sink.taken = sink.taken ++ sent ∧
      Emitted sink failure (streamOf key header ad c text)
        ((do write text; stop failure; finalize : Session Writer Unit).runFrom w log).result
        sent := by
  have hwrite := sends_write h.unfinished (behind_nil h.buffer) text log
  rw [List.nil_append, h.ad, h.chunkSize] at hwrite
  rw [Session.runFrom_bind]
  generalize (write text).runFrom w log = outcome at hwrite
  cases hwrite with
  | stopped hstopped =>
    obtain ⟨sent, htaken, hshort, hother, hrough⟩ :=
      shortOf_of_stopped h hsize (hstopped.append _)
    exact ⟨sent, htaken, .short hshort hother fun hs => absurd hs hrough⟩
  | @all w₁ log₁ hput hbuffer =>
    cases failure with
    | some kind =>
      have hshort := shortOf_fullChunks key header ad c text
      simp only [stop, Session.runFrom_bind, Session.runFrom_throw]
      refine ⟨_, ?_, .short hshort (by simp) fun _ => by simp⟩
      rw [hput.taken, h.taken, h.stream, List.append_assoc]
    | none =>
      have hbehind : Behind w text w₁ :=
        ⟨h.ad.symm ▸ h.chunkSize.symm ▸ hput, h.chunkSize.symm ▸ hbuffer⟩
      -- All the chunks, the final one included, were taken.
      have hwhole : ∀ w₂, Put w (chunksOf ad c text) w₂ →
          w₂.sink.taken = sink.taken ++ streamOf key header ad c text := by
        intro w₂ hput₂
        rw [hput₂.taken, h.taken, h.stream, List.append_assoc]
        rfl
      have hfinal := sends_finalize h.unfinished hbehind log₁
      rw [h.ad, h.chunkSize] at hfinal
      simp only [stop, Session.runFrom_bind, Session.runFrom_pure]
      rcases hfinal with hsends | ⟨kind, w₂, log₂, hrun, hput₂, hflush⟩
      · generalize finalize.runFrom w₁ log₁ = outcome at hsends ⊢
        cases hsends with
        | all hput₂ hempty => exact ⟨_, hwhole _ hput₂, .whole rfl⟩
        | stopped hstopped =>
          obtain ⟨sent, htaken, hshort, hother, hrough⟩ := shortOf_of_stopped h hsize hstopped
          exact ⟨sent, htaken, .short hshort hother fun hs => absurd hs hrough⟩
      · rw [hrun]
        exact ⟨_, hwhole _ hput₂, .unflushed kind rfl (hput₂.not_smooth hflush ∘ h.smooth)⟩

theorem emitted_of_sendText (key : FixedBytes 32) (header : Header) (ad text : Bytes)
    (failure : Option IoKind) (sink : Sink) (log : Log) :
    ∃ sent, ((sendText key header ad text failure).runFrom sink log).state.taken =
          sink.taken ++ sent ∧
      Emitted sink failure (streamOf key header ad defaultChunkSize text)
        ((sendText key header ad text failure).runFrom sink log).result sent := by
  have hc : 0 < defaultChunkSize := by decide
  have hcapacity : defaultChunkSize ≤ capacityLimit := by decide
  have hsize : defaultChunkSize + overhead < UInt32.size := by decide
  rcases create_cases hc hcapacity key header ad sink log with
    ⟨w, log₁, hcreate, hstarted⟩ | ⟨kind, front, after, log₁, hcreate, htaken, hfront, hrough⟩
  · simp only [sendText, Session.runFrom_bind, hcreate, Session.runFrom_focus]
    have hall := emitted_of_started hstarted hsize text failure log₁
    simp only [Session.runFrom_bind] at hall
    exact hall
  · simp only [sendText, Session.runFrom_bind, hcreate]
    have hshort : ShortOf front (streamOf key header ad defaultChunkSize text) := hfront.append _
    exact ⟨front, htaken, .short hshort (by simp) fun hs => absurd hs hrough⟩

end Pipe

open Pipe Writer in
/-- What is encrypted is a front of one stream. Under a header from the random source, and with the
text that the source delivers up to its end, an empty read or a failure, the sink takes a front of
the stream of that text, cut at the default size, whatever the sink does and wherever it fails. It
takes all of it exactly if nothing fails, or only the flush behind it, and never if the source
failed; and nothing fails if the sink takes everything and the source did not fail. What is not all
of the stream is reported as truncated where it is decrypted. How the source cuts the text makes no
difference at all. -/
theorem encrypt_sends_front (key : FixedBytes 32) (ad : Bytes) {random : RandomSource}
    {header : Header} (hheader : (Header.random.runOn random).1 = .ok header) (source : Source)
    (sink : Sink) :
    ∃ sent stream, stream = streamOf key header ad defaultChunkSize source.deliverable ∧
      ((encrypt key ad random source).runOn sink).state.taken = sink.taken ++ sent ∧
      sent <+: stream ∧
      (sent = stream ↔ ((encrypt key ad random source).runOn sink).result = .ok () ∨
        ∃ kind, ((encrypt key ad random source).runOn sink).result =
          .error (.error (.io "stream flush" kind))) ∧
      (source.failure ≠ none → sent ≠ stream) ∧
      (sink.Smooth → source.failure = none →
        ((encrypt key ad random source).runOn sink).result = .ok ()) ∧
      (sent ≠ stream → ∀ received : Source, received.Smooth → received.bytes = sent →
        ∀ out : Sink, out.Smooth →
          ((decrypt key ad received).runOn out).result = .error Frame.truncated) ∧
      ∀ other : Source, other.deliverable = source.deliverable → other.failure = source.failure →
        (encrypt key ad random other).runOn sink = (encrypt key ad random source).runOn sink := by
  have hrun := runFrom_encrypt key ad hheader source sink []
  obtain ⟨sent, htaken, hemitted⟩ :=
    emitted_of_sendText key header ad source.deliverable source.failure sink []
  rw [← hrun] at htaken hemitted
  refine ⟨sent, _, rfl, htaken, hemitted.isFront, hemitted.eq_iff, hemitted.ne_of_failure,
    hemitted.ok_of_smooth, ?_, ?_⟩
  · rintro hne received hs rfl out hout
    have hsizes : ∀ later ∈ chunksOf ad defaultChunkSize source.deliverable,
        later.plaintext.length + overhead < UInt32.size := by
      intro later hmem
      have hle := (of_mem_chunksOf (by decide) hmem).2
      have hsize : defaultChunkSize + overhead < UInt32.size := by decide
      omega
    exact (decrypt_cut (by decide) (by decide) hsizes hs ⟨hemitted.isFront, hne⟩ hout).1
  · intro other htext hfailure
    rw [Session.runOn, Session.runOn, runFrom_encrypt key ad hheader, hrun, htext, hfailure]

open Pipe Writer in
/-- Three bytes in two pieces and then a failure, into a sink that takes three bytes first. -/
theorem encrypt_sends_front_of_three_bytes :
    (Header.random.runOn (.ofScript (Bytes.zeros 24) "scripted")).1 = .ok (.zero 24) ∧
      ∃ sent : Bytes,
        ((encrypt (.zero 32) [5] (.ofScript (Bytes.zeros 24) "scripted")
            [.data [1, 2], .fail .interrupted, .data [3], .fail .brokenPipe]).runOn
          ⟨[], [.accept 3, .fail .interrupted], none⟩).state.taken = sent ∧
        sent <+: streamOf (.zero 32) (.zero 24) [5] defaultChunkSize [1, 2, 3] ∧
        sent ≠ streamOf (.zero 32) (.zero 24) [5] defaultChunkSize [1, 2, 3] ∧
        ((decrypt (.zero 32) [5] (sent.map fun b => .data [b])).runOn ⟨[], [], none⟩).result =
          .error Frame.truncated ∧
        (encrypt (.zero 32) [5] (.ofScript (Bytes.zeros 24) "scripted")
            [.data [1, 2, 3], .fail .brokenPipe]).runOn
              ⟨[], [.accept 3, .fail .interrupted], none⟩ =
          (encrypt (.zero 32) [5] (.ofScript (Bytes.zeros 24) "scripted")
            [.data [1, 2], .fail .interrupted, .data [3], .fail .brokenPipe]).runOn
              ⟨[], [.accept 3, .fail .interrupted], none⟩ := by
  have hheader : (Header.random.runOn (.ofScript (Bytes.zeros 24) "scripted")).1 =
      .ok (.zero 24) := rfl
  have hbytes : ∀ bs : Bytes, Source.bytes (bs.map fun b => .data [b]) = bs := by
    intro bs
    induction bs with
    | nil => rfl
    | cons b bs ih => simp [Source.bytes, ih]
  obtain ⟨sent, stream, rfl, htaken, hfront, -, hfailed, -, hcut, hother⟩ :=
    encrypt_sends_front (.zero 32) [5] hheader
      [.data [1, 2], .fail .interrupted, .data [3], .fail .brokenPipe]
      ⟨[], [.accept 3, .fail .interrupted], none⟩
  have hne := hfailed (by decide)
  refine ⟨hheader, sent, htaken, hfront, hne, hcut hne _ ?_ (hbytes sent) _ ⟨by simp, rfl⟩,
    hother _ rfl rfl⟩
  simp [Source.Smooth, SourceEvent.Smooth]

end AuthEncryption
