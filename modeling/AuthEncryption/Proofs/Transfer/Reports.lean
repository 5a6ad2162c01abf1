import AuthEncryption.Proofs.SecretStream.Reports
import AuthEncryption.Proofs.Transfer.Encrypting
import AuthEncryption.Proofs.Transfer.Fragments

/-!
# What a transfer reports

Writers over sinks that take everything go alike if they have as much in their buffers and have
sent as many chunks, so what they report about two texts depends on the lengths of the texts, and
how these are cut makes no difference. A reader reports the lengths and the tags of the chunks it
takes; those of a whole stream are seen from the length of its text. With conversations over
streams this is the noninterference of the reports: no key, no header, no byte of a plaintext or of
associated data and no authenticator decides about any of them.
-/
namespace AuthEncryption

open SecretStream

/-! ## Writers -/

namespace Sink

/-- Two sinks that take everything. -/
def BothSmooth (sink sink' : Sink) : Prop := sink.Smooth ∧ sink'.Smooth

theorem alike_send (context : String) (data data' : Bytes) :
    Session.Alike BothSmooth Eq (send context data) (send context data') := by
  rintro sink sink' log ⟨hs, hs'⟩
  obtain ⟨after, hsend, hsmooth, -⟩ := runFrom_send_smooth hs context data
  obtain ⟨after', hsend', hsmooth', -⟩ := runFrom_send_smooth hs' context data'
  rw [hsend, hsend']
  exact .ok log rfl ⟨hsmooth, hsmooth'⟩

theorem alike_sync (context : String) :
    Session.Alike BothSmooth Eq (sync context) (sync context) := by
  rintro sink sink' log ⟨hs, hs'⟩
  rw [runFrom_sync, runFrom_sync, flush, flush, hs.flush, hs'.flush]
  exact .ok log rfl ⟨hs, hs'⟩

end Sink

namespace Writer

/-- Two writers over sinks that take everything, with as much in their buffers and as many chunks
sent. -/
structure SameSizes (w w' : Writer) : Prop where
  sinks : Sink.BothSmooth w.sink w'.sink
  stream : SameProgress w.stream w'.stream
  buffer : w.buffer.length = w'.buffer.length
  chunkSize : w.chunkSize = w'.chunkSize
  chunks : w.chunks = w'.chunks

variable {α β : Type} {Q : α → β → Prop} {m m' : Bytes}

theorem alike_onStream {op : Session SecretStream α} {op' : Session SecretStream β}
    (h : Session.Alike SameProgress Q op op') :
    Session.Alike SameSizes Q (onStream op) (onStream op') :=
  h.focus (fun _ _ hw => hw.stream) fun _ _ _ _ hw hs =>
    ⟨hw.sinks, hs, hw.buffer, hw.chunkSize, hw.chunks⟩

theorem alike_onSink {op : Session Sink α} {op' : Session Sink β}
    (h : Session.Alike Sink.BothSmooth Q op op') :
    Session.Alike SameSizes Q (onSink op) (onSink op') :=
  h.focus (fun _ _ hw => hw.sinks) fun _ _ _ _ hw hs =>
    ⟨hs, hw.stream, hw.buffer, hw.chunkSize, hw.chunks⟩

/-- Chunks of one length with one tag. -/
theorem alike_sendChunk (hlength : m.length = m'.length) (t : ChunkTag) :
    Session.Alike SameSizes Eq (sendChunk m t) (sendChunk m' t) := by
  refine Session.alike_get.bind fun w w' _ => ?_
  refine (alike_onStream (alike_push hlength w.ad w'.ad t)).bind fun chunk chunk' hchunk => ?_
  rw [hchunk]
  refine (Session.alike_liftError (lengthField chunk'.length)).bind ?_
  rintro field _ rfl
  refine (alike_onSink (Sink.alike_send _ field field)).next ?_
  refine (alike_onSink (Sink.alike_send _ chunk chunk')).next ?_
  refine (Session.alike_modify fun w w' hw => ?_).next ?_
  · exact ⟨hw.sinks, hw.stream, hw.buffer, hw.chunkSize, congrArg (· + 1) hw.chunks⟩
  · refine Session.alike_get.bind fun w w' hw => ?_
    rw [hw.chunks]
    exact Session.alike_emit _

theorem alike_sendFull (count : Nat) :
    Session.Alike SameSizes Eq (sendFull count) (sendFull count) := by
  induction count with
  | zero => exact Session.alike_pure rfl
  | succ count ih =>
    refine Session.alike_get.bind fun w w' hw => ?_
    refine (Session.alike_set ?_).next ((alike_sendChunk ?_ .message).next ih)
    · refine ⟨hw.sinks, hw.stream, ?_, hw.chunkSize, hw.chunks⟩
      rw [List.length_drop, List.length_drop, hw.buffer, hw.chunkSize]
    · rw [List.length_take, List.length_take, hw.buffer, hw.chunkSize]

theorem alike_write (hlength : m.length = m'.length) :
    Session.Alike SameSizes Eq (write m) (write m') := by
  refine (Session.alike_modify fun w w' hw => ?_).next ?_
  · refine ⟨hw.sinks, hw.stream, ?_, hw.chunkSize, hw.chunks⟩
    rw [List.length_append, List.length_append, hw.buffer, hlength]
  · refine Session.alike_get.bind fun w w' hw => ?_
    rw [hw.buffer, hw.chunkSize]
    exact alike_sendFull _

theorem alike_finalize : Session.Alike SameSizes Eq finalize finalize := by
  refine Session.alike_get.bind fun w w' hw => ?_
  refine (Session.alike_set ?_).next ((alike_sendChunk hw.buffer .final).next ?_)
  · exact ⟨hw.sinks, hw.stream, rfl, hw.chunkSize, hw.chunks⟩
  · refine (alike_onSink (Sink.alike_sync _)).next (Session.alike_get.bind fun w w' hw => ?_)
    rw [hw.chunks]
    exact Session.alike_emit _

theorem alike_create (key key' : FixedBytes 32) (header header' : Header) (ad ad' : Bytes)
    (c : Nat) :
    Session.Alike Sink.BothSmooth SameSizes (create key header ad c)
      (create key' header' ad' c) := by
  by_cases hc : 0 < c
  · have hinit : Session.Alike Sink.BothSmooth SameProgress
        (liftM (initPush key header) : Session Sink SecretStream)
        (liftM (initPush key' header') : Session Sink SecretStream) :=
      Session.alike_logged fun log => by
        rw [run_initPush, run_initPush]
        exact ⟨sameProgress_ofHeader key key' header header', rfl⟩
    simp only [create, hc, dif_pos]
    refine hinit.bind fun stream stream' hstream => ?_
    refine (Sink.alike_send _ _ _).next ((Session.alike_liftFault (checkCapacity c)).next ?_)
    refine Session.alike_get.bind fun sink sink' hsinks => Session.alike_pure ?_
    exact ⟨hsinks, hstream, rfl, rfl, rfl⟩
  · simp only [create, hc, dif_neg, not_false_eq_true]
    exact Session.alike_throw _

/-! ## Runs of a writer -/

/-- Sends a text in parts, and ends it or not. -/
def sendParts (key : FixedBytes 32) (header : Header) (ad : Bytes) (c : Nat) (parts : List Bytes)
    (ended : Bool) : Session Sink Unit := do
  let writer ← create key header ad c
  (do forM parts write; if ended then finalize : Session Writer Unit).focus
    (fun sink => { writer with sink }) fun _ w => w.sink

/-- In which parts a text is sent makes no difference. -/
theorem runFrom_sendParts (key : FixedBytes 32) (header : Header) (ad : Bytes) (c : Nat)
    (parts : List Bytes) (ended : Bool) (sink : Sink) (log : Log) :
    (sendParts key header ad c parts ended).runFrom sink log =
      (sendParts key header ad c [parts.flatten] ended).runFrom sink log := by
  simp only [sendParts, Session.runFrom_bind]
  rcases hcreate : (create key header ad c).runFrom sink log with ⟨result, after, log₁⟩
  cases result with
  | error f => rfl
  | ok w =>
    obtain ⟨rfl, hstarted⟩ := started_of_create hcreate
    have hshort : w.buffer.length < w.chunkSize := by
      rw [hstarted.buffer]
      exact w.chunkSize_pos
    have hparts := seen_writes hstarted.unfinished hshort parts log₁
    have hwhole := seen_writes hstarted.unfinished hshort [parts.flatten] log₁
    rw [List.flatten_singleton] at hwhole
    exact runFrom_focus_of_seen (seen_bind_congr (hparts.trans hwhole.symm) fun _ _ _ => rfl)

/-- Writers that are created alike and then do what goes alike. -/
theorem alike_created {op op' : Session Writer Unit} (h : Session.Alike SameSizes Eq op op')
    (key key' : FixedBytes 32) (header header' : Header) (ad ad' : Bytes) (c : Nat) :
    Session.Alike Sink.BothSmooth Eq
      (do
        let writer ← create key header ad c
        op.focus (fun sink => { writer with sink }) fun _ w => w.sink : Session Sink Unit)
      (do
        let writer ← create key' header' ad' c
        op'.focus (fun sink => { writer with sink }) fun _ w => w.sink : Session Sink Unit) := by
  refine (alike_create key key' header header' ad ad' c).bind fun w w' hw => h.focus ?_ ?_
  · exact fun sink sink' hs => ⟨hs, hw.stream, hw.buffer, hw.chunkSize, hw.chunks⟩
  · exact fun _ _ _ _ _ hafter => hafter.sinks

/-- The run lemma for writers: only the length of the text matters. -/
theorem alike_sendParts {parts parts' : List Bytes}
    (hlength : parts.flatten.length = parts'.flatten.length) (key key' : FixedBytes 32)
    (header header' : Header) (ad ad' : Bytes) (c : Nat) (ended : Bool) :
    Session.Alike Sink.BothSmooth Eq (sendParts key header ad c parts ended)
      (sendParts key' header' ad' c parts' ended) := by
  intro sink sink' log hs
  rw [runFrom_sendParts, runFrom_sendParts key' header' ad' c parts']
  have hwrite : Session.Alike SameSizes Eq (forM [parts.flatten] write : Session Writer Unit)
      (forM [parts'.flatten] write) := (alike_write hlength).next (Session.alike_pure rfl)
  have hend : Session.Alike SameSizes Eq (if ended then finalize else pure () : Session Writer Unit)
      (if ended then finalize else pure ()) := by
    cases ended with
    | false => exact Session.alike_pure rfl
    | true => exact alike_finalize
  exact alike_created (hwrite.next hend) key key' header header' ad ad' c sink sink' log hs

end Writer

/-! ## Encrypting a source -/

namespace Pipe

open Writer

variable {key key' : FixedBytes 32} {header header' : Header} {ad ad' : Bytes}

/-- Which failure stops a source makes no difference to the reports. -/
theorem log_sendText_congr {failure failure' : Option IoKind}
    (h : failure = none ↔ failure' = none) (text : Bytes) (sink : Sink) (log : Log) :
    ((sendText key header ad text failure).runFrom sink log).log =
      ((sendText key header ad text failure').runFrom sink log).log := by
  cases failure with
  | none =>
    obtain rfl : failure' = none := h.mp rfl
    rfl
  | some kind =>
    obtain ⟨kind', rfl⟩ : ∃ kind', failure' = some kind' :=
      Option.ne_none_iff_exists'.mp fun hnone => by simp [hnone] at h
    simp only [sendText, stop, Session.runFrom_bind]
    rcases (create key header ad defaultChunkSize).runFrom sink log with ⟨result, after, log₁⟩
    cases result with
    | error f => rfl
    | ok w =>
      simp only [Session.runFrom_focus, Session.runFrom_bind]
      rcases (write text).runFrom { w with sink := after } log₁ with ⟨result, w₁, log₂⟩
      cases result <;> rfl

theorem alike_sendText {text text' : Bytes} (hlength : text.length = text'.length)
    (failure : Option IoKind) :
    Session.Alike Sink.BothSmooth Eq (sendText key header ad text failure)
      (sendText key' header' ad' text' failure) := by
  have hstop : Session.Alike SameSizes Eq (stop failure) (stop failure) := by
    cases failure with
    | none => exact Session.alike_pure rfl
    | some kind => exact Session.alike_throw _
  exact alike_created ((alike_write hlength).next (hstop.next alike_finalize)) key key' header
    header' ad ad' defaultChunkSize

theorem log_encrypt {random random' : RandomSource} {source source' : Source} {sink sink' : Sink}
    (hheader : (Header.random.runOn random).1 = .ok header)
    (hheader' : (Header.random.runOn random').1 = .ok header')
    (hlength : source.deliverable.length = source'.deliverable.length)
    (hfailure : source.failure = none ↔ source'.failure = none) (hs : sink.Smooth)
    (hs' : sink'.Smooth) (log : Log) :
    ((encrypt key ad random source).runFrom sink log).log =
      ((encrypt key' ad' random' source').runFrom sink' log).log := by
  rw [runFrom_encrypt key ad hheader, runFrom_encrypt key' ad' hheader',
    log_sendText_congr hfailure]
  exact (alike_sendText hlength source'.failure sink sink' log ⟨hs, hs'⟩).log_eq

end Pipe

/-! ## Reading a stream -/

namespace Reader

/-- The run lemma for readers: of the chunks only their lengths and tags matter. -/
theorem readLog_eq {s s' : SecretStream} (h : SameProgress s s') {outs outs' : List Outgoing}
    (hseen : outs.map Outgoing.seen = outs'.map Outgoing.seen) (log : Log) :
    readLog s outs log = readLog s' outs' log := by
  induction outs generalizing s s' outs' log with
  | nil =>
    obtain rfl : outs' = [] := List.map_eq_nil_iff.mp hseen.symm
    rfl
  | cons out outs ih =>
    cases outs' with
    | nil => cases hseen
    | cons out' outs' =>
      rw [List.map_cons, List.map_cons] at hseen
      injection hseen with hhead htail
      obtain ⟨hlength, htag⟩ : out.plaintext.length = out'.plaintext.length ∧ out.tag = out'.tag :=
        Prod.mk.inj hhead
      have hafter : SameProgress (s.after out) (s'.after out') := by
        rw [after, after, htag]
        exact h.next _ _ _
      have hframe : frameLog s out log = frameLog s' out' log := by
        rw [frameLog, frameLog, htag, hlength,
          h.nextLog_eq _ (s'.pushedMac out'.plaintext out'.ad out'.tag)]
      rw [readLog, readLog, hframe]
      exact ih hafter htail _

end Reader

namespace Writer

/-- The lengths and the tags of the chunks of a text are seen from its length. -/
theorem map_seen_chunksOf (ad : Bytes) (c : Nat) (text : Bytes) :
    (chunksOf ad c text).map Outgoing.seen =
      List.replicate (text.length / c) (c, .message) ++ [(text.length % c, .final)] := by
  have hfull : ∀ seen ∈ (fullChunks ad c text).map Outgoing.seen, seen = (c, .message) := by
    intro seen hmem
    obtain ⟨out, hout, rfl⟩ := List.mem_map.mp hmem
    obtain ⟨piece, hpiece, rfl⟩ := List.mem_map.mp hout
    rw [Outgoing.seen, message, Bytes.length_of_mem_fullPieces hpiece]
  have hcount : ((fullChunks ad c text).map Outgoing.seen).length = text.length / c := by
    rw [List.length_map, fullChunks, List.length_map, Bytes.fullPieces, Bytes.length_takePieces]
  rw [chunksOf, List.map_append, List.eq_replicate_of_mem hfull, hcount, List.map_singleton,
    Outgoing.seen, Bytes.length_leftover]

/-- No chunk of a text is longer than the text. -/
theorem le_length_of_mem_chunksOf {ad : Bytes} {c : Nat} {text : Bytes} {out : Outgoing}
    (h : out ∈ chunksOf ad c text) : out.plaintext.length ≤ text.length := by
  have hsub : out.plaintext.Sublist (joined (chunksOf ad c text)) :=
    List.sublist_flatten_of_mem (List.mem_map_of_mem h)
  rw [joined_chunksOf] at hsub
  exact hsub.length_le

end Writer

/-- A stream that a writer or an encryption sent as a whole, of a text of `n` bytes in chunks of
`c`. -/
inductive Sent (key : FixedBytes 32) (ad : Bytes) (c n : Nat) : Bytes → Prop
  | written {header : Header} {parts : List Bytes} {sink : Sink} (hnew : sink.taken = [])
    (hlength : parts.flatten.length = n)
    (hok : ((Writer.sendStream key header ad c parts).runOn sink).result = .ok ()) :
    Sent key ad c n ((Writer.sendStream key header ad c parts).runOn sink).state.taken
  | encrypted {random : RandomSource} {source : Source} {sink : Sink} (hnew : sink.taken = [])
    (hsize : c = Writer.defaultChunkSize) (hlength : source.deliverable.length = n)
    (hok : ((Pipe.encrypt key ad random source).runOn sink).result = .ok ()) :
    Sent key ad c n ((Pipe.encrypt key ad random source).runOn sink).state.taken

namespace Sent

variable {key : FixedBytes 32} {ad bytes : Bytes} {c n : Nat}

/-- What was sent is the stream of a text, and four bytes hold the lengths of its chunks. -/
theorem eq_streamOf (h : Sent key ad c n bytes) :
    ∃ header text, bytes = Writer.streamOf key header ad c text ∧ text.length = n ∧ 0 < c ∧
      ∀ out ∈ Writer.chunksOf ad c text, out.plaintext.length + overhead < UInt32.size := by
  cases h with
  | @written header parts sink hnew hlength hok =>
    obtain ⟨htaken, hc, hsizes⟩ := Writer.taken_of_sendStream hok
    exact ⟨header, parts.flatten, by rw [Session.runOn, htaken, hnew, List.nil_append], hlength, hc,
      hsizes⟩
  | @encrypted random source sink hnew hsize hlength hok =>
    subst hsize
    rw [Session.runOn] at hok
    cases hrandom : (Header.random.runOn random).1 with
    | error cause => simp [Pipe.encrypt, Writer.createRandom, hrandom] at hok
    | ok header =>
      obtain ⟨sent, htaken, hemitted⟩ := Pipe.emitted_of_sendText key header ad source.deliverable
        source.failure sink []
      rw [← Pipe.runFrom_encrypt key ad hrandom] at htaken hemitted
      refine ⟨header, source.deliverable, ?_, hlength, by decide, fun out hmem => ?_⟩
      · rw [Session.runOn, htaken, hnew, List.nil_append, hemitted.eq_iff.mpr (Or.inl hok)]
      · have hle := (Writer.of_mem_chunksOf (by decide) hmem).2
        have hsize : Writer.defaultChunkSize + overhead < UInt32.size := by decide
        omega

open Reader in
/-- A reader whose limit admits the longest chunk finds the whole stream. -/
theorem exists_whole (h : Sent key ad c n bytes) {limit : Nat} (hlimit : min c n ≤ limit)
    {all : Bytes} (hfront : bytes <+: all) :
    ∃ header outs, Whole key header ad limit outs all ∧
      outs.map Outgoing.seen = List.replicate (n / c) (c, .message) ++ [(n % c, .final)] := by
  obtain ⟨header, text, rfl, rfl, hc, hsizes⟩ := h.eq_streamOf
  refine ⟨header, Writer.chunksOf ad c text, ⟨hfront, by simp [Writer.chunksOf],
    Writer.endsOnce_chunksOf ad c text, fun out hmem => ?_⟩, Writer.map_seen_chunksOf ad c text⟩
  obtain ⟨had, hle⟩ := Writer.of_mem_chunksOf hc hmem
  have hshort := Writer.le_length_of_mem_chunksOf hmem
  exact ⟨had, by omega, hsizes out hmem⟩

end Sent

open Conversation Reader Pipe Writer in
/-- What is reported depends on lengths alone. Whatever the keys, headers, plaintexts and
associated data are, the same is reported in two conversations whose acts have the same lengths and
tags; where two texts of one length are written in chunks of one size, in any parts, or encrypted,
from sources that both fail or both do not, into sinks that take everything; and where two streams
that were sent so are read to their end, with any buffers and limits that admit the longest chunk
and from sources of any pieces, or decrypted. -/
theorem reports_depend_on_lengths :
    (∀ (key key' : FixedBytes 32) (header header' : Header) (acts acts' : List Act) (log : Log),
      acts.map Act.shape = acts'.map Act.shape →
      ((initPush key header).run log).2 = ((initPush key' header').run log).2 ∧
      ((initPull key header).run log).2 = ((initPull key' header').run log).2 ∧
      ((forM acts Act.play : Session Conversation Unit).runFrom (start key header) log).log =
        ((forM acts' Act.play : Session Conversation Unit).runFrom (start key' header') log).log) ∧
    (∀ (key key' : FixedBytes 32) (header header' : Header) (ad ad' : Bytes) (c : Nat)
        (parts parts' : List Bytes) (ended : Bool) (sink sink' : Sink),
      parts.flatten.length = parts'.flatten.length → sink.Smooth → sink'.Smooth →
      ((sendParts key header ad c parts ended).runOn sink).log =
        ((sendParts key' header' ad' c parts' ended).runOn sink').log) ∧
    (∀ (key key' : FixedBytes 32) (header header' : Header) (ad ad' : Bytes)
        (random random' : RandomSource) (source source' : Source) (sink sink' : Sink),
      (Header.random.runOn random).1 = .ok header → (Header.random.runOn random').1 = .ok header' →
      source.deliverable.length = source'.deliverable.length →
      (source.failure = none ↔ source'.failure = none) → sink.Smooth → sink'.Smooth →
      ((encrypt key ad random source).runOn sink).log =
        ((encrypt key' ad' random' source').runOn sink').log) ∧
    ∀ (key key' : FixedBytes 32) (ad ad' : Bytes) (c n : Nat) (bytes bytes' : Bytes)
        (source source' : Source), Sent key ad c n bytes → Sent key' ad' c n bytes' →
      source.Smooth → source'.Smooth → bytes <+: source.bytes → bytes' <+: source'.bytes →
      (∀ (limit limit' : Nat) (sizes sizes' : Nat → Nat), min c n ≤ limit → min c n ≤ limit' →
        (∀ i, 0 < sizes i) → (∀ i, 0 < sizes' i) → ∃ course course',
          openToEnd key ad limit sizes source = .ok course ∧ course.result = .ok () ∧
          openToEnd key' ad' limit' sizes' source' = .ok course' ∧ course'.result = .ok () ∧
          course.log = course'.log) ∧
      (∀ sink sink' : Sink, min c n ≤ defaultLimit → sink.Smooth → sink'.Smooth →
        ((decrypt key ad source).runOn sink).result = .ok () ∧
        ((decrypt key' ad' source').runOn sink').result = .ok () ∧
        ((decrypt key ad source).runOn sink).log =
          ((decrypt key' ad' source').runOn sink').log) := by
  refine ⟨?_, ?_, ?_, ?_⟩
  · intro key key' header header' acts acts' log hshape
    refine ⟨by rw [run_initPush, run_initPush], by rw [run_initPull, run_initPull], ?_⟩
    exact (alike_forM_play hshape _ _ log (alike_start key key' header header')).log_eq
  · intro key key' header header' ad ad' c parts parts' ended sink sink' hlength hs hs'
    exact (alike_sendParts hlength key key' header header' ad ad' c ended _ _ [] ⟨hs, hs'⟩).log_eq
  · intro key key' header header' ad ad' random random' source source' sink sink' hheader hheader'
      hlength hfailure hs hs'
    exact log_encrypt hheader hheader' hlength hfailure hs hs' []
  · intro key key' ad ad' c n bytes bytes' source source' hsent hsent' hs hs' hfront hfront'
    constructor
    · intro limit limit' sizes sizes' hlimit hlimit' hpos hpos'
      obtain ⟨header, outs, hwhole, hseen⟩ := hsent.exists_whole hlimit hfront
      obtain ⟨header', outs', hwhole', hseen'⟩ := hsent'.exists_whole hlimit' hfront'
      refine ⟨_, _, hwhole.openToEnd_eq hs sizes hpos, rfl, hwhole'.openToEnd_eq hs' sizes' hpos',
        rfl, ?_⟩
      exact readLog_eq (sameProgress_ofHeader ..) (hseen.trans hseen'.symm) _
    · intro sink sink' hlimit hsink hsink'
      obtain ⟨header, outs, hwhole, hseen⟩ := hsent.exists_whole hlimit hfront
      obtain ⟨header', outs', hwhole', hseen'⟩ := hsent'.exists_whole hlimit hfront'
      obtain ⟨after, hrun, -⟩ := runOn_decrypt_whole hwhole hs hsink
      obtain ⟨after', hrun', -⟩ := runOn_decrypt_whole hwhole' hs' hsink'
      rw [hrun, hrun']
      exact ⟨rfl, rfl, readLog_eq (sameProgress_ofHeader ..) (hseen.trans hseen'.symm) _⟩

open Conversation Reader Pipe Writer in
/-- Two bytes under one key and two others under another, in other parts and other pieces, and a
chunk of one byte with a rekey behind it. -/
theorem reports_depend_on_lengths_of_two_bytes :
    ∃ (key : FixedBytes 32) (bytes bytes' : Bytes) (course course' : Course),
      key ≠ .zero 32 ∧ Sent (.zero 32) [] 1 2 bytes ∧ Sent key [5] 1 2 bytes' ∧
      openToEnd (.zero 32) [] 1 (fun _ => 1) (bytes.map fun b => .data [b]) = .ok course ∧
      openToEnd key [5] 4 (fun _ => 8) (.fail .interrupted :: bytes'.map fun b => .data [b]) =
        .ok course' ∧ course.log = course'.log ∧
      ((forM [.push .new ⟨[7], [], .rekey⟩, .receive .new] Act.play : Session Conversation Unit
        ).runFrom (start (.zero 32) (.zero 24)) []).log =
      ((forM [.push .new ⟨[8], [5], .rekey⟩, .receive .new] Act.play : Session Conversation Unit
        ).runFrom (start key (.zero 24)) []).log := by
  obtain ⟨key, hkey⟩ : ∃ key : FixedBytes 32, key ≠ .zero 32 :=
    ⟨.ofPadded 32 [1], fun h => absurd (congrArg FixedBytes.toList h) (by decide)⟩
  have hsink : Sink.Smooth ⟨[], [], none⟩ := ⟨by simp, rfl⟩
  obtain ⟨sink, log, hrun, -⟩ := runFrom_sendStream hsink (.zero 32) (.zero 24) []
    (show 0 < 1 by decide) (by decide) [[1, 2]] []
  obtain ⟨sink', log', hrun', -⟩ := runFrom_sendStream hsink key (.zero 24) [5]
    (show 0 < 1 by decide) (by decide) [[3], [4]] []
  have hsent : Sent (.zero 32) [] 1 2 sink.taken := by
    have hall := Sent.written (n := 2) rfl rfl (congrArg Outcome.result hrun)
    rwa [Session.runOn, hrun] at hall
  have hsent' : Sent key [5] 1 2 sink'.taken := by
    have hall := Sent.written (n := 2) rfl rfl (congrArg Outcome.result hrun')
    rwa [Session.runOn, hrun'] at hall
  have hs : Source.Smooth (sink.taken.map fun b => .data [b]) := by
    simp [Source.Smooth, SourceEvent.Smooth]
  have hs' : Source.Smooth (.fail .interrupted :: sink'.taken.map fun b => .data [b]) := by
    simp [Source.Smooth, SourceEvent.Smooth]
  have hbytes : sink.taken <+: Source.bytes (sink.taken.map fun b => .data [b]) := by
    rw [Source.bytes_map_data]
  have hbytes' : sink'.taken <+:
      Source.bytes (.fail .interrupted :: sink'.taken.map fun b => .data [b]) := by
    rw [Source.bytes, Source.bytes_map_data]
  obtain ⟨hacts, -, -, hreads⟩ := reports_depend_on_lengths
  obtain ⟨course, course', hopen, -, hopen', -, hlog⟩ :=
    (hreads _ _ _ _ 1 2 _ _ _ _ hsent hsent' hs hs' hbytes hbytes').1 1 4 (fun _ => 1) (fun _ => 8)
      (by decide) (by decide) (fun _ => by decide) (fun _ => by decide)
  have hshape : [Act.push .new ⟨[7], [], .rekey⟩, .receive .new].map Act.shape =
      [Act.push .new ⟨[8], [5], .rekey⟩, .receive .new].map Act.shape := rfl
  obtain ⟨-, -, hplays⟩ := hacts (.zero 32) key (.zero 24) (.zero 24) _ _ [] hshape
  exact ⟨key, _, _, course, course', hkey, hsent, hsent', hopen, hopen', hlog, hplays⟩

end AuthEncryption
