import AuthEncryption.Proofs.Transfer.Writing
import AuthEncryption.Transfer.Reader

/-!
# A stream is read back

The two ends meet at a run of chunks that its last one, and only that one, ends. A writer's
output is the frames of such a run, and a reader that has the frames of one in front of it
hands out its plaintexts, piece by piece and whatever the buffers, passing over empty chunks.
What a reader has still to hand out is the invariant: one call takes a piece from its front,
hence any sequence of calls hands out the text and then nothing, and leaves what follows the
stream where it is.
-/
namespace AuthEncryption

open SecretStream

namespace SecretStream

/-- A run of chunks that its last one ends, and no other. -/
def EndsOnce : List Outgoing → Prop
  | [] => True
  | out :: rest => out.tag.isFinal = rest.isEmpty ∧ EndsOnce rest

/-- The plaintexts of a run of chunks, one after the other. -/
def joined (outs : List Outgoing) : Bytes := (outs.map (·.plaintext)).flatten

end SecretStream

/-! ## The chunks of a text -/

namespace Writer

theorem endsOnce_chunksOf (ad : Bytes) (c : Nat) (t : Bytes) : EndsOnce (chunksOf ad c t) := by
  unfold chunksOf fullChunks
  induction Bytes.fullPieces c t with
  | nil => exact ⟨rfl, trivial⟩
  | cons piece pieces ih =>
    have hrest : ∀ last : Outgoing, (pieces.map (message ad) ++ [last]).isEmpty = false := by simp
    exact ⟨(hrest _).symm, ih⟩

theorem joined_messages (ad : Bytes) (pieces : List Bytes) :
    joined (pieces.map (message ad)) = pieces.flatten := by
  have hpieces : (pieces.map (message ad)).map (·.plaintext) = pieces := by
    rw [List.map_map]
    exact List.map_id _
  rw [joined, hpieces]

theorem joined_chunksOf (ad : Bytes) (c : Nat) (t : Bytes) : joined (chunksOf ad c t) = t := by
  have hfull : joined (fullChunks ad c t) = (Bytes.fullPieces c t).flatten := joined_messages ad _
  rw [joined] at hfull
  rw [joined, chunksOf, List.map_append, List.flatten_append, hfull, List.map_singleton,
    List.flatten_singleton, Bytes.flatten_fullPieces]

end Writer

namespace Reader

/-! ## One chunk -/

/-- A chunk that a reader with this associated data and limit does not refuse. -/
structure Fits (ad : Bytes) (limit : Nat) (out : Outgoing) : Prop where
  ad : out.ad = ad
  limit : out.plaintext.length ≤ limit
  size : out.plaintext.length + overhead < UInt32.size

/-- What a reader has in front of it: the frames of some chunks, then a string of others. -/
structure Ahead (r : Reader) (outs : List Outgoing) (trailing : Bytes) : Prop where
  smooth : r.source.Smooth
  bytes : r.source.bytes = r.stream.frames outs ++ trailing
  finished : r.finished = outs.isEmpty
  finalized : r.stream.finalized = outs.isEmpty
  endsOnce : EndsOnce outs
  fits : ∀ out ∈ outs, Fits r.ad r.limit out

variable {r : Reader} {outs : List Outgoing} {trailing : Bytes}

namespace Ahead

theorem withUnread (h : Ahead r outs trailing) (unread : Bytes) :
    Ahead { r with unread } outs trailing :=
  ⟨h.smooth, h.bytes, h.finished, h.finalized, h.endsOnce, h.fits⟩

/-- A reader that is not finished has a chunk in front of it. -/
theorem exists_next (h : Ahead r outs trailing) (hgoing : r.finished = false) :
    ∃ out rest, outs = out :: rest := by
  cases outs with
  | nil => exact absurd (h.finished.symm.trans hgoing) (by simp)
  | cons out rest => exact ⟨out, rest, rfl⟩

/-- Behind a chunk the reader has the rest in front of it. -/
theorem next {out : Outgoing} (h : Ahead r (out :: outs) trailing) {source : Source}
    (hsmooth : source.Smooth)
    (hbytes : source.bytes = (r.stream.after out).frames outs ++ trailing) :
    Ahead { r with
      source
      stream := r.stream.after out
      unread := out.plaintext
      finished := outs.isEmpty } outs trailing where
  smooth := hsmooth
  bytes := hbytes
  finished := rfl
  finalized := by
    have hopen : r.stream.finalized = false := h.finalized
    rw [after, finalized_next, hopen, h.endsOnce.1, Bool.false_or]
  endsOnce := h.endsOnce.2
  fits later hmem := h.fits later (List.mem_cons_of_mem _ hmem)

end Ahead

/-- The reports about a chunk that is accepted, added to those of its stream. -/
def acceptLog (length : Nat) (tag : ChunkTag) (log : Log) : Log :=
  (if tag.isFinal then [.streamRead] else []) ++ .chunkRead length tag :: log

/-- The plaintext of a chunk that is accepted is unread. -/
theorem runFrom_accept {chunk plaintext : Bytes} {tag : ChunkTag} {stream : SecretStream}
    {log log' : Log} (hgoing : r.finished = false) (h : (pull chunk r.ad).runFrom r.stream log =
      { result := .ok (plaintext, tag), state := stream, log := log' }) :
    (accept chunk).runFrom r log =
      { result := .ok ()
        state := { r with stream, unread := plaintext, finished := tag.isFinal }
        log := acceptLog chunk.length tag log' } := by
  simp only [accept, onStream, Session.runFrom_bind, Session.runFrom_get, Session.runFrom_focus,
    Session.runFrom_emit, Session.runFrom_modify, h, acceptLog]
  cases tag.isFinal with
  | false =>
    rw [hgoing]
    rfl
  | true => rfl

/-- The reports about the chunk that a stream pulls next, added to those before. -/
def frameLog (s : SecretStream) (out : Outgoing) (log : Log) : Log :=
  acceptLog (out.plaintext.length + overhead) out.tag
    (s.nextLog (s.pushedMac out.plaintext out.ad out.tag) out.tag
      (.pulled out.plaintext.length out.tag :: log))

/-- A frame in front of a reader is taken from the source and its plaintext is unread. -/
theorem runFrom_nextChunk_frame {out : Outgoing} {back : Bytes} (hs : r.source.Smooth)
    (hbytes : r.source.bytes = Frame.ofChunk (r.stream.outChunk out) ++ back)
    (hopen : r.stream.finalized = false) (hgoing : r.finished = false)
    (hfits : Fits r.ad r.limit out) (log : Log) :
    ∃ source, nextChunk.runFrom r log =
        { result := .ok ()
          state := { r with
            source
            stream := r.stream.after out
            unread := out.plaintext
            finished := out.tag.isFinal }
          log := frameLog r.stream out log } ∧
      source.Smooth ∧ source.bytes = back := by
  obtain ⟨had, hlimit, hsize⟩ := hfits
  have hlength : (r.stream.outChunk out).length = out.plaintext.length + overhead :=
    r.stream.length_chunk _ _ _
  have hmax : (r.stream.outChunk out).length ≤ r.limit + overhead := by omega
  obtain ⟨source, hread, hsmooth, hleft⟩ :=
    Frame.runFrom_readFrame hs hbytes (by omega) hmax (by omega)
  have hpull : (pull (r.stream.outChunk out) r.ad).runFrom r.stream log =
      { result := .ok (out.plaintext, out.tag)
        state := r.stream.after out
        log := r.stream.nextLog (r.stream.pushedMac out.plaintext out.ad out.tag) out.tag
          (.pulled out.plaintext.length out.tag :: log) } := by
    rw [← had]
    exact r.stream.runFrom_pull_chunk hopen (le_messageMax hsize) out.ad out.tag log
  have haccept := runFrom_accept (r := { r with source }) hgoing hpull
  rw [hlength] at haccept
  refine ⟨source, ?_, hsmooth, hleft⟩
  simp only [nextChunk, onSource, Session.runFrom_bind, Session.runFrom_get,
    Session.runFrom_focus, hread, haccept, frameLog]

/-- The step lemma: the next chunk is taken from the source and its plaintext is unread. -/
theorem runFrom_nextChunk {out : Outgoing} (h : Ahead r (out :: outs) trailing) (log : Log) :
    ∃ r', nextChunk.runFrom r log =
        { result := .ok (), state := r', log := frameLog r.stream out log } ∧
      Ahead r' outs trailing ∧ r'.unread = out.plaintext ∧ r'.stream = r.stream.after out := by
  have hbytes : r.source.bytes =
      Frame.ofChunk (r.stream.outChunk out) ++ ((r.stream.after out).frames outs ++ trailing) := by
    rw [h.bytes, frames, List.append_assoc]
  obtain ⟨source, hrun, hsmooth, hleft⟩ := runFrom_nextChunk_frame h.smooth hbytes
    h.finalized h.finished (h.fits out List.mem_cons_self) log
  -- The reader is finished from here on exactly if nothing is left of the run.
  rw [h.endsOnce.1] at hrun
  exact ⟨_, hrun, h.next hsmooth hleft, rfl, rfl⟩

/-! ## One call -/

/-- Empty chunks are passed over; nothing is unread behind them only if the run has ended. -/
theorem skipToPlaintext_ahead (h : Ahead r outs trailing) (log : Log) :
    ∃ r' outs' log', skipToPlaintext r log = { result := .ok (), state := r', log := log' } ∧
      Ahead r' outs' trailing ∧ r'.unread ++ joined outs' = r.unread ++ joined outs ∧
      (r'.unread = [] → outs' = []) := by
  fun_induction skipToPlaintext r log generalizing outs with
  | case1 r log hmore r₁ log₁ hnext ih =>
    obtain ⟨hunread, hgoing⟩ : r.unread = [] ∧ r.finished = false := by simpa using hmore
    obtain ⟨out, rest, rfl⟩ := h.exists_next hgoing
    obtain ⟨r₂, hrun, hahead, htext, -⟩ := runFrom_nextChunk h log
    rw [hnext] at hrun
    cases hrun
    obtain ⟨r', outs', log', hskip, hahead', hsame, hend⟩ := ih hahead
    refine ⟨r', outs', log', hskip, hahead', ?_, hend⟩
    rw [hsame, htext, hunread, joined, joined, List.map_cons, List.flatten_cons, List.nil_append]
  | case2 r log hmore f r₁ log₁ hnext =>
    obtain ⟨-, hgoing⟩ : r.unread = [] ∧ r.finished = false := by simpa using hmore
    obtain ⟨out, rest, rfl⟩ := h.exists_next hgoing
    obtain ⟨r₂, hrun, -⟩ := runFrom_nextChunk h log
    rw [hnext] at hrun
    cases hrun
  | case3 r log hstop =>
    refine ⟨r, outs, log, rfl, h, rfl, ?_⟩
    intro hunread
    have hfinished : r.finished = true := by simpa [hunread] using hstop
    exact List.isEmpty_iff.mp (h.finished.symm.trans hfinished)

/-- A reader has still to hand out a text, and behind its stream comes another string. -/
def Pending (r : Reader) (text trailing : Bytes) : Prop :=
  ∃ outs, Ahead r outs trailing ∧ text = r.unread ++ joined outs

/-- A reader has handed out everything, and its source is at what follows the stream. -/
structure Done (r : Reader) (trailing : Bytes) : Prop where
  finished : r.finished = true
  unread : r.unread = []
  bytes : r.source.bytes = trailing

variable {text : Bytes}

/-- The step lemma: a call takes a piece from the front of the text, and none only at its end. -/
theorem runFrom_read (h : Pending r text trailing) {n : Nat} (hn : 0 < n) (log : Log) :
    ∃ piece rest r' log', text = piece ++ rest ∧
      (read n).runFrom r log = { result := .ok piece, state := r', log := log' } ∧
      Pending r' rest trailing ∧ piece.length ≤ n ∧ (piece = [] → text = []) ∧
      (text = [] → Done r' trailing) := by
  obtain ⟨outs, hahead, rfl⟩ := h
  obtain ⟨r₁, outs₁, log₁, hskip, hahead₁, hsame, hend⟩ := skipToPlaintext_ahead hahead log
  rw [← hsame]
  refine ⟨r₁.unread.take n, r₁.unread.drop n ++ joined outs₁,
    { r₁ with unread := r₁.unread.drop n }, log₁, ?_, ?_, ⟨outs₁, hahead₁.withUnread _, rfl⟩,
    List.length_take_le .., ?_, ?_⟩
  · rw [← List.append_assoc, List.take_append_drop]
  · simp only [read, hn, if_pos, Session.runFrom_bind, Session.runFrom_ofRun, hskip,
      Session.runFrom_get, Session.runFrom_set, Session.runFrom_pure]
  · intro hnone
    have hunread : r₁.unread = [] := by
      rcases List.take_eq_nil_iff.mp hnone with hzero | hunread
      · omega
      · exact hunread
    rw [hunread, hend hunread]
    rfl
  · intro hempty
    have hunread : r₁.unread = [] := (List.append_eq_nil_iff.mp hempty).1
    have houts : outs₁ = [] := hend hunread
    subst houts
    refine ⟨hahead₁.finished, ?_, hahead₁.bytes⟩
    rw [hunread, List.drop_nil]

/-- At the end a call hands out nothing and changes nothing. -/
theorem runFrom_read_of_done (h : Done r trailing) (n : Nat) (log : Log) :
    (read n).runFrom r log = { result := .ok [], state := r, log } := by
  obtain ⟨source, stream, unread, limit, ad, finished⟩ := r
  obtain ⟨rfl, rfl, -⟩ := h
  have hskip : skipToPlaintext ⟨source, stream, [], limit, ad, true⟩ log =
      { result := .ok (), state := ⟨source, stream, [], limit, ad, true⟩, log } := by
    rw [skipToPlaintext]
    rfl
  by_cases hn : 0 < n
  · simp [read, hn, hskip]
  · simp [read, hn]

/-! ## A sequence of calls -/

theorem runFrom_reads_of_done (h : Done r trailing) (sizes : List Nat) (log : Log) :
    (sizes.mapM read).runFrom r log =
      { result := .ok (List.replicate sizes.length []), state := r, log } := by
  induction sizes with
  | nil => rfl
  | cons n sizes ih =>
    simp only [List.mapM_cons, Session.runFrom_bind, runFrom_read_of_done h, ih,
      Session.runFrom_pure]
    rfl

/-- The run lemma: calls hand out pieces of the text in order, and nothing once it is used up. -/
theorem runFrom_reads (h : Pending r text trailing) {sizes : List Nat} (hpos : ∀ n ∈ sizes, 0 < n)
    (log : Log) :
    ∃ pieces k rest r' log', text = pieces.flatten ++ rest ∧
      (sizes.mapM read).runFrom r log =
        { result := .ok (pieces ++ List.replicate k []), state := r', log := log' } ∧
      Pending r' rest trailing ∧ pieces.length + k = sizes.length ∧
      List.Forall₂ (fun piece n => 1 ≤ piece.length ∧ piece.length ≤ n) pieces
        (sizes.take pieces.length) ∧
      (0 < k → rest = [] ∧ Done r' trailing) := by
  induction sizes generalizing r text log with
  | nil => exact ⟨[], 0, text, r, log, rfl, rfl, h, rfl, .nil, fun hk => absurd hk (Nat.lt_irrefl 0)⟩
  | cons n sizes ih =>
    obtain ⟨piece, rest, r₁, log₁, hsplit, hread, hpending, hle, hnone, hdone⟩ :=
      runFrom_read h (hpos n List.mem_cons_self) log
    by_cases hempty : text = []
    · -- Nothing is left: this call and all the later ones hand out nothing.
      obtain ⟨rfl, rfl⟩ := List.append_eq_nil_iff.mp (hsplit.symm.trans hempty)
      have hend := hdone hempty
      refine ⟨[], sizes.length + 1, [], r₁, log₁, hempty, ?_, hpending, Nat.zero_add _, .nil,
        fun _ => ⟨rfl, hend⟩⟩
      simp only [List.mapM_cons, Session.runFrom_bind, hread, runFrom_reads_of_done hend,
        Session.runFrom_pure]
      rfl
    · obtain ⟨pieces, k, rest', r', log', htext, hrun, hpending', hlength, hfits, hend⟩ :=
        ih hpending (fun m hm => hpos m (List.mem_cons_of_mem _ hm)) log₁
      have hsome : 1 ≤ piece.length :=
        List.length_pos_iff.mpr fun hpiece => hempty (hnone hpiece)
      refine ⟨piece :: pieces, k, rest', r', log', ?_, ?_, hpending', ?_,
        .cons ⟨hsome, hle⟩ hfits, hend⟩
      · rw [hsplit, htext, List.flatten_cons, List.append_assoc]
      · simp only [List.mapM_cons, Session.runFrom_bind, hread, hrun, Session.runFrom_pure]
        rfl
      · rw [List.length_cons, List.length_cons, ← hlength, Nat.succ_add]

/-! ## A whole stream -/

/-- A reader behind a header that has taken nothing else from its source. -/
def atStart (key : FixedBytes 32) (header : Header) (ad : Bytes) (limit : Nat) (source : Source) :
    Reader :=
  { source, stream := ofHeader key header, unread := [], limit, ad, finished := false }

/-- A reader takes the header from the front of its source. -/
theorem runFrom_create {source : Source} {header : Header} {back : Bytes} (hs : source.Smooth)
    (hbytes : source.bytes = header.toList ++ back) (key : FixedBytes 32) (ad : Bytes) (limit : Nat)
    (log : Log) :
    ∃ source' log', (create key ad limit).runFrom source log =
        { result := .ok (atStart key header ad limit source'), state := source', log := log' } ∧
      source'.Smooth ∧ source'.bytes = back := by
  obtain ⟨source', hread, hsmooth, hleft⟩ :=
    Frame.runFrom_readOrTruncated hs hbytes (n := headerSize) header.length_toList.symm
  have hheader : Header.ofBytes header.toList = .ok header := dif_pos header.length_toList
  have hinit : (liftM (initPull key header) : Session Source SecretStream).runFrom source' log =
      { result := .ok (ofHeader key header)
        state := source'
        log := .initialized .pull :: log } := rfl
  refine ⟨source', ?_⟩
  simp only [create, Session.runFrom_bind, hread, hheader, Session.runFrom_liftError,
    Failure.mapError_ok, hinit, Session.runFrom_get, Session.runFrom_pure]
  exact ⟨_, rfl, hsmooth, hleft⟩

/-- A reader of what a writer sent has the text that was written to hand out. -/
theorem pending_of_written {key : FixedBytes 32} {header : Header} {ad : Bytes} {c limit : Nat}
    (hc : 0 < c) (hlimit : c ≤ limit) (hsize : c + overhead < UInt32.size) {source : Source}
    (hs : source.Smooth) (t : Bytes) {trailing : Bytes}
    (hbytes : source.bytes = (ofHeader key header).frames (Writer.chunksOf ad c t) ++ trailing) :
    Pending (atStart key header ad limit source) t trailing := by
  have hsome : (Writer.chunksOf ad c t).isEmpty = false := by simp [Writer.chunksOf]
  refine ⟨Writer.chunksOf ad c t, ⟨hs, hbytes, hsome.symm, hsome.symm,
    Writer.endsOnce_chunksOf ad c t, ?_⟩, ?_⟩
  · intro out hmem
    obtain ⟨had, hle⟩ := Writer.of_mem_chunksOf hc hmem
    exact ⟨had, hle.trans hlimit, Nat.lt_of_le_of_lt (Nat.add_le_add_right hle overhead) hsize⟩
  · rw [Writer.joined_chunksOf]
    rfl

theorem length_le_flatten {pieces : List Bytes} {sizes : List Nat}
    (h : List.Forall₂ (fun piece n => 1 ≤ piece.length ∧ piece.length ≤ n) pieces sizes) :
    pieces.length ≤ pieces.flatten.length := by
  induction h with
  | nil => exact Nat.le_refl 0
  | cons hpiece _ ih =>
    rw [List.length_cons, List.flatten_cons, List.length_append]
    omega

/-- A stream is read back. Whatever the parts in which a text is written, a writer sends a
string of bytes such that a reader with the same key and associated data, over this string and
any other behind it, hands out the text: each call gives at least one byte and at most what its
buffer holds, until the text is used up. Then calls give nothing, the reader is finished, and
its source is at the first byte that the writer did not send. -/
theorem reads_back_stream (key : FixedBytes 32) (header : Header) (ad : Bytes) {c limit : Nat}
    (hc : 1 ≤ c) (hlimit : c ≤ limit) (hsize : c + 17 < 2 ^ 32) (writes : List Bytes) {sink : Sink}
    (hsink : sink.Smooth) :
    ∃ output : Bytes,
      ((Writer.sendStream key header ad c writes).runOn sink).result = .ok () ∧
      ((Writer.sendStream key header ad c writes).runOn sink).state.taken = sink.taken ++ output ∧
      ∀ (trailing : Bytes) (source : Source), source.Smooth → source.bytes = output ++ trailing →
        ∃ reader, ((create key ad limit).runOn source).result = .ok reader ∧
          ∀ sizes : List Nat, (∀ n ∈ sizes, 1 ≤ n) →
            ∃ (pieces : List Bytes) (k : Nat) (after : Reader) (log : Log),
              (sizes.mapM read).runOn reader =
                { result := .ok (pieces ++ List.replicate k []), state := after, log } ∧
              pieces.length + k = sizes.length ∧
              List.Forall₂ (fun piece n => 1 ≤ piece.length ∧ piece.length ≤ n) pieces
                (sizes.take pieces.length) ∧
              pieces.flatten <+: writes.flatten ∧ trailing <:+ after.source.bytes ∧
              (0 < k → pieces.flatten = writes.flatten ∧ after.finished = true ∧
                after.source.bytes = trailing) ∧
              (writes.flatten.length < sizes.length → 0 < k) := by
  obtain ⟨sink', log₁, hsend, htaken⟩ :=
    Writer.runFrom_sendStream hsink key header ad hc hsize writes []
  refine ⟨_, by rw [Session.runOn, hsend], by rw [Session.runOn, hsend]; exact htaken, ?_⟩
  intro trailing source hsource hbytes
  rw [List.append_assoc] at hbytes
  obtain ⟨source', log₂, hcreate, hsmooth, hleft⟩ :=
    runFrom_create hsource hbytes key ad limit []
  refine ⟨_, by rw [Session.runOn, hcreate], ?_⟩
  intro sizes hpos
  obtain ⟨pieces, k, rest, after, log, htext, hrun, ⟨outs, hahead, -⟩, hlength, hfits, hend⟩ :=
    runFrom_reads (pending_of_written hc hlimit hsize hsmooth writes.flatten hleft) hpos []
  refine ⟨pieces, k, after, log, hrun, hlength, hfits, ⟨rest, htext.symm⟩, ⟨_, hahead.bytes.symm⟩,
    ?_, ?_⟩
  · intro hk
    obtain ⟨rfl, hdone⟩ := hend hk
    exact ⟨by rw [htext, List.append_nil], hdone.finished, hdone.bytes⟩
  · intro hlong
    have hcount := length_le_flatten hfits
    rw [htext, List.length_append] at hlong
    omega

/-- Three bytes in two writes, cut at two, through a sink that takes one byte first, and one
byte of something else behind the stream. -/
theorem reads_back_stream_of_two_writes :
    ∃ (output : Bytes) (reader after : Reader) (pieces : List Bytes) (k : Nat) (log : Log),
      ((Writer.sendStream (.zero 32) (.zero 24) [5] 2 [[1], [2, 3]]).runOn
        ⟨[], [.accept 1, .fail .interrupted], none⟩).state.taken = output ∧
      ((create (.zero 32) [5] 2).runOn [.fail .interrupted, .data (output ++ [9])]).result =
        .ok reader ∧
      ([1, 4, 4, 4].mapM read).runOn reader =
        { result := .ok (pieces ++ List.replicate k []), state := after, log } ∧
      pieces.flatten = [1, 2, 3] ∧ after.finished = true ∧ after.source.bytes = [9] := by
  have hsink : Sink.Smooth ⟨[], [.accept 1, .fail .interrupted], none⟩ :=
    ⟨by simp [SinkEvent.Smooth], rfl⟩
  obtain ⟨output, -, htaken, hback⟩ := reads_back_stream (.zero 32) (.zero 24) [5] (c := 2)
    (le_of_lt one_lt_two) (Nat.le_refl 2) (by norm_num) [[1], [2, 3]] hsink
  obtain ⟨reader, hcreate, hreads⟩ := hback [9] [.fail .interrupted, .data (output ++ [9])]
    (by simp [Source.Smooth, SourceEvent.Smooth]) (List.append_nil _)
  obtain ⟨pieces, k, after, log, hrun, -, -, -, -, hend, hlong⟩ := hreads [1, 4, 4, 4] (by simp)
  obtain ⟨htext, hfinished, hbytes⟩ := hend (hlong (by simp))
  exact ⟨output, reader, after, pieces, k, log, htaken, hcreate, hrun, htext, hfinished, hbytes⟩

end Reader

end AuthEncryption
