import AuthEncryption.Proofs.Transfer.Calls
import AuthEncryption.Transfer.Pipe

/-!
# A stream that is cut short

A proper front of a stream ends within its header or within one of its frames. In front of the
cut are whole frames, none of them the final one, and a reader hands out their plaintexts as if
nothing had happened. Then every call that asks for something fails, since the source ends where
a frame should go on: what a reader has still to hand out before the cut is the invariant.
-/
namespace AuthEncryption

open Bytes (ShortOf)
open SecretStream

/-! ## Where a string of frames is cut -/

namespace SecretStream

/-- The plaintexts of those frames of a run of chunks that a string holds as a whole. -/
def heldText (s : SecretStream) : List Outgoing → Bytes → Bytes
  | [], _ => []
  | out :: rest, string =>
    let frame := Frame.ofChunk (s.outChunk out)
    if frame <+: string then
      out.plaintext ++ heldText (s.after out) rest (string.drop frame.length)
    else
      []

theorem heldText_frame_append (s : SecretStream) (out : Outgoing) (rest : List Outgoing)
    (more : Bytes) :
    s.heldText (out :: rest) (Frame.ofChunk (s.outChunk out) ++ more) =
      out.plaintext ++ (s.after out).heldText rest more := by
  simp only [heldText, List.prefix_append, if_true, List.drop_left]

theorem heldText_of_shortOf {s : SecretStream} {out : Outgoing} {cut : Bytes}
    (h : ShortOf cut (Frame.ofChunk (s.outChunk out))) (rest : List Outgoing) :
    s.heldText (out :: rest) cut = [] := by
  have hnot : ¬ Frame.ofChunk (s.outChunk out) <+: cut := fun hwhole =>
    absurd hwhole.length_le (Nat.not_le.mpr h.length_lt)
  simp only [heldText, hnot, if_false]

theorem heldText_nil (s : SecretStream) (outs : List Outgoing) : s.heldText outs [] = [] := by
  cases outs with
  | nil => rfl
  | cons out rest => exact heldText_of_shortOf (.of_ne_nil (Frame.ofChunk_ne_nil _)) rest

/-- A proper front of the frames of a run is some of them and a proper front of the next. -/
theorem exists_cut {s : SecretStream} {outs : List Outgoing} {string : Bytes}
    (h : ShortOf string (s.frames outs)) :
    ∃ done next rest cut, outs = done ++ next :: rest ∧ string = s.frames done ++ cut ∧
      ShortOf cut (Frame.ofChunk ((s.afterAll done).outChunk next)) ∧
      s.heldText outs string = joined done := by
  induction outs generalizing s string with
  | nil => exact absurd h.length_lt (Nat.not_lt_zero _)
  | cons out outs ih =>
    rcases ShortOf.cases h with hwithin | ⟨more, rfl, hmore⟩
    · exact ⟨[], out, outs, string, rfl, rfl, hwithin, heldText_of_shortOf hwithin outs⟩
    · obtain ⟨done, next, rest, cut, rfl, rfl, hcut, htext⟩ := ih hmore
      refine ⟨out :: done, next, rest, cut, rfl, (List.append_assoc ..).symm, hcut, ?_⟩
      rw [heldText_frame_append, htext]
      rfl

/-- In a run that its last chunk ends, the chunks in front of another one are not final. -/
theorem EndsOnce.not_final {done rest : List Outgoing} {next : Outgoing}
    (h : EndsOnce (done ++ next :: rest)) : ∀ out ∈ done, out.tag.isFinal = false := by
  induction done with
  | nil => exact fun _ hmem => absurd hmem List.not_mem_nil
  | cons first done ih =>
    obtain ⟨hfirst, hrest⟩ := h
    intro out hmem
    rcases List.mem_cons.mp hmem with rfl | hmem
    · rw [hfirst]
      simp
    · exact ih hrest out hmem

end SecretStream

namespace Reader

/-! ## A reader in front of a cut -/

/-- What is left of a source that ends within a frame, which a reader would take. -/
def CutShort (limit : Nat) (cut : Bytes) : Prop :=
  ∃ chunk, ShortOf cut (Frame.ofChunk chunk) ∧ overhead ≤ chunk.length ∧
    chunk.length ≤ limit + overhead ∧ chunk.length < UInt32.size

variable {r : Reader} {cut text : Bytes}

/-- The step lemma for the cut: the chunk fails, and nothing is left behind it. -/
theorem runFrom_nextChunk_cut (h : Facing r [] cut) (hcut : CutShort r.limit cut) (log : Log) :
    ∃ r' log', nextChunk.runFrom r log =
        { result := .error Frame.truncated, state := r', log := log' } ∧
      Facing r' [] [] ∧ r'.unread = r.unread ∧ CutShort r'.limit [] := by
  obtain ⟨chunk, hshort, hmin, hmax, hsize⟩ := hcut
  have hbytes : r.source.bytes = cut := h.bytes
  obtain ⟨source, hread, hsmooth, hnone⟩ :=
    Frame.runFrom_readFrame_short h.smooth (hbytes.symm ▸ hshort) hmin hmax hsize
  refine ⟨{ r with source }, .inputEnded :: log, ?_,
    ⟨hsmooth, h.finished, h.finalized, h.goesOn, h.fits, hnone⟩, rfl,
    chunk, .of_ne_nil (Frame.ofChunk_ne_nil chunk), hmin, hmax, hsize⟩
  simp only [nextChunk, onSource, Session.runFrom_bind, Session.runFrom_get,
    Session.runFrom_focus, hread]

/-! ## Calls in front of a cut -/

/-- A reader has a text to hand out before its source ends too early. -/
def PendingCut (r : Reader) (text : Bytes) : Prop :=
  ∃ cut, Holding r text cut ∧ CutShort r.limit cut

theorem PendingCut.unfinished (h : PendingCut r text) : r.finished = false := by
  obtain ⟨cut, ⟨outs, hfacing, -⟩, -⟩ := h
  exact hfacing.finished

/-- How a call for at most `n` bytes ends in front of a cut. -/
inductive CutCall (n : Nat) : Except Failure Bytes → Prop
  | handsOut {piece : Bytes} : piece.length ≤ n → (0 < n → piece ≠ []) → CutCall n (.ok piece)
  | fails : 0 < n → CutCall n (.error Frame.truncated)

/-- A call that asks for something fails where nothing is left to hand out. -/
theorem runFrom_read_cut_nil (h : PendingCut r []) {n : Nat} (hn : 0 < n) (log : Log) :
    ∃ r' log', (read n).runFrom r log =
        { result := .error Frame.truncated, state := r', log := log' } ∧ PendingCut r' [] := by
  obtain ⟨cut, hholding, hcut⟩ := h
  obtain ⟨r₁, log₁, hrun, hfacing, hunread, hlimit⟩ := hholding.runFrom_read_nil hn log
  obtain ⟨r₂, log₂, hnext, hfacing', hunread', hcut'⟩ :=
    runFrom_nextChunk_cut hfacing (hlimit ▸ hcut) log₁
  have hskip := skipToPlaintext_of_error (by simp [hunread, hfacing.finished]) hnext
  refine ⟨r₂, log₂, ?_, [], ⟨[], hfacing', ?_⟩, hcut'⟩
  · rw [hrun]
    simp only [read, hn, if_pos, Session.runFrom_bind, Session.runFrom_ofRun, hskip]
  · rw [hunread', hunread]
    rfl

/-- The step lemma: a call takes a piece from the front of the text, and fails only at its end. -/
theorem runFrom_read_cut (h : PendingCut r text) (n : Nat) (log : Log) :
    ∃ result r' log' rest, (read n).runFrom r log = { result, state := r', log := log' } ∧
      CutCall n result ∧ text = handedOut [result] ++ rest ∧ PendingCut r' rest ∧
      (result = .error Frame.truncated → rest = []) := by
  rcases Nat.eq_zero_or_pos n with rfl | hn
  · exact ⟨.ok [], r, log, text, rfl, .handsOut (Nat.le_refl 0) fun hpos => absurd hpos (by decide),
      rfl, h, fun herror => by cases herror⟩
  · by_cases hsome : text = []
    · subst hsome
      obtain ⟨r', log', hrun, hpending⟩ := runFrom_read_cut_nil h hn log
      exact ⟨_, r', log', [], hrun, .fails hn, rfl, hpending, fun _ => rfl⟩
    · obtain ⟨cut, hholding, hcut⟩ := h
      obtain ⟨piece, rest, r', log', hrun, htext, hpiece, hle, hholding', hlimit⟩ :=
        hholding.runFrom_read hsome hn log
      refine ⟨.ok piece, r', log', rest, hrun, .handsOut hle fun _ => hpiece, ?_,
        ⟨cut, hholding', hlimit ▸ hcut⟩, fun herror => by cases herror⟩
      rw [handedOut_ok, htext]

/-- The run lemma: calls hand out the text in order and fail only when all of it is out. -/
theorem calls_cut (reading : Reading) (h : PendingCut reading.reader text) (sizes : List Nat) :
    ∃ results rest, (reading.calls sizes).results = reading.results ++ results ∧
      List.Forall₂ CutCall sizes results ∧ text = handedOut results ++ rest ∧
      PendingCut (reading.calls sizes).reader rest ∧
      (.error Frame.truncated ∈ results → rest = []) := by
  induction sizes generalizing reading text with
  | nil =>
    exact ⟨[], text, (List.append_nil _).symm, .nil, rfl, h,
      fun hmem => absurd hmem List.not_mem_nil⟩
  | cons n sizes ih =>
    obtain ⟨result, r', log', rest, hrun, hcall, rfl, hpending, hfails⟩ :=
      runFrom_read_cut h n reading.log
    have hcalled := Reading.call_of_read hrun
    obtain ⟨results, rest', hresults', hcalls, htext, hpending', hfails'⟩ :=
      ih (reading.call n) (by rw [hcalled]; exact hpending)
    refine ⟨result :: results, rest', ?_, .cons hcall hcalls, ?_, hpending', fun hmem => ?_⟩
    · rw [Reading.calls_cons, hresults', hcalled, List.append_assoc]
      rfl
    · rw [htext, ← List.append_assoc, ← handedOut_append]
      rfl
    · rcases List.mem_cons.mp hmem with hhead | htail
      · have hnone := hfails hhead.symm
        rw [htext] at hnone
        exact (List.append_eq_nil_iff.mp hnone).2
      · exact hfails' htail

/-- Calls that all succeed hand out at least one byte for each that asks for some. -/
theorem length_le_of_calls {sizes : List Nat} {results : List (Except Failure Bytes)}
    (h : List.Forall₂ CutCall sizes results) (hnone : .error Frame.truncated ∉ results) :
    (sizes.filter (0 < ·)).length ≤ (handedOut results).length := by
  induction h with
  | nil => exact Nat.le_refl 0
  | @cons n result sizes results hcall _ ih =>
    have hrest := ih fun hmem => hnone (List.mem_cons_of_mem _ hmem)
    cases hcall with
    | fails hn => exact absurd List.mem_cons_self hnone
    | @handsOut piece hle hsome =>
      have hsplit : handedOut (.ok piece :: results) = piece ++ handedOut results := rfl
      rw [hsplit, List.length_append]
      by_cases hn : 0 < n
      · have hpos := List.length_pos_iff.mpr (hsome hn)
        simp only [List.filter_cons, hn, decide_true, if_true, List.length_cons]
        omega
      · simp only [List.filter_cons, hn, decide_false, Bool.false_eq_true, if_false]
        omega

/-- How calls for at most so many bytes go in front of a cut that holds a text: each one that asks
for something hands something out or fails, what was handed out is a front of the text, all of it
once a call failed, and a call fails at the latest when there was nothing left to hand out. -/
structure CutReading (text : Bytes) (sizes : List Nat) (reading : Reading) : Prop where
  calls : List.Forall₂ CutCall sizes reading.results
  isFront : handedOut reading.results <+: text
  whole : .error Frame.truncated ∈ reading.results → handedOut reading.results = text
  reported : text.length < (sizes.filter (0 < ·)).length →
    .error Frame.truncated ∈ reading.results
  unfinished : reading.reader.finished = false

theorem PendingCut.cutReading {r : Reader} (h : PendingCut r text) (log : Log) (sizes : List Nat) :
    CutReading text sizes ((Reading.start r log).calls sizes) := by
  obtain ⟨results, rest, hresults, hcalls, rfl, hpending, hfails⟩ :=
    calls_cut (Reading.start r log) h sizes
  have hall : ((Reading.start r log).calls sizes).results = results := hresults
  refine ⟨hall ▸ hcalls, hall ▸ List.prefix_append _ rest, fun hmem => ?_, fun hlong => ?_,
    hpending.unfinished⟩
  · rw [hall] at hmem ⊢
    rw [hfails hmem, List.append_nil]
  · rw [hall]
    by_contra hnone
    have hcount := length_le_of_calls hcalls hnone
    rw [List.length_append] at hlong
    omega

/-! ## A whole stream that is cut short -/

/-- A source that ends within the header makes no reader. -/
theorem runFrom_create_short {source : Source} (hs : source.Smooth)
    (hshort : source.bytes.length < headerSize) (key : FixedBytes 32) (ad : Bytes) (limit : Nat)
    (log : Log) :
    ∃ source' log', (create key ad limit).runFrom source log =
      { result := .error Frame.truncated, state := source', log := log' } := by
  obtain ⟨after, hread, -⟩ := Frame.runFrom_readOrTruncated_short hs hshort
  exact ⟨after, .inputEnded :: log, by simp only [create, Session.runFrom_bind, hread]⟩

section

variable {key : FixedBytes 32} {header : Header} {ad : Bytes} {c limit : Nat} {t : Bytes}
  {source : Source}

/-- A reader of a writer's output that is cut behind the header has the whole frames' plaintexts
to hand out. -/
theorem pendingCut_of_written (hc : 0 < c) (hlimit : c ≤ limit)
    (hsizes : ∀ out ∈ Writer.chunksOf ad c t, out.plaintext.length + overhead < UInt32.size)
    (hs : source.Smooth)
    (hcut : ShortOf source.bytes ((ofHeader key header).frames (Writer.chunksOf ad c t))) :
    PendingCut (atStart key header ad limit source)
      ((ofHeader key header).heldText (Writer.chunksOf ad c t) source.bytes) := by
  have hfits : ∀ out ∈ Writer.chunksOf ad c t, Fits ad limit out := by
    intro out hmem
    obtain ⟨had, hle⟩ := Writer.of_mem_chunksOf hc hmem
    exact ⟨had, hle.trans hlimit, hsizes out hmem⟩
  have honce := Writer.endsOnce_chunksOf ad c t
  obtain ⟨done, next, rest, cut, hchunks, hbytes, hcut', htext⟩ := exists_cut hcut
  rw [htext]
  rw [hchunks] at hfits honce
  obtain ⟨-, hle, hsize⟩ := hfits next (by simp)
  have hlength : (((ofHeader key header).afterAll done).outChunk next).length =
      next.plaintext.length + overhead := length_chunk ..
  refine ⟨cut, ⟨done, ⟨hs, rfl, rfl, honce.not_final, fun out hmem => hfits out (by simp [hmem]),
    hbytes⟩, rfl⟩, _, hcut', ?_, ?_, ?_⟩
  all_goals rw [hlength]
  · exact Nat.le_add_left ..
  · exact Nat.add_le_add_right hle overhead
  · exact hsize

/-- A source that ends too early makes no reader, or one with the whole frames' plaintexts to hand
out. -/
theorem create_cut (hc : 0 < c) (hlimit : c ≤ limit)
    (hsizes : ∀ out ∈ Writer.chunksOf ad c t, out.plaintext.length + overhead < UInt32.size)
    (hs : source.Smooth) (hcut : ShortOf source.bytes (Writer.streamOf key header ad c t))
    (log : Log) :
    ∃ text, text = (ofHeader key header).heldText (Writer.chunksOf ad c t)
          (source.bytes.drop headerSize) ∧
      ((source.bytes.length < headerSize ∧ text = [] ∧
        ∃ after log', (create key ad limit).runFrom source log =
          { result := .error Frame.truncated, state := after, log := log' }) ∨
      (headerSize ≤ source.bytes.length ∧
        ∃ reader after log', (create key ad limit).runFrom source log =
            { result := .ok reader, state := after, log := log' } ∧ PendingCut reader text)) := by
  refine ⟨_, rfl, ?_⟩
  rcases ShortOf.cases hcut with hheader | ⟨more, hbytes, hmore⟩
  · have hshort : source.bytes.length < headerSize := by
      have hlt := hheader.length_lt
      rwa [header.length_toList] at hlt
    refine Or.inl ⟨hshort, ?_, runFrom_create_short hs hshort key ad limit log⟩
    rw [List.drop_of_length_le (Nat.le_of_lt hshort), heldText_nil]
  · obtain ⟨after, log', hcreate, hsmooth, rfl⟩ := runFrom_create hs hbytes key ad limit log
    have hbehind : source.bytes.drop headerSize = after.bytes := by
      rw [hbytes]
      exact List.drop_left' header.length_toList
    have hlong : headerSize ≤ source.bytes.length := by
      rw [hbytes, List.length_append, header.length_toList]
      exact Nat.le_add_right ..
    rw [hbehind]
    exact Or.inr ⟨hlong, _, after, log', hcreate,
      pendingCut_of_written hc hlimit hsizes hsmooth hmore⟩

end

end Reader

/-! ## Passing a stream on -/

namespace Pipe

/-- All the plaintext in front of the cut is passed on. -/
theorem drain_cut {reader : Reader} {text : Bytes} {sink : Sink} (h : reader.PendingCut text)
    (hs : sink.Smooth) (log : Log) :
    ∃ sink' log', drain reader sink log =
        { result := .error Frame.truncated, state := sink', log := log' } ∧
      sink'.taken = sink.taken ++ text := by
  fun_induction drain reader sink log generalizing text with
  | case1 reader sink log f r' log' hread =>
    obtain ⟨_, _, _, rest, hrun, hcall, rfl, -, hfails⟩ := Reader.runFrom_read_cut h portion log
    rw [hread] at hrun
    cases hrun
    cases hcall
    exact ⟨sink, log', rfl, by rw [hfails rfl]; simp⟩
  | case2 reader sink log r' log' hread =>
    obtain ⟨_, _, _, rest, hrun, hcall, -⟩ := Reader.runFrom_read_cut h portion log
    rw [hread] at hrun
    cases hrun
    cases hcall with
    | handsOut _ hsome => exact absurd rfl (hsome (by decide))
  | case3 reader sink log b bs r' log' hread f sink' log'' hfailed =>
    obtain ⟨after, hsend, -⟩ := Sink.runFrom_send_smooth hs "stream write" (b :: bs)
    rw [hsend] at hfailed
    cases hfailed
  | case4 reader sink log b bs r' log' hread sink' log'' hsent ih =>
    obtain ⟨_, _, _, rest, hrun, -, rfl, hpending, -⟩ := Reader.runFrom_read_cut h portion log
    rw [hread] at hrun
    cases hrun
    obtain ⟨after, hsend, hsmooth, htaken⟩ := Sink.runFrom_send_smooth hs "stream write" (b :: bs)
    rw [hsend] at hsent
    cases hsent
    obtain ⟨sink', log', hdrain, hall⟩ := ih hpending hsmooth
    refine ⟨sink', log', hdrain, ?_⟩
    rw [hall, htaken, Reader.handedOut_ok, List.append_assoc]

/-- A stream that ends too early is passed on up to the cut, and reported. -/
theorem decrypt_cut {key : FixedBytes 32} {header : Header} {ad : Bytes} {c : Nat} {t : Bytes}
    {source : Source} (hc : 0 < c) (hlimit : c ≤ Reader.defaultLimit)
    (hsizes : ∀ out ∈ Writer.chunksOf ad c t, out.plaintext.length + overhead < UInt32.size)
    (hs : source.Smooth) (hcut : ShortOf source.bytes (Writer.streamOf key header ad c t))
    {sink : Sink} (hsink : sink.Smooth) :
    ((decrypt key ad source).runOn sink).result = .error Frame.truncated ∧
      ((decrypt key ad source).runOn sink).state.taken = sink.taken ++
        (ofHeader key header).heldText (Writer.chunksOf ad c t) (source.bytes.drop headerSize) := by
  obtain ⟨text, htext, ⟨-, hnone, after, log, hcreate⟩ |
    ⟨-, reader, after, log, hcreate, hpending⟩⟩ := Reader.create_cut hc hlimit hsizes hs hcut []
  all_goals rw [← htext]
  · simp only [decrypt, Session.runOn, Session.runFrom_bind, Session.runFrom_focus, hcreate, hnone,
      List.append_nil, and_self]
  · obtain ⟨sink', log', hdrain, hall⟩ := drain_cut hpending hsink log
    simp only [decrypt, Session.runOn, Session.runFrom_bind, Session.runFrom_focus, hcreate,
      Session.runFrom_ofRun, hdrain, hall, and_self]

end Pipe

open Reader Writer in
/-- A truncation is reported wherever it is. A writer whose run ends well has sent a stream,
whatever its sink did on the way; take any front of this stream that is not all of it, and a source
that delivers this front. If the front ends within the header, there is no reader with the same key
and associated data. Else calls of the reader hand out exactly the plaintexts of the frames that the
front holds as a whole, none of them gives nothing where something was asked for, all fail as
truncated once this text is out, and the reader is never finished. Passing the stream on fails in
the same way behind exactly this text. -/
theorem reports_truncation {key : FixedBytes 32} {header : Header} {ad : Bytes} {c : Nat}
    {writes : List Bytes} {sink : Sink}
    (hwritten : ((sendStream key header ad c writes).runOn sink).result = .ok ()) :
    ((sendStream key header ad c writes).runOn sink).state.taken =
        sink.taken ++ streamOf key header ad c writes.flatten ∧
      ∀ cut : Bytes, ShortOf cut (streamOf key header ad c writes.flatten) →
      ∀ source : Source, source.Smooth → source.bytes = cut →
      ∃ text : Bytes,
        text = (ofHeader key header).heldText (chunksOf ad c writes.flatten)
          (cut.drop headerSize) ∧
        (∀ limit, c ≤ limit →
          (cut.length < headerSize →
            ((create key ad limit).runOn source).result = .error Frame.truncated) ∧
          (headerSize ≤ cut.length →
            ∃ reader, ((create key ad limit).runOn source).result = .ok reader ∧
              ∀ (log : Log) (sizes : List Nat),
                CutReading text sizes ((Reading.start reader log).calls sizes))) ∧
        (c ≤ defaultLimit → ∀ out : Sink, out.Smooth →
          ((Pipe.decrypt key ad source).runOn out).result = .error Frame.truncated ∧
          ((Pipe.decrypt key ad source).runOn out).state.taken = out.taken ++ text) := by
  obtain ⟨htaken, hc, hsizes⟩ := taken_of_sendStream hwritten
  refine ⟨htaken, ?_⟩
  rintro cut hcut source hs rfl
  refine ⟨_, rfl, fun limit hlimit => ?_, fun hlimit out hout =>
    Pipe.decrypt_cut hc hlimit hsizes hs hcut hout⟩
  obtain ⟨text, htext, ⟨hshort, -, after, log, hcreate⟩ |
    ⟨hlong, reader, after, log, hcreate, hpending⟩⟩ := create_cut hc hlimit hsizes hs hcut []
  · exact ⟨fun _ => by rw [Session.runOn, hcreate],
      fun hlong => absurd hshort (Nat.not_lt.mpr hlong)⟩
  · refine ⟨fun hshort => absurd hshort (Nat.not_lt.mpr hlong), fun _ => ?_⟩
    rw [← htext]
    exact ⟨reader, by rw [Session.runOn, hcreate], hpending.cutReading⟩

open Reader Writer in
/-- Three bytes in chunks of two, cut behind the first chunk's frame. -/
theorem reports_truncation_behind_a_frame :
    ∃ (cut : Bytes) (reader : Reader),
      ((sendStream (.zero 32) (.zero 24) [5] 2 [[1], [2, 3]]).runOn
        ⟨[], [.accept 1, .fail .interrupted], none⟩).result = .ok () ∧
      ShortOf cut (streamOf (.zero 32) (.zero 24) [5] 2 [1, 2, 3]) ∧
      ((create (.zero 32) [5] 2).runOn [.data cut]).result = .ok reader ∧
      .error Frame.truncated ∈ ((Reading.start reader []).calls [1, 4, 4]).results ∧
      handedOut ((Reading.start reader []).calls [1, 4, 4]).results = [1, 2] ∧
      ((Pipe.decrypt (.zero 32) [5] [.data cut]).runOn ⟨[], [], none⟩).result =
        .error Frame.truncated ∧
      ((Pipe.decrypt (.zero 32) [5] [.data cut]).runOn ⟨[], [], none⟩).state.taken = [1, 2] := by
  have hsink : Sink.Smooth ⟨[], [.accept 1, .fail .interrupted], none⟩ :=
    ⟨by simp [SinkEvent.Smooth], rfl⟩
  have hwritten : ((sendStream (.zero 32) (.zero 24) [5] 2 [[1], [2, 3]]).runOn
      ⟨[], [.accept 1, .fail .interrupted], none⟩).result = .ok () := by
    obtain ⟨sink', log', hsend, -⟩ := runFrom_sendStream hsink (.zero 32) (.zero 24) [5] (c := 2)
      (by decide) (by decide) [[1], [2, 3]] []
    rw [Session.runOn, hsend]
  let s := ofHeader (.zero 32) (.zero 24)
  let first : Outgoing := ⟨[1, 2], [5], .message⟩
  let last : Outgoing := ⟨[3], [5], .final⟩
  let cut := (FixedBytes.zero headerSize).toList ++ Frame.ofChunk (s.outChunk first)
  have hcut : ShortOf cut (streamOf (.zero 32) (.zero 24) [5] 2 [1, 2, 3]) := by
    have hshort : ShortOf [] ((s.after first).frames [last]) := by
      rw [frames_singleton]
      exact .of_ne_nil (Frame.ofChunk_ne_nil _)
    have hfront := (hshort.append_left (Frame.ofChunk (s.outChunk first))).append_left
      (FixedBytes.zero headerSize).toList
    rwa [List.append_nil] at hfront
  have hbytes : Source.bytes [.data cut] = cut := List.append_nil cut
  have hlength : headerSize ≤ cut.length := by
    rw [List.length_append, FixedBytes.length_toList]
    exact Nat.le_add_right ..
  obtain ⟨-, hall⟩ := reports_truncation hwritten
  obtain ⟨text, htext, hread, hpipe⟩ := hall cut hcut [.data cut]
    (by simp [Source.Smooth, SourceEvent.Smooth, cut, Frame.ofChunk_ne_nil]) hbytes
  have hheld : text = [1, 2] := by
    have hfirst := s.heldText_frame_append first [last] []
    rw [heldText_nil, List.append_nil] at hfirst
    rw [htext, List.drop_left' (FixedBytes.length_toList _)]
    exact hfirst
  subst hheld
  obtain ⟨reader, hcreate, hreading⟩ := (hread 2 (Nat.le_refl 2)).2 hlength
  have hcalls := hreading [] [1, 4, 4]
  have herror := hcalls.reported (by decide)
  obtain ⟨hfails, htaken⟩ := hpipe (by decide) ⟨[], [], none⟩ ⟨by simp, rfl⟩
  exact ⟨cut, reader, hwritten, hcut, hcreate, herror, hcalls.whole herror, hfails, htaken⟩

end AuthEncryption
