import AuthEncryption.Proofs.Transfer.Writing

/-!
# The bytes of a text

What a writer sends depends on the text alone and not on the writes in which it comes. A sink that
takes everything, in parts of any size, has the header and then a frame for each chunk that a
sender makes one after the other: the full ones, each with the same length in front, and the final
one, which may be empty. Behind every write less than a chunk is waiting.
-/
namespace AuthEncryption

open SecretStream

namespace SecretStream

variable {s : SecretStream} {outs : List Outgoing}

theorem exists_runFrom_push (hopen : s.finalized = false) {out : Outgoing}
    (hfits : out.plaintext.length ≤ messageMax) (log : Log) :
    ∃ log', (push out.plaintext out.ad out.tag).runFrom s log =
      { result := .ok (s.outChunk out), state := s.after out, log := log' } :=
  ⟨_, s.runFrom_push hopen hfits out.ad out.tag log⟩

/-- Chunks that are not final, and one behind them, are made one after the other. Their frames
are those of the run. -/
theorem runFrom_pushAll (hopen : s.finalized = false)
    (hgoing : ∀ out ∈ outs, out.tag.isFinal = false)
    {last : Outgoing} (hfits : ∀ out ∈ outs ++ [last], out.plaintext.length ≤ messageMax)
    (log : Log) :
    ∃ chunks final log', (pushAll (outs ++ [last])).runFrom s log =
        { result := .ok (chunks ++ [final]), state := s.afterAll (outs ++ [last]), log := log' } ∧
      (∀ chunk ∈ chunks, ∃ out ∈ outs, chunk.length = out.plaintext.length + overhead) ∧
      s.frames (outs ++ [last]) = (chunks.map Frame.ofChunk).flatten ++ Frame.ofChunk final := by
  induction outs generalizing s log with
  | nil =>
    obtain ⟨log', hpush⟩ := exists_runFrom_push hopen (hfits last (List.mem_singleton_self _)) log
    refine ⟨[], s.outChunk last, log', ?_, by simp, frames_singleton s last⟩
    simp only [List.nil_append, pushAll, Session.runFrom_bind, hpush, Session.runFrom_pure]
    rfl
  | cons out outs ih =>
    obtain ⟨log₁, hpush⟩ := exists_runFrom_push hopen (hfits out List.mem_cons_self) log
    have hnext : (s.after out).finalized = false := by
      rw [after, finalized_next, hopen, hgoing out List.mem_cons_self]
      rfl
    obtain ⟨chunks, final, log', hrun, hlengths, hframes⟩ := ih hnext
      (fun o ho => hgoing o (List.mem_cons_of_mem _ ho))
      (fun o ho => hfits o (List.mem_cons_of_mem _ ho)) log₁
    refine ⟨s.outChunk out :: chunks, final, log', ?_, fun chunk hmem => ?_, ?_⟩
    · simp only [List.cons_append, pushAll, Session.runFrom_bind, hpush, hrun,
        Session.runFrom_pure]
      rfl
    · rcases List.mem_cons.mp hmem with rfl | hrest
      · exact ⟨out, List.mem_cons_self, s.length_chunk ..⟩
      · obtain ⟨o, ho, hlength⟩ := hlengths chunk hrest
        exact ⟨o, List.mem_cons_of_mem _ ho, hlength⟩
    · rw [List.cons_append, frames, hframes, List.map_cons, List.flatten_cons, List.append_assoc]

end SecretStream

namespace Writer

variable {w : Writer} {c : Nat}

/-- The full chunks of a text by their places, and the final one. -/
theorem chunksOf_eq_map (ad : Bytes) (c : Nat) (text : Bytes) :
    chunksOf ad c text =
      (List.range (text.length / c)).map (fun i => message ad ((text.drop (i * c)).take c)) ++
        [{ plaintext := text.drop (text.length / c * c), ad, tag := .final }] := by
  rw [chunksOf, fullChunks, Bytes.fullPieces, Bytes.takePieces_eq_map, List.map_map,
    Bytes.leftover, Nat.mul_comm]
  rfl

/-- Behind every write less than a chunk is waiting. -/
theorem runFrom_writes_smooth (hopen : w.stream.finalized = false) (hbuffer : w.buffer = [])
    (hs : w.sink.Smooth) (hsize : w.chunkSize + overhead < UInt32.size) (writes : List Bytes)
    (log : Log) :
    ∃ w' log', (forM writes write : Session Writer Unit).runFrom w log =
        { result := .ok (), state := w', log := log' } ∧ w'.buffer.length < w.chunkSize := by
  have hwrites := sends_writes hopen (behind_nil hbuffer) writes log
  obtain ⟨w', log', hrun, -, hleft⟩ := hwrites.of_smooth hs fun out hmem => by
    rwa [length_of_mem_fullChunks hmem]
  refine ⟨w', log', hrun, ?_⟩
  rw [hleft, Bytes.length_leftover]
  exact Nat.mod_lt _ w.chunkSize_pos

/-- A sender makes the chunks of a text, and their frames are what the text is sent as. The full
ones have the same length. -/
theorem exists_sent_chunksOf (key : FixedBytes 32) (header : Header) (ad : Bytes) (hc : 0 < c)
    (hsize : c + overhead < UInt32.size) (text : Bytes) :
    ∃ chunks final, (sent key header (chunksOf ad c text)).result = .ok (chunks ++ [final]) ∧
      (ofHeader key header).frames (chunksOf ad c text) =
        (chunks.map fun chunk => Bytes.ofNatLE 4 (c + overhead) ++ chunk).flatten ++
          Frame.ofChunk final := by
  obtain ⟨chunks, final, log, hrun, hlengths, hframes⟩ :=
    runFrom_pushAll (s := ofHeader key header) rfl (goesOn_messages ad (Bytes.fullPieces c text))
      (fun out hmem => le_messageMax (size_of_mem_chunksOf hc hsize hmem)) [.initialized .push]
  refine ⟨chunks, final, congrArg Outcome.result hrun, hframes.trans ?_⟩
  congr 2
  refine List.map_congr_left fun chunk hmem => ?_
  obtain ⟨out, hout, hlength⟩ := hlengths chunk hmem
  rw [Frame.ofChunk, hlength, length_of_mem_fullChunks hout]

/-- The output of a writer depends on what is written only. Over a sink that takes everything, in
parts of any size, a text goes out in the same way whatever the writes that make it up: every
write succeeds and leaves less than a chunk in the buffer, and behind the end of the stream the
sink has the header, then, for every full chunk of the text in order, its length and the chunk,
and then the frame of the final chunk with the rest of the text, all of them made one after the
other by one sender. -/
theorem output_of_text (key : FixedBytes 32) (header : Header) (ad : Bytes) {c : Nat}
    (hc : 1 ≤ c) (hsize : c + 17 < 2 ^ 32) {sink : Sink} (hsink : sink.Smooth)
    (writes : List Bytes) :
    ∃ w log, (create key header ad c).runOn sink = { result := .ok w, state := w.sink, log } ∧
      (∀ front, front <+: writes → ∃ w' log',
        (forM front write : Session Writer Unit).runFrom w log =
          { result := .ok (), state := w', log := log' } ∧ w'.buffer.length < c) ∧
      ∃ chunks final w' log',
        let text := writes.flatten
        let full := (List.range (text.length / c)).map fun i =>
          { plaintext := (text.drop (i * c)).take c, ad, tag := .message : Outgoing }
        let last := { plaintext := text.drop (text.length / c * c), ad, tag := .final : Outgoing }
        (sent key header (full ++ [last])).result = .ok (chunks ++ [final]) ∧
        (do forM writes write; finalize : Session Writer Unit).runFrom w log =
          { result := .ok (), state := w', log := log' } ∧
        w'.sink.taken = sink.taken ++ header.toList ++
          (chunks.map fun chunk => Bytes.ofNatLE 4 (c + 17) ++ chunk).flatten ++
            Frame.ofChunk final := by
  rcases create_cases hc (le_capacityLimit hsize) key header ad sink [] with
    ⟨w, log, hcreate, hstarted⟩ | ⟨-, -, -, -, -, -, -, hrough⟩
  · refine ⟨w, log, hcreate, fun front _ => ?_, ?_⟩
    · have hwrites := runFrom_writes_smooth hstarted.unfinished hstarted.buffer
        (hstarted.smooth hsink) (hstarted.chunkSize.symm ▸ hsize) front log
      rwa [hstarted.chunkSize] at hwrites
    · obtain ⟨chunks, final, hsent, hframes⟩ :=
        exists_sent_chunksOf key header ad hc hsize writes.flatten
      obtain ⟨w', log', hrun, htaken⟩ :=
        runFrom_writes_finalize_smooth hstarted hsink hc hsize writes log
      refine ⟨chunks, final, w', log', ?_, hrun, ?_⟩
      · rw [chunksOf_eq_map] at hsent
        exact hsent
      · rw [htaken, hframes, ← List.append_assoc]
        rfl
  · exact absurd hsink hrough

/-- Three bytes in three writes, one of them empty, cut at two, through a sink that takes one byte
first. -/
theorem output_of_text_of_three_writes :
    1 ≤ 2 ∧ 2 + 17 < 2 ^ 32 ∧ Sink.Smooth ⟨[], [.accept 1, .fail .interrupted], none⟩ ∧
      ∃ w log chunks final w' log',
        (create (.zero 32) (.zero 24) [5] 2).runOn ⟨[], [.accept 1, .fail .interrupted], none⟩ =
          { result := .ok w, state := w.sink, log } ∧
        (sent (.zero 32) (.zero 24) [⟨[1, 2], [5], .message⟩, ⟨[3], [5], .final⟩]).result =
          .ok (chunks ++ [final]) ∧
        (do forM [[1], [], [2, 3]] write; finalize : Session Writer Unit).runFrom w log =
          { result := .ok (), state := w', log := log' } ∧
        w'.sink.taken = (FixedBytes.zero 24).toList ++
          (chunks.map fun chunk => Bytes.ofNatLE 4 19 ++ chunk).flatten ++
            Frame.ofChunk final := by
  have hc : 1 ≤ 2 := by decide
  have hsize : 2 + 17 < 2 ^ 32 := by norm_num
  have hsink : Sink.Smooth ⟨[], [.accept 1, .fail .interrupted], none⟩ :=
    ⟨by simp [SinkEvent.Smooth], rfl⟩
  obtain ⟨w, log, hcreate, -, chunks, final, w', log', hsent, hrun, htaken⟩ :=
    output_of_text (.zero 32) (.zero 24) [5] hc hsize hsink [[1], [], [2, 3]]
  exact ⟨hc, hsize, hsink, w, log, chunks, final, w', log', hcreate, hsent, hrun, htaken⟩

end Writer

end AuthEncryption
