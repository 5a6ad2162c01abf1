import AuthEncryption.Proofs.Transfer.Sending

/-!
# A whole stream is sent

A text that is written in parts and then ended goes out as one run of chunks. If this run ends
well, whatever the sink did on the way, the output is the header and the frames of the text
alone; and it ends well if the sink takes everything and no chunk is too long.
-/
namespace AuthEncryption

open SecretStream

namespace Writer

/-- Sends a whole text, given in parts, under a header. -/
def sendStream (key : FixedBytes 32) (header : Header) (ad : Bytes) (chunkSize : Nat)
    (writes : List Bytes) : Session Sink Unit := do
  let writer ← create key header ad chunkSize
  (do forM writes write; finalize : Session Writer Unit).focus
    (fun sink => { writer with sink }) fun _ w => w.sink

variable {w : Writer} {key : FixedBytes 32} {header : Header} {ad : Bytes} {c : Nat} {sink : Sink}
  {writes : List Bytes} {log : Log}

/-- A writer that just started sends a text as the run of its chunks. -/
theorem sends_writes_finalize (h : Started key header ad c sink w) (writes : List Bytes)
    (log : Log) :
    Sends w (chunksOf ad c writes.flatten) []
        ((do forM writes write; finalize : Session Writer Unit).runFrom w log) ∨
      ∃ kind w' log', (do forM writes write; finalize : Session Writer Unit).runFrom w log =
          { result := .error (.error (.io "stream flush" kind)), state := w', log := log' } ∧
        Put w (chunksOf ad c writes.flatten) w' ∧ w'.sink.flushFailure = some kind := by
  have hwrites := sends_writes h.unfinished (behind_nil h.buffer) writes log
  rw [List.nil_append] at hwrites
  rw [Session.runFrom_bind, ← h.ad, ← h.chunkSize]
  generalize (forM writes write : Session Writer Unit).runFrom w log = outcome at hwrites
  cases hwrites with
  | all hput hbuffer => exact sends_finalize h.unfinished ⟨hput, hbuffer⟩ _
  | stopped hstopped => exact Or.inl (.stopped (hstopped.append _))

/-- A run that ends well has sent the whole stream, in chunks whose lengths four bytes hold. -/
theorem taken_of_sendStream
    (h : ((sendStream key header ad c writes).runFrom sink log).result = .ok ()) :
    ((sendStream key header ad c writes).runFrom sink log).state.taken =
        sink.taken ++ streamOf key header ad c writes.flatten ∧
      0 < c ∧ ∀ out ∈ chunksOf ad c writes.flatten,
        out.plaintext.length + overhead < UInt32.size := by
  rw [sendStream, Session.runFrom_bind] at h ⊢
  rcases hcreate : (create key header ad c).runFrom sink log with ⟨result, after, log₁⟩
  rw [hcreate] at h
  cases result with
  | error f => cases h
  | ok w =>
    obtain ⟨rfl, hstarted⟩ := started_of_create hcreate
    simp only [Session.runFrom_focus] at h ⊢
    rcases sends_writes_finalize hstarted writes log₁ with hsends | ⟨kind, w', log', hrun, -⟩
    · generalize (do forM writes write; finalize : Session Writer Unit).runFrom w log₁ = outcome
        at h hsends
      cases hsends with
      | all hput hbuffer =>
        refine ⟨?_, hstarted.chunkSize ▸ w.chunkSize_pos, hput.sizes⟩
        rw [hput.taken, hstarted.taken, hstarted.stream, List.append_assoc]
        rfl
      | stopped hstopped => cases h
    · rw [hrun] at h
      cases h

/-- A size that four bytes can hold can be allocated. -/
theorem le_capacityLimit (hsize : c + overhead < UInt32.size) : c ≤ capacityLimit := by
  have hlimit : UInt32.size ≤ capacityLimit := by decide
  omega

/-- A writer that just started sends a whole text to a sink that takes everything. -/
theorem runFrom_writes_finalize_smooth (h : Started key header ad c sink w) (hs : sink.Smooth)
    (hc : 0 < c) (hsize : c + overhead < UInt32.size) (writes : List Bytes) (log : Log) :
    ∃ w' log', (do forM writes write; finalize : Session Writer Unit).runFrom w log =
        { result := .ok (), state := w', log := log' } ∧
      w'.sink.taken = sink.taken ++ header.toList ++
        (ofHeader key header).frames (chunksOf ad c writes.flatten) := by
  rcases sends_writes_finalize h writes log with hsends | ⟨kind, w', log', -, hput, hflush⟩
  · obtain ⟨w', log', hrun, hput, -⟩ :=
      hsends.of_smooth (h.smooth hs) fun out hmem => size_of_mem_chunksOf hc hsize hmem
    refine ⟨w', log', hrun, ?_⟩
    rw [hput.taken, h.taken, h.stream]
  · exact absurd (h.smooth hs) (hput.not_smooth hflush)

/-- The output of a writer is the header and the frames of the text. -/
theorem runFrom_sendStream {sink : Sink} (hs : sink.Smooth) (key : FixedBytes 32) (header : Header)
    (ad : Bytes) {c : Nat} (hc : 0 < c) (hsize : c + overhead < UInt32.size) (writes : List Bytes)
    (log : Log) :
    ∃ sink' log', (sendStream key header ad c writes).runFrom sink log =
        { result := .ok (), state := sink', log := log' } ∧
      sink'.taken = sink.taken ++
        (header.toList ++ (ofHeader key header).frames (chunksOf ad c writes.flatten)) := by
  rcases create_cases hc (le_capacityLimit hsize) key header ad sink log with
    ⟨w, log₁, hcreate, hstarted⟩ | ⟨kind, front, after, log₁, -, -, -, hrough⟩
  · obtain ⟨w', log', hrun, htaken⟩ :=
      runFrom_writes_finalize_smooth hstarted hs hc hsize writes log₁
    refine ⟨w'.sink, log', ?_, ?_⟩
    · simp only [sendStream, Session.runFrom_bind, hcreate, Session.runFrom_focus]
      rw [← Session.runFrom_bind, hrun]
    · rw [htaken, List.append_assoc]
  · exact absurd hs hrough

end Writer

end AuthEncryption
