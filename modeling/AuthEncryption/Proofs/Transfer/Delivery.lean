import AuthEncryption.Proofs.ByteStrings
import AuthEncryption.Proofs.Effects
import AuthEncryption.Transfer.Frame
import AuthEncryption.Transfer.Sink

/-!
# Sources and sinks that do not fail

A source that delivers its bytes in pieces of any size, with interruptions in between, and
a sink that takes what it is offered in parts of any size act as one string each: an exact
read takes the front of what is left, and a string that is sent is added as a whole. A source
that ends within what is read from it, the header, the length of a chunk or the chunk, is a
truncated stream and has nothing left.
-/
namespace AuthEncryption

namespace SourceEvent

/-- An event that delays what a source has to deliver, or delivers a part of it. -/
def Smooth : SourceEvent → Prop
  | data bytes => bytes ≠ []
  | fail kind => kind = .interrupted

end SourceEvent

namespace Source

/-- The bytes that a source has left. -/
def bytes : Source → Bytes
  | [] => []
  | .data piece :: rest => piece ++ bytes rest
  | .fail _ :: rest => bytes rest

/-- A source that delivers all its bytes. -/
def Smooth (source : Source) : Prop := ∀ event ∈ source, event.Smooth

theorem Smooth.tail {event : SourceEvent} {rest : Source} (h : Smooth (event :: rest)) :
    Smooth rest := fun e he => h e (List.mem_cons_of_mem _ he)

/-- Whatever a source does, an exact read takes bytes from its front, and hands out all of them
if it succeeds. -/
theorem bytes_of_readExact (source : Source) (n : Nat) :
    ∃ front, source.bytes = front ++ (source.readExact n).2.bytes ∧
      ∀ got, (source.readExact n).1 = .ok got → got = front := by
  fun_induction readExact source n with
  | case1 source => exact ⟨[], rfl, fun got hok => (Except.ok.inj hok).symm⟩
  | case2 n => exact ⟨[], rfl, fun got hok => by cases hok⟩
  | case3 rest n ih => exact ih
  | case4 kind rest n hkind => exact ⟨[], rfl, fun got hok => by cases hok⟩
  | case5 piece rest n hempty => exact ⟨piece, rfl, fun got hok => by cases hok⟩
  | case6 piece rest n hsome hdrop result after heq ih =>
    obtain ⟨front, hbytes, hgot⟩ := ih
    rw [heq] at hbytes hgot
    refine ⟨piece ++ front, by rw [bytes, hbytes, List.append_assoc], fun got hok => ?_⟩
    cases result with
    | error kind => cases hok
    | ok more =>
      cases hok
      rw [hgot more rfl]
  | case7 piece rest n hsome b later hdrop =>
    refine ⟨piece.take (n + 1), ?_, fun got hok => (Except.ok.inj hok).symm⟩
    rw [bytes, bytes, ← hdrop, ← List.append_assoc, List.take_append_drop]

/-- An exact read takes the front of what is left. -/
theorem readExact_smooth {source : Source} {n : Nat} (hs : source.Smooth)
    (hn : n ≤ source.bytes.length) :
    ∃ rest : Source, source.readExact n = (.ok (source.bytes.take n), rest) ∧ rest.Smooth ∧
      rest.bytes = source.bytes.drop n := by
  fun_induction readExact source n with
  | case1 source => exact ⟨source, rfl, hs, rfl⟩
  | case2 n => simp [bytes] at hn
  | case3 rest n ih => exact ih hs.tail hn
  | case4 kind rest n hkind => exact absurd (hs _ List.mem_cons_self) hkind
  | case5 piece rest n hempty => exact absurd (List.isEmpty_iff.mp hempty) (hs _ List.mem_cons_self)
  | case6 piece rest n hsome hdrop result after heq ih =>
    -- The piece is used up, and the read goes on behind it.
    have hle : piece.length ≤ n + 1 := List.drop_eq_nil_iff.mp hdrop
    obtain ⟨last, hread, hsmooth, hbytes⟩ := ih hs.tail (by simp [bytes] at hn; omega)
    rw [heq] at hread
    cases hread
    refine ⟨after, ?_, hsmooth, ?_⟩
    · rw [bytes, List.take_append, List.take_of_length_le hle]
      rfl
    · rw [bytes, hbytes, List.drop_append, hdrop, List.nil_append]
  | case7 piece rest n hsome b later hdrop =>
    have hlt : n + 1 < piece.length := by
      have hlen := congrArg List.length hdrop
      simp only [List.length_drop, List.length_cons] at hlen
      omega
    refine ⟨.data (b :: later) :: rest, ?_, ?_, ?_⟩
    · rw [bytes, List.take_append_of_le_length (Nat.le_of_lt hlt)]
    · intro event hevent
      rcases List.mem_cons.mp hevent with rfl | hrest
      · exact List.cons_ne_nil b later
      · exact hs.tail event hrest
    · rw [bytes, bytes, List.drop_append_of_le_length (Nat.le_of_lt hlt), hdrop]

/-- An exact read of more than what is left meets the end. -/
theorem readExact_short {source : Source} {n : Nat} (hs : source.Smooth)
    (hn : source.bytes.length < n) :
    ∃ rest : Source, source.readExact n = (.error .unexpectedEof, rest) ∧ rest.Smooth ∧
      rest.bytes = [] := by
  fun_induction readExact source n with
  | case1 source => exact absurd hn (Nat.not_lt_zero _)
  | case2 n => exact ⟨[], rfl, hs, rfl⟩
  | case3 rest n ih => exact ih hs.tail hn
  | case4 kind rest n hkind => exact absurd (hs _ List.mem_cons_self) hkind
  | case5 piece rest n hempty => exact absurd (List.isEmpty_iff.mp hempty) (hs _ List.mem_cons_self)
  | case6 piece rest n hsome hdrop result after heq ih =>
    obtain ⟨last, hread, hsmooth, hnone⟩ := ih hs.tail (by simp [bytes] at hn; omega)
    rw [heq] at hread
    cases hread
    exact ⟨after, rfl, hsmooth, hnone⟩
  | case7 piece rest n hsome b later hdrop =>
    have hlen := congrArg List.length hdrop
    simp only [bytes, List.length_append, List.length_drop, List.length_cons] at hn hlen
    omega

end Source

namespace SinkEvent

/-- An event that takes a part of an offer, or has it repeated. -/
def Smooth : SinkEvent → Prop
  | accept count => 0 < count
  | fail kind => kind = .interrupted

end SinkEvent

namespace Sink

/-- A sink that takes everything. -/
structure Smooth (sink : Sink) : Prop where
  events : ∀ event ∈ sink.events, event.Smooth
  flush : sink.flushFailure = none

theorem deliver_smooth {events : List SinkEvent} (hs : ∀ event ∈ events, event.Smooth)
    (data : Bytes) :
    ∃ rest, deliver events data = (.ok (), data, rest) ∧ ∀ event ∈ rest, event.Smooth := by
  fun_induction deliver events data with
  | case1 events => exact ⟨events, rfl, hs⟩
  | case2 data hdata => exact ⟨[], rfl, hs⟩
  | case3 rest data hdata => exact absurd (hs _ List.mem_cons_self) (Nat.lt_irrefl 0)
  | case4 count rest data hdata hcount result more events heq ih =>
    obtain ⟨last, hdeliver, hsmooth⟩ := ih fun e he => hs e (List.mem_cons_of_mem _ he)
    rw [heq] at hdeliver
    cases hdeliver
    exact ⟨events, by rw [List.take_append_drop], hsmooth⟩
  | case5 rest data hdata ih => exact ih fun e he => hs e (List.mem_cons_of_mem _ he)
  | case6 kind rest data hdata hkind => exact absurd (hs _ List.mem_cons_self) hkind

/-- What is sent is added as a whole. -/
theorem runFrom_send_smooth {sink : Sink} (hs : sink.Smooth) (context : String) (data : Bytes) :
    ∃ after : Sink, (∀ log, (send context data).runFrom sink log =
        { result := .ok (), state := after, log }) ∧
      after.Smooth ∧ after.taken = sink.taken ++ data := by
  obtain ⟨rest, hdeliver, hsmooth⟩ := deliver_smooth hs.events data
  refine ⟨{ sink.keep data with events := rest }, ?_, ⟨hsmooth, hs.flush⟩, taken_keep sink data⟩
  intro log
  simp only [send, Session.runFrom_ofRun, writeAll, hdeliver]
  rfl

end Sink

namespace Frame

/-- A chunk with its length in front. -/
def ofChunk (chunk : Bytes) : Bytes := Bytes.ofNatLE 4 chunk.length ++ chunk

theorem length_ofChunk (chunk : Bytes) : (ofChunk chunk).length = 4 + chunk.length := by
  rw [ofChunk, List.length_append, Bytes.length_ofNatLE]

theorem ofChunk_ne_nil (chunk : Bytes) : ofChunk chunk ≠ [] := by
  intro hnil
  have hlength := length_ofChunk chunk
  rw [hnil, List.length_nil] at hlength
  omega

theorem runFrom_readOrTruncated {source : Source} {front back : Bytes} (hs : source.Smooth)
    (hbytes : source.bytes = front ++ back) {n : Nat} (hn : n = front.length) :
    ∃ after : Source, (∀ log, (readOrTruncated n).runFrom source log =
        { result := .ok front, state := after, log }) ∧
      after.Smooth ∧ after.bytes = back := by
  subst hn
  obtain ⟨after, hread, hsmooth, hrest⟩ := Source.readExact_smooth (n := front.length) hs
    (by rw [hbytes, List.length_append]; omega)
  rw [hbytes] at hread hrest
  rw [List.take_left] at hread
  rw [List.drop_left] at hrest
  refine ⟨after, ?_, hsmooth, hrest⟩
  intro log
  simp only [readOrTruncated, Session.runFrom_ofRun, hread]

/-- How a read ends behind which a stream should have gone on. -/
def truncated : Failure := .error (.forgedOrCorrupted "truncated stream")

theorem runFrom_readOrTruncated_short {source : Source} (hs : source.Smooth) {n : Nat}
    (hn : source.bytes.length < n) :
    ∃ after : Source, (∀ log, (readOrTruncated n).runFrom source log =
        { result := .error truncated, state := after, log := .inputEnded :: log }) ∧
      after.Smooth ∧ after.bytes = [] := by
  obtain ⟨after, hread, hsmooth, hnone⟩ := Source.readExact_short hs hn
  refine ⟨after, ?_, hsmooth, hnone⟩
  intro log
  simp only [readOrTruncated, Session.runFrom_ofRun, hread]
  rfl

/-- The length field of a chunk within the limit is read back. -/
theorem checkedLength_ofNatLE {length limit : Nat} (hmin : SecretStream.overhead ≤ length)
    (hmax : length ≤ limit + SecretStream.overhead) (hsize : length < UInt32.size) :
    checkedLength (Bytes.ofNatLE 4 length) limit = .ok length := by
  have hfour : 256 ^ 4 = UInt32.size := by decide
  have hvalue : Bytes.toNatLE (Bytes.ofNatLE 4 length) = length := by
    rw [Bytes.toNatLE_ofNatLE, hfour, Nat.mod_eq_of_lt hsize]
  have hcipher : Check.ciphertextLength "stream chunk" length SecretStream.overhead = .ok () :=
    if_neg (Nat.not_lt.mpr hmin)
  have hlimit : Check.maxLength "stream chunk" (length - SecretStream.overhead) limit = .ok () :=
    if_neg (by omega)
  simp only [checkedLength, hvalue, hcipher, hlimit, Failure.ok_bind]
  rfl

/-- Whatever a source does, an exact read of a stream takes bytes from its front. -/
theorem bytes_of_readOrTruncated (n : Nat) (source : Source) (log : Log) :
    ∃ front, source.bytes = front ++ ((readOrTruncated n).runFrom source log).state.bytes ∧
      ∀ got, ((readOrTruncated n).runFrom source log).result = .ok got → got = front := by
  obtain ⟨front, hbytes, hgot⟩ := source.bytes_of_readExact n
  rcases hread : source.readExact n with ⟨result, rest⟩
  rw [hread] at hbytes hgot
  refine ⟨front, ?_⟩
  simp only [readOrTruncated, Session.runFrom_ofRun, hread]
  cases result with
  | ok read => exact ⟨hbytes, fun got hok => hgot got (by cases hok; rfl)⟩
  | error kind => cases kind <;> exact ⟨hbytes, fun got hok => by cases hok⟩

/-- Whatever a source does, a frame is taken from its front: a chunk that is read stands there. -/
theorem bytes_of_readFrame (limit : Nat) (source : Source) (log : Log) :
    ∃ front, source.bytes = front ++ ((readFrame limit).runFrom source log).state.bytes ∧
      ∀ chunk, ((readFrame limit).runFrom source log).result = .ok chunk → chunk <:+ front := by
  obtain ⟨field, hfield, -⟩ := bytes_of_readOrTruncated 4 source log
  simp only [readFrame, Session.runFrom_bind]
  rcases hread : (readOrTruncated 4).runFrom source log with ⟨result, source₁, log₁⟩
  rw [hread] at hfield
  cases result with
  | error f => exact ⟨field, hfield, fun chunk hok => by cases hok⟩
  | ok got =>
    simp only [Session.runFrom_liftError]
    cases checkedLength got limit with
    | error cause => exact ⟨field, hfield, fun chunk hok => by cases hok⟩
    | ok length =>
      obtain ⟨front, hfront, hgot⟩ := bytes_of_readOrTruncated length source₁ log₁
      refine ⟨field ++ front, ?_, fun chunk hok => ?_⟩
      · rw [List.append_assoc]
        exact hfield.trans (congrArg (field ++ ·) hfront)
      · rw [hgot chunk hok]
        exact List.suffix_append field front

/-- A frame is read back to its chunk, and nothing behind it is touched. -/
theorem runFrom_readFrame {source : Source} {chunk back : Bytes} {limit : Nat}
    (hs : source.Smooth) (hbytes : source.bytes = ofChunk chunk ++ back)
    (hmin : SecretStream.overhead ≤ chunk.length)
    (hmax : chunk.length ≤ limit + SecretStream.overhead) (hsize : chunk.length < UInt32.size) :
    ∃ after : Source, (∀ log, (readFrame limit).runFrom source log =
        { result := .ok chunk, state := after, log }) ∧
      after.Smooth ∧ after.bytes = back := by
  rw [ofChunk, List.append_assoc] at hbytes
  obtain ⟨source₁, hfield, hsmooth₁, hbytes₁⟩ := runFrom_readOrTruncated hs hbytes
    (Bytes.length_ofNatLE 4 chunk.length).symm
  obtain ⟨source₂, hchunk, hsmooth₂, hbytes₂⟩ := runFrom_readOrTruncated hsmooth₁ hbytes₁ rfl
  refine ⟨source₂, ?_, hsmooth₂, hbytes₂⟩
  intro log
  simp only [readFrame, Session.runFrom_bind, hfield, checkedLength_ofNatLE hmin hmax hsize,
    Session.runFrom_liftError, Failure.mapError_ok]
  exact hchunk log

/-- A source that ends within a frame, in its length or behind it, is a truncated stream. -/
theorem runFrom_readFrame_short {source : Source} {chunk : Bytes} {limit : Nat}
    (hs : source.Smooth) (hcut : source.bytes.ShortOf (ofChunk chunk))
    (hmin : SecretStream.overhead ≤ chunk.length)
    (hmax : chunk.length ≤ limit + SecretStream.overhead) (hsize : chunk.length < UInt32.size) :
    ∃ after : Source, (∀ log, (readFrame limit).runFrom source log =
        { result := .error truncated, state := after, log := .inputEnded :: log }) ∧
      after.Smooth ∧ after.bytes = [] := by
  rcases Bytes.ShortOf.cases hcut with hfield | ⟨more, hbytes, hmore⟩
  · have hlength := hfield.length_lt
    rw [Bytes.length_ofNatLE] at hlength
    obtain ⟨after, hread, hsmooth, hnone⟩ := runFrom_readOrTruncated_short hs hlength
    refine ⟨after, ?_, hsmooth, hnone⟩
    intro log
    simp only [readFrame, Session.runFrom_bind, hread]
  · obtain ⟨source₁, hfield, hsmooth₁, hbytes₁⟩ := runFrom_readOrTruncated hs hbytes
      (Bytes.length_ofNatLE 4 chunk.length).symm
    obtain ⟨after, hread, hsmooth, hnone⟩ := runFrom_readOrTruncated_short hsmooth₁
      (hbytes₁.symm ▸ hmore.length_lt)
    refine ⟨after, ?_, hsmooth, hnone⟩
    intro log
    simp only [readFrame, Session.runFrom_bind, hfield, checkedLength_ofNatLE hmin hmax hsize,
      Session.runFrom_liftError, Failure.mapError_ok, hread]

end Frame

end AuthEncryption
