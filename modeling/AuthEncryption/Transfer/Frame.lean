import AuthEncryption.SecretStream.State
import AuthEncryption.Transfer.Source

/-!
# Frames

On a source a stream is its header and then frames: the length of a chunk in
four bytes, and the chunk. A length that no chunk can have, or that is above the
reader's limit, is refused before the chunk is read. Main statement: a frame
takes at least 21 bytes from the source (`remaining_of_readFrame`).
-/
namespace AuthEncryption.Frame

/-- Reads exactly `n` bytes; a source that ends before is a truncated stream. -/
def readOrTruncated (n : Nat) : Session Source Bytes :=
  Session.ofRun fun source log =>
    match source.readExact n with
    | (.ok bytes, rest) => { result := .ok bytes, state := rest, log }
    | (.error .unexpectedEof, rest) =>
      { result := .error (.error (.forgedOrCorrupted "truncated stream")), state := rest,
        log := .inputEnded :: log }
    | (.error kind, rest) =>
      { result := .error (.error (.io "stream read" kind)), state := rest, log }

/-- The chunk length of a frame, if it is one for a chunk of at most `limit`
plaintext bytes. -/
def checkedLength (field : Bytes) (limit : Nat) : Except Error Nat := do
  let length := Bytes.toNatLE field
  Check.ciphertextLength "stream chunk" length SecretStream.overhead
  Check.maxLength "stream chunk" (length - SecretStream.overhead) limit
  return length

/-- Reads one frame and gives its chunk. -/
def readFrame (limit : Nat) : Session Source Bytes := do
  let length ← checkedLength (← readOrTruncated 4) limit
  readOrTruncated length

theorem remaining_of_readOrTruncated {n : Nat} {source rest : Source} {log log' : Log}
    {bytes : Bytes}
    (h : (readOrTruncated n).runFrom source log =
      { result := .ok bytes, state := rest, log := log' }) :
    bytes.length = n ∧ rest.remaining + n = source.remaining := by
  simp only [readOrTruncated, Session.runFrom_ofRun] at h
  split at h
  · rename_i heq
    cases h
    exact Source.remaining_of_readExact heq
  · cases h
  · cases h

theorem le_of_checkedLength {field : Bytes} {limit length : Nat}
    (h : checkedLength field limit = .ok length) :
    17 ≤ length ∧ length ≤ limit + 17 := by
  simp only [checkedLength, Check.ciphertextLength, Check.maxLength, SecretStream.overhead, bind,
    Except.bind] at h
  by_cases hmin : Bytes.toNatLE field < 17
  · simp [hmin] at h
  · by_cases hmax : limit < Bytes.toNatLE field - 17
    · simp [hmin, hmax] at h
    · simp [hmin, hmax, pure, Except.pure] at h
      omega

/-- A frame is at least the length field and an empty chunk. -/
theorem remaining_of_readFrame {limit : Nat} {source rest : Source} {log log' : Log}
    {chunk : Bytes}
    (h : (readFrame limit).runFrom source log =
      { result := .ok chunk, state := rest, log := log' }) :
    17 ≤ chunk.length ∧ rest.remaining + 4 + chunk.length = source.remaining := by
  simp only [readFrame, Session.runFrom_bind] at h
  split at h
  · rename_i field source₁ log₁ h₁
    obtain ⟨_, hr₁⟩ := remaining_of_readOrTruncated h₁
    cases hc : checkedLength field limit with
    | error cause => rw [hc] at h; cases h
    | ok length =>
      rw [hc] at h
      obtain ⟨hl, hr⟩ := remaining_of_readOrTruncated h
      have := (le_of_checkedLength hc).1
      omega
  · cases h

end AuthEncryption.Frame
