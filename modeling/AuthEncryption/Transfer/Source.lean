import AuthEncryption.Session

/-!
# Byte sources

A source delivers what a list of events says, in pieces of any size, with
failures in between. `read` takes one event, or a part of one; `readExact` goes
on until a string is full, past interruptions, and gives up at an empty read.
Main statement: what `readExact` delivers is what it was asked for, and so much
is gone from the source (`remaining_of_readExact`).
-/
namespace AuthEncryption

/-- What a source does next. -/
inductive SourceEvent where
  /-- It has these bytes to deliver. None at all make one empty read. -/
  | data (bytes : Bytes)
  | fail (kind : IoKind)
deriving DecidableEq, Repr

/-- A source of bytes; after its last event every read is empty. -/
abbrev Source := List SourceEvent

namespace Source

/-- The bytes a source can still deliver. -/
def remaining : Source → Nat
  | [] => 0
  | .data bytes :: rest => bytes.length + remaining rest
  | .fail _ :: rest => remaining rest

/-- The bytes and the events of a source, which every useful read makes fewer. -/
def weight : Source → Nat
  | [] => 0
  | .data bytes :: rest => bytes.length + 1 + weight rest
  | .fail _ :: rest => 1 + weight rest

/-- One read of at most `n` bytes. -/
def read (n : Nat) : Source → Except IoKind Bytes × Source
  | [] => (.ok [], [])
  | .fail kind :: rest => (.error kind, rest)
  | .data bytes :: rest =>
    match bytes.drop n with
    | [] => (.ok bytes, rest)
    | b :: later => (.ok (bytes.take n), .data (b :: later) :: rest)

/-- Reads exactly `n` bytes. What was read before a failure is lost. -/
def readExact : Source → (n : Nat) → Except IoKind Bytes × Source
  | source, 0 => (.ok [], source)
  | [], _ + 1 => (.error .unexpectedEof, [])
  | .fail kind :: rest, n + 1 =>
    if kind = .interrupted then readExact rest (n + 1) else (.error kind, rest)
  | .data bytes :: rest, n + 1 =>
    if bytes.isEmpty then (.error .unexpectedEof, rest)
    else match bytes.drop (n + 1) with
      | [] =>
        let (result, rest) := readExact rest (n + 1 - bytes.length)
        (result.map (bytes ++ ·), rest)
      | b :: later => (.ok (bytes.take (n + 1)), .data (b :: later) :: rest)

/-- An interrupted or nonempty read makes the source smaller. -/
theorem weight_of_read {n : Nat} (positive : 0 < n) {source rest : Source}
    {result : Except IoKind Bytes} (nonempty : result ≠ .ok [])
    (h : source.read n = (result, rest)) : rest.weight < source.weight := by
  unfold read at h
  split at h
  · cases h; exact absurd rfl nonempty
  · cases h; simp only [weight]; omega
  · split at h
    · cases h; simp only [weight]; omega
    · rename_i hd
      have hl := congrArg List.length hd
      cases h
      simp only [weight, List.length_drop, List.length_cons] at hl ⊢
      omega

/-- What `readExact` delivers has the length asked for and is gone from the source. -/
theorem remaining_of_readExact {source rest : Source} {n : Nat} {bytes : Bytes}
    (h : source.readExact n = (.ok bytes, rest)) :
    bytes.length = n ∧ rest.remaining + n = source.remaining := by
  fun_induction readExact source n generalizing bytes rest with
  | case1 source => cases h; exact ⟨rfl, rfl⟩
  | case2 n => cases h
  | case3 rest₀ n ih =>
    obtain ⟨hl, hr⟩ := ih h
    exact ⟨hl, by simpa only [remaining] using hr⟩
  | case4 kind rest₀ n hk => cases h
  | case5 bytes₀ rest₀ n he => cases h
  | case6 bytes₀ rest₀ n he hd result rest₁ heq ih =>
    have hle := congrArg List.length hd
    rw [List.length_drop, List.length_nil] at hle
    cases result with
    | error kind => cases h
    | ok more =>
      cases h
      obtain ⟨hl, hr⟩ := ih heq
      simp only [remaining, List.length_append]
      omega
  | case7 bytes₀ rest₀ n he b later hd =>
    have hle := congrArg List.length hd
    rw [List.length_drop, List.length_cons] at hle
    cases h
    simp only [remaining, List.length_take, List.length_cons]
    omega

end Source

end AuthEncryption
