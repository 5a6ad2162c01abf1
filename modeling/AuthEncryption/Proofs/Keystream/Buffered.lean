import AuthEncryption.Proofs.Keystream.Calls
import AuthEncryption.Cipher.Buffered

/-!
# Keystream that waits in a block

What is left of the last block is masked with first, and a block that is produced before it is
needed changes nothing. With these two facts every round of the loop over the pieces is one step of
the cipher that keeps the waiting bytes themselves. So a cipher with a block never reaches outside
its block or its string, whatever it did before, and it masks what the other one masks.
-/
namespace AuthEncryption

namespace Bytes

/-- The two parts of a mask act on the two parts of the string. -/
theorem xorFront_append (data a b : Bytes) :
    xorFront data (a ++ b) =
      xorFront (data.take a.length) a ++ xorFront (data.drop a.length) b := by
  have hfront : (data.take a.length).drop a.length = [] :=
    List.drop_of_length_le (List.length_take_le ..)
  simp only [xorFront, xor_append_right, hfront, List.append_nil, List.append_assoc,
    List.drop_drop, List.length_append]

/-- A mask counts as far as the string goes. -/
theorem xorFront_take (data mask : Bytes) :
    xorFront data (mask.take data.length) = xorFront data mask := by
  rcases Nat.le_total data.length mask.length with hlong | hshort
  · have hxor : xor data (mask.take data.length) = xor data mask := by
      have hsplit := congrArg (xor data) (List.take_append_drop data.length mask)
      rw [xor_append_right, List.length_take_of_le hlong, List.take_length, List.drop_length]
        at hsplit
      simpa [xor] using hsplit
    rw [xorFront, xorFront, hxor, List.length_take_of_le hlong, List.drop_length,
      List.drop_of_length_le hlong]
  · rw [List.take_of_length_le hshort]

/-- A mask that meets the end of the string, or goes on behind its own first part. -/
theorem xorFront_take_append (data a b : Bytes) :
    xorFront data (a.take data.length ++ b) =
      xorFront (data.take a.length) a ++ xorFront (data.drop a.length) b := by
  rcases Nat.le_total a.length data.length with hall | hsome
  · rw [List.take_of_length_le hall, xorFront_append]
  · rw [xorFront_append, List.length_take_of_le hsome, List.take_length, List.drop_length,
      xorFront_take, List.take_of_length_le hsome, List.drop_of_length_le hsome]

end Bytes

namespace Cipher

/-! ## What is left of a block -/

/-- Keystream that is left is handed out before any other. -/
theorem draw_of_pending (c : Cipher) (n : Nat) :
    c.draw n =
      let later := { c with pending := c.pending.drop n }.draw (n - c.pending.length)
      (c.pending.take n ++ later.1, later.2) := by
  have hcount : n - c.pending.length - (c.pending.drop n).length = n - c.pending.length := by
    rw [List.length_drop]
    omega
  simp only [draw, hcount, generate_pending _ c (c.pending.drop n), List.take_append,
    List.drop_append, ← List.append_assoc]
  rcases Nat.le_total c.pending.length n with hall | hsome
  · simp [List.drop_of_length_le hall]
  · simp [Nat.sub_eq_zero_of_le hsome]

/-- A block that is produced before it is needed changes nothing. -/
theorem draw_of_next {c : Cipher} (hpending : c.pending = []) (hopen : c.exhausted = false)
    {n : Nat} (hn : 0 < n) :
    c.draw n = { c with nextBlock := c.nextBlock + 1, pending := c.block c.nextBlock }.draw n := by
  have hcount : (n - c.pending.length + 63) / 64 = (n - (c.block c.nextBlock).length + 63) / 64 + 1 := by
    rw [hpending, List.length_nil, length_block]
    omega
  have hnext := generate_pending ((n - (c.block c.nextBlock).length + 63) / 64)
    { c with nextBlock := c.nextBlock + 1 } (c.block c.nextBlock)
  rw [draw, draw, hcount, generate, hopen, if_neg Bool.false_ne_true, hnext, hpending]
  simp

theorem draw_of_exhausted {c : Cipher} (hpending : c.pending = []) (hend : c.exhausted = true)
    (n : Nat) : c.draw n = ([], c) := by
  have hsame : ({ c with pending := [] } : Cipher) = c := by rw [← hpending]
  rw [draw, generate_of_exhausted hend, hpending]
  simpa using hsame

/-- What is left of a block masks the front of a string, as far as both go. -/
theorem mask_of_pending (c : Cipher) (data : Bytes) :
    c.mask data =
      let later := { c with pending := c.pending.drop data.length }.mask
        (data.drop c.pending.length)
      { later with
        data := Bytes.xorFront (data.take c.pending.length) c.pending ++ later.data } := by
  have hreach (n : Nat) : data.length ≤ min data.length c.pending.length + n ↔
      data.length - c.pending.length ≤ n := by omega
  simp only [mask, c.draw_of_pending data.length, List.length_drop, Bytes.xorFront_take_append,
    List.length_append, List.length_take, hreach]

/-- The same of the step: what is left of a block masks the front, and never runs out there. -/
theorem runOn_apply_of_pending (c : Cipher) (data : Bytes) :
    (apply data).runOn c =
      let later := (apply (data.drop c.pending.length)).runOn
        { c with pending := c.pending.drop data.length }
      (later.1.map (Bytes.xorFront (data.take c.pending.length) c.pending ++ ·), later.2) := by
  rw [runOn_apply, mask_of_pending, runOn_apply]
  dsimp only
  split <;> rfl

theorem runOn_apply_nil (c : Cipher) : (apply []).runOn c = (.ok [], c) := by
  simp [runOn_apply, mask, draw, generate, Bytes.xorFront, Bytes.xor]

namespace Buffered

/-! ## One block -/

theorem view_ofCipher {c : Cipher} (hpending : c.pending = []) : (ofCipher c).view = c := by
  cases c
  simp_all [ofCipher, view, blockSize]

variable {b : Buffered}

theorem length_pending_view (b : Buffered) : b.view.pending.length = 64 - b.position := by
  rw [view, List.length_drop, FixedBytes.length_toList]

theorem generate_of_exhausted (hempty : b.view.pending = []) (hend : b.view.exhausted = true)
    {data : Bytes} (hsome : data ≠ []) :
    b.generate = .error .counterExhausted ∧
      (Cipher.apply data).runOn b.view = (.error .counterExhausted, b.view) := by
  refine ⟨if_pos hend, ?_⟩
  simp [runOn_apply, mask, draw_of_exhausted hempty hend, hsome]

/-- The next block is in the buffer before it is used, and that is not seen. -/
theorem generate_of_next (hempty : b.view.pending = []) (hopen : b.view.exhausted = false)
    {data : Bytes} (hsome : data ≠ []) :
    ∃ g : Buffered, b.generate = .ok g ∧ g.position = 0 ∧
      (Cipher.apply data).runOn b.view = (Cipher.apply data).runOn g.view := by
  have hlen : 0 < data.length := List.length_pos_iff.mpr hsome
  refine ⟨_, if_neg (Bool.not_eq_true _ ▸ hopen), rfl, ?_⟩
  rw [runOn_apply, runOn_apply, mask, draw_of_next hempty hopen hlen]
  rfl

/-- The cipher behind the front of a string that what is left of the block masks. -/
def behind (b : Buffered) (data : Bytes) : Buffered :=
  { b with position := b.position + (data.take (blockSize - b.position)).length }

theorem position_behind_le (h : b.position ≤ blockSize) (data : Bytes) :
    (b.behind data).position ≤ blockSize := by
  show b.position + (data.take (blockSize - b.position)).length ≤ blockSize
  rw [List.length_take]
  omega

/-- Using up the front of a block leaves what stands behind it. -/
theorem view_behind (b : Buffered) (data : Bytes) :
    (b.behind data).view = { b.view with pending := b.view.pending.drop data.length } := by
  have hpending : b.buffer.toList.drop (b.position + (data.take (blockSize - b.position)).length) =
      b.buffer.toList.drop (b.position + data.length) := by
    rw [List.length_take, blockSize]
    rcases Nat.le_total data.length (64 - b.position) with hsome | hall
    · rw [Nat.min_eq_right hsome]
    · rw [List.drop_of_length_le (by rw [FixedBytes.length_toList]; omega),
        List.drop_of_length_le (by rw [FixedBytes.length_toList]; omega)]
  simp only [behind, view, hpending, List.drop_drop]

/-- A string that goes on behind the block has used it up. -/
theorem pending_view_behind {data : Bytes} (h : data.drop (blockSize - b.position) ≠ []) :
    (b.behind data).view.pending = [] := by
  have hlong : blockSize - b.position < data.length := by
    by_contra hshort
    exact h (List.drop_of_length_le (Nat.le_of_not_lt hshort))
  rw [view_behind]
  refine List.drop_of_length_le ?_
  rw [length_pending_view]
  exact Nat.le_of_lt hlong

/-! ## A string -/

/-- A cipher with a block went through a string like the one that keeps the waiting bytes. -/
structure Follows (run : Except Fault Bytes × Buffered) (step : Except Fault Bytes × Cipher) :
    Prop where
  result : run.1 = step.1
  view : run.2.view = step.2
  position_le : run.2.position ≤ blockSize

/-- What is left of the block masks the front of a string, and the rest of the run the rest. -/
theorem Follows.behind {data : Bytes} {run : Except Fault Bytes × Buffered}
    (h : Follows run
      ((Cipher.apply (data.drop (blockSize - b.position))).runOn (b.behind data).view)) :
    Follows (run.1.map (Bytes.xorFront (data.take (blockSize - b.position)) b.view.pending ++ ·),
      run.2) ((Cipher.apply data).runOn b.view) := by
  have hleft : b.view.pending.length = blockSize - b.position := length_pending_view b
  rw [runOn_apply_of_pending, hleft, ← view_behind]
  exact ⟨congrArg (Except.map _) h.result, h.view, h.position_le⟩

/-- The run lemma over the pieces of a string: each takes a block when what is left of the one
before has been used up. -/
theorem follows_maskPieces (count : Nat) {b : Buffered} {data : Bytes}
    (hempty : data ≠ [] → b.view.pending = []) (hposition : b.position ≤ blockSize)
    (henough : data.length ≤ 64 * count) (hfew : 64 * count < data.length + 64) :
    Follows (b.maskPieces (Bytes.takePieces blockSize count data))
      ((Cipher.apply data).runOn b.view) := by
  induction count generalizing b data with
  | zero =>
    obtain rfl : data = [] := List.eq_nil_of_length_eq_zero (by omega)
    rw [runOn_apply_nil]
    exact ⟨rfl, rfl, hposition⟩
  | succ count ih =>
    have hsome : data ≠ [] := by
      rintro rfl
      rw [List.length_nil] at hfew
      omega
    rw [Bytes.takePieces, maskPieces]
    cases hend : b.view.exhausted with
    | true =>
      obtain ⟨hgenerate, happly⟩ := generate_of_exhausted (hempty hsome) hend hsome
      rw [hgenerate, happly]
      exact ⟨rfl, rfl, hposition⟩
    | false =>
      obtain ⟨g, hgenerate, hstart, happly⟩ := generate_of_next (hempty hsome) hend hsome
      -- From its start a whole block masks the front of the string: a piece, or all that is left.
      have hleft : blockSize - g.position = blockSize := by rw [hstart, Nat.sub_zero]
      have hblock : g.view.pending = g.buffer.toList := by rw [view, hstart, List.drop_zero]
      have hnext : ({ g with position := (data.take blockSize).length } : Buffered) =
          g.behind data := by
        rw [behind, hleft, hstart, Nat.zero_add]
      have hrest : Follows ((g.behind data).maskPieces
            (Bytes.takePieces blockSize count (data.drop (blockSize - g.position))))
          ((Cipher.apply (data.drop (blockSize - g.position))).runOn (g.behind data).view) := by
        refine ih pending_view_behind (position_behind_le (by omega) data) ?_ ?_
        · rw [hleft, List.length_drop, blockSize]
          omega
        · rw [hleft, List.length_drop, blockSize]
          omega
      have hfollows := Follows.behind hrest
      rw [hleft, hblock, ← hnext, ← happly] at hfollows
      rw [hgenerate]
      exact hfollows

/-- The string and the block are cut where the first of them ends. -/
theorem cut_eq (h : b.position ≤ blockSize) (data : Bytes) :
    b.cut data = .ok
      { head := data.take (blockSize - b.position)
        ready := b.view.pending
        tail := data.drop (blockSize - b.position)
        position := (b.behind data).position } := by
  have hposition : b.position + (data.take (blockSize - b.position)).length ≤ blockSize :=
    position_behind_le h data
  have hin : b.position ≤ b.buffer.toList.length := by rwa [FixedBytes.length_toList]
  have hsum : b.position + (data.take (blockSize - b.position)).length < sizeLimit :=
    Nat.lt_of_le_of_lt hposition (by decide)
  simp only [cut, subSizes, if_pos h, splitBytes, if_pos (Nat.min_le_right ..), if_pos hin,
    List.splitAt_eq, ← List.take_eq_take_min, ← List.drop_eq_drop_min, addSizes, if_pos hsum,
    Failure.ok_bind]
  rfl

/-- The step lemma: a position within the block stays there, and the string is masked as by the
cipher that keeps the waiting bytes. -/
theorem follows_apply (h : b.position ≤ blockSize) (data : Bytes) :
    Follows (b.apply data) ((Cipher.apply data).runOn b.view) := by
  rw [apply, cut_eq h]
  refine Follows.behind (follows_maskPieces _ pending_view_behind (position_behind_le h data) ?_ ?_)
  · rw [blockSize]
    omega
  · rw [blockSize]
    omega

/-! ## Any history -/

/-- The cipher that an operation leaves, whether it broke a rule or not. -/
def after (b : Buffered) : Operation → Buffered
  | .keystream count => (b.apply (Bytes.zeros count)).2
  | .apply data => (b.apply data).2
  | .xor destination source => (b.xorKeystream destination source).2
  | .seek number => (b.restart (Cipher.seek number)).2
  | .rekey key nonce => (b.restart (Cipher.rekey key nonce)).2
  | .wipe => b.wipe

/-- A step that leaves nothing pending, or fails and changes nothing, leads to the same cipher. -/
theorem restart_spec (h : b.position ≤ blockSize) {step : Step Unit}
    (hstep : (∃ c, step.runOn b.view = (.ok (), c) ∧ c.pending = []) ∨
      ∃ rule, step.runOn b.view = (.error rule, b.view)) :
    (b.restart step).2.view = (step.runOn b.view).2 ∧ (b.restart step).2.position ≤ blockSize := by
  rcases hstep with ⟨c, hrun, hpending⟩ | ⟨rule, hrun⟩
  · rw [restart, hrun]
    exact ⟨view_ofCipher hpending, Nat.le_refl _⟩
  · rw [restart, hrun]
    exact ⟨rfl, h⟩

/-- The step lemma over all operations. -/
theorem view_after (h : b.position ≤ blockSize) (op : Operation) :
    (b.after op).view = op.after b.view ∧ (b.after op).position ≤ blockSize := by
  cases op with
  | keystream count =>
    have hfollows := follows_apply h (Bytes.zeros count)
    exact ⟨hfollows.view, hfollows.position_le⟩
  | apply data =>
    have hfollows := follows_apply h data
    exact ⟨hfollows.view, hfollows.position_le⟩
  | xor destination source =>
    have hfollows := follows_apply h source
    by_cases fits : source.length ≤ destination.length
    · simp only [after, xorKeystream, if_pos fits, Operation.after, runOn_xorKeystream _ fits]
      exact ⟨hfollows.view, hfollows.position_le⟩
    · simp only [after, xorKeystream, Operation.after, Cipher.xorKeystream, if_neg fits,
        Step.runOn_throw]
      exact ⟨trivial, h⟩
  | seek number =>
    refine restart_spec h ?_
    rw [runOn_seek]
    split
    · exact .inr ⟨_, rfl⟩
    · exact .inl ⟨_, rfl, rfl⟩
  | rekey key nonce =>
    refine restart_spec h ?_
    rw [runOn_rekey]
    split
    · exact .inl ⟨_, rfl, (keyed_spec ‹_›).2.1⟩
    · exact .inr ⟨_, rfl⟩
  | wipe => exact ⟨view_ofCipher rfl, Nat.le_refl _⟩

/-- The run lemma: whatever was done with a cipher, its position lies in its block, and it stands
for the one that keeps the waiting bytes. -/
theorem view_foldl_after (h : b.position ≤ blockSize) (ops : List Operation) :
    (ops.foldl after b).view = ops.foldl (fun c op => op.after c) b.view ∧
      (ops.foldl after b).position ≤ blockSize := by
  induction ops generalizing b with
  | nil => exact ⟨rfl, h⟩
  | cons op rest ih =>
    obtain ⟨hview, hposition⟩ := view_after h op
    rw [List.foldl_cons, List.foldl_cons, ← hview]
    exact ih hposition

/-- A string is masked as far as there are blocks, after any history, and no other rule is met. -/
theorem apply_foldl_after {c : Cipher} (hpending : c.pending = []) (ops : List Operation)
    (data : Bytes) :
    ((ops.foldl after (ofCipher c)).apply data).1 =
      let masked := (ops.foldl (fun c op => op.after c) c).mask data
      if masked.complete then .ok masked.data else .error .counterExhausted := by
  obtain ⟨hview, hposition⟩ := @view_foldl_after (ofCipher c) (Nat.le_refl _) ops
  rw [(follows_apply hposition data).result, hview, view_ofCipher hpending, runOn_apply]

end Buffered

end Cipher

end AuthEncryption
