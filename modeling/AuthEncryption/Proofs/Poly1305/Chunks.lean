import AuthEncryption.Proofs.Poly1305.Updates
import AuthEncryption.Poly1305.Buffered

/-!
# Bytes that wait in a buffer

Of the buffer of an authenticator only the front counts, so authenticators whose buffers differ
behind it cannot be told apart. Seen that way an update of the authenticator with a buffer is an
update of the one that keeps the waiting bytes themselves, and the buffer is never full between
two updates. How a message is cut is therefore not seen by any way to ask for its tag, then or
after more updates.
-/
namespace AuthEncryption

/-- A string put into a block of zeros from the front, and one more byte behind it. -/
theorem FixedBytes.toList_zero_overwrite_concat {n : Nat} {data : Bytes} (b : UInt8)
    (h : data.length < n) :
    (((zero n).overwrite 0 data).overwrite data.length [b]).toList =
      data ++ b :: Bytes.zeros (n - 1 - data.length) := by
  have hfront : ((zero n).overwrite 0 data).toList = data ++ Bytes.zeros (n - data.length) := by
    rw [toList_overwrite _ (by omega), List.take_zero, List.nil_append, toList_zero, Nat.zero_add,
      Bytes.zeros, List.drop_replicate]
    rfl
  have hbehind : (data ++ Bytes.zeros (n - data.length)).drop (data.length + 1) =
      Bytes.zeros (n - 1 - data.length) := by
    rw [← List.drop_drop, List.drop_left, Bytes.zeros, List.drop_replicate, Bytes.zeros]
    congr 1
    omega
  rw [toList_overwrite _ (by simpa using h), hfront, List.take_left, List.length_singleton, hbehind,
    List.append_assoc, List.singleton_append]

namespace Poly1305

namespace Buffered

/-! ## What a buffer stands for -/

/-- The authenticator that keeps what waits in the buffer. -/
def view (mac : Buffered) : Poly1305 :=
  { r := mac.r, h := mac.h, pad := mac.pad, waiting := mac.buffer.toList.take mac.leftover }

theorem view_new (key : FixedBytes 32) : (new key).view = Poly1305.new key := rfl

variable {mac : Buffered}

theorem leftover_new (key : FixedBytes 32) : (new key).leftover < 16 := by
  show 0 < 16
  decide

/-- Blocks change the value and nothing else. -/
theorem foldl_block (blocks : List Bytes) (mac : Buffered) :
    blocks.foldl block mac =
      { mac with h := blocks.foldl (mac.r.step · · fullBlockBit) mac.h } := by
  induction blocks generalizing mac with
  | nil => rfl
  | cons b blocks ih => rw [List.foldl_cons, ih]; rfl

/-- Bytes put behind those that wait wait with them, whatever stood there. -/
theorem take_overwrite (buffer : FixedBytes 16) {offset : Nat} {data : Bytes}
    (h : offset + data.length ≤ 16) :
    (buffer.overwrite offset data).toList.take (offset + data.length) =
      buffer.toList.take offset ++ data := by
  have hlen : (buffer.toList.take offset ++ data).length = offset + data.length := by
    rw [List.length_append, List.length_take, FixedBytes.length_toList]
    omega
  rw [FixedBytes.toList_overwrite _ h, List.take_left' hlen]

theorem leftover_absorb (mac : Buffered) (data : Bytes) : (mac.absorb data).leftover < 16 := by
  show (Bytes.leftover blockSize data).length < 16
  rw [Bytes.length_leftover]
  exact Nat.mod_lt _ (by decide)

/-- Where nothing waits a string is taken as it is. -/
theorem view_absorb (h : mac.leftover = 0) (data : Bytes) :
    (mac.absorb data).view = mac.view.update data := by
  have hshort : (Bytes.leftover blockSize data).length < 16 := mac.leftover_absorb data
  have hrest := @take_overwrite mac.buffer 0 (Bytes.leftover blockSize data) (by omega)
  rw [Nat.zero_add, List.take_zero, List.nil_append] at hrest
  have hwaiting : mac.view.waiting = [] := by rw [view, h, List.take_zero]
  rw [absorb, foldl_block, Poly1305.update, hwaiting, List.nil_append]
  simp only [view, hrest]

theorem length_waiting_view (h : mac.leftover < 16) : mac.view.waiting.length = mac.leftover := by
  rw [view, List.length_take, FixedBytes.length_toList]
  omega

/-- What the front of a string leaves in the buffer: the bytes that waited, and those of the
string that there was room for. -/
theorem view_fill (h : mac.leftover < 16) (data : Bytes) :
    (mac.fill data).leftover ≤ 16 ∧
      (mac.fill data).view =
        { mac.view with waiting := mac.view.waiting ++ data.take (blockSize - mac.leftover) } := by
  have hroom : mac.leftover + (data.take (blockSize - mac.leftover)).length ≤ 16 := by
    rw [List.length_take, blockSize]
    omega
  refine ⟨hroom, ?_⟩
  simp only [view, fill, take_overwrite mac.buffer hroom]

/-! ## An update -/

/-- The step lemma: after an update the buffer is not full, whatever it was before. -/
theorem leftover_update (mac : Buffered) (data : Bytes) : (mac.update data).leftover < 16 := by
  rw [update]
  split
  · dsimp only
    split
    · assumption
    · exact leftover_absorb ..
  · exact leftover_absorb ..

/-- The step lemma: an update of the buffer is an update of what it stands for. -/
theorem view_update (h : mac.leftover < 16) (data : Bytes) :
    (mac.update data).view = mac.view.update data := by
  obtain ⟨hroom, hfill⟩ := view_fill h data
  have hwaiting := length_waiting_view h
  have hcount : (mac.fill data).leftover =
      mac.leftover + (data.take (blockSize - mac.leftover)).length := rfl
  rw [List.length_take, blockSize] at hcount
  by_cases hwait : 0 < mac.leftover
  · by_cases hshort : (mac.fill data).leftover < blockSize
    · -- All of the string found room.
      have hall : data.take (blockSize - mac.leftover) = data :=
        List.take_of_length_le (by rw [blockSize] at hshort ⊢; omega)
      rw [update, if_pos hwait, if_pos hshort, hfill, hall, Poly1305.update_of_lt]
      rw [hwaiting]
      rw [blockSize] at hshort ⊢
      omega
    · -- The block is full: it is taken, and the rest of the string finds an empty buffer.
      have hfull : (mac.fill data).leftover = 16 := by rw [blockSize] at hshort; omega
      have hwaits : (mac.fill data).buffer.toList =
          mac.view.waiting ++ data.take (blockSize - mac.leftover) := by
        have hall : (mac.fill data).view.waiting = (mac.fill data).buffer.toList := by
          rw [view, hfull, List.take_of_length_le (by simp)]
        rw [← hall, hfill]
      have htaken : mac.view.waiting.length + (data.take (blockSize - mac.leftover)).length =
          blockSize := by
        rw [hwaiting, List.length_take, blockSize]
        omega
      have hblock : { (mac.fill data).block (mac.fill data).buffer.toList with leftover := 0 }.view =
          mac.view.update (data.take (blockSize - mac.leftover)) := by
        rw [Poly1305.update_of_eq _ htaken, ← hwaits]
        rfl
      rw [update, if_pos hwait, if_neg hshort, view_absorb rfl, hblock, update_update,
        List.take_append_drop]
  · rw [update, if_neg hwait, view_absorb (by omega)]

/-- The run lemma: the buffer is never full between updates, and stands for the authenticator
that took the same strings. -/
theorem view_foldl_update (h : mac.leftover < 16) (parts : List Bytes) :
    (parts.foldl update mac).leftover < 16 ∧
      (parts.foldl update mac).view = parts.foldl Poly1305.update mac.view := by
  induction parts generalizing mac with
  | nil => exact ⟨h, rfl⟩
  | cons part parts ih =>
    obtain ⟨hlt, hview⟩ := ih (leftover_update mac part)
    rw [List.foldl_cons, List.foldl_cons, ← view_update h]
    exact ⟨hlt, hview⟩

/-! ## The tag -/

theorem lastValue_view (h : mac.leftover < 16) : mac.view.lastValue = mac.lastValue := by
  have hwaiting := length_waiting_view h
  rw [Poly1305.lastValue, lastValue]
  by_cases hwait : 0 < mac.leftover
  · have hsome : mac.view.waiting.isEmpty = false := by
      rw [List.isEmpty_eq_false_iff, ← List.length_pos_iff, hwaiting]
      exact hwait
    have hlast := FixedBytes.toList_zero_overwrite_concat (n := 16) 1 (hwaiting.symm ▸ h)
    rw [hwaiting] at hlast
    rw [hsome, if_neg Bool.false_ne_true, if_pos hwait, hwaiting]
    simp only [view] at hlast ⊢
    rw [hlast]
    rfl
  · have hnone : mac.view.waiting = [] :=
      List.eq_nil_of_length_eq_zero (by omega)
    rw [hnone, if_neg hwait]
    rfl

/-- The tag is written over all of its place. -/
theorem finish_eq_finalize_view (h : mac.leftover < 16) (out : FixedBytes 16) :
    mac.finish out = mac.view.finalize := by
  apply FixedBytes.ext
  have hwords : Word.bytes (addWords 0 mac.lastValue.settle.canonical.words mac.pad.toList) =
      mac.view.finalize.toList := by
    rw [← lastValue_view h]
    rfl
  have hlen := mac.view.finalize.length_toList
  rw [finish, hwords, FixedBytes.toList_overwrite _ (by omega), List.take_zero, List.nil_append,
    Nat.zero_add, hlen, List.drop_of_length_le (by simp), List.append_nil]

/-- Every way to ask an authenticator for its tag gives `tag`. -/
structure Gives (mac : Buffered) (tag : FixedBytes 16) : Prop where
  finalize : mac.finalize = tag
  sum : ∀ out, mac.sum out = tag
  verify : ∀ candidate : Bytes, mac.verify candidate = decide (candidate = tag.toList)

theorem gives_finalize_view (h : mac.leftover < 16) : mac.Gives mac.view.finalize := by
  have htag : mac.finalize = mac.view.finalize := finish_eq_finalize_view h _
  refine ⟨htag, finish_eq_finalize_view h, fun candidate => ?_⟩
  rw [verify, htag, Bool.eq_iff_iff, Bytes.sameBytes_iff, decide_eq_true_iff]
  exact eq_comm

theorem gives_authenticate (key : FixedBytes 32) (parts : List Bytes) :
    (parts.foldl update (new key)).Gives (authenticate key parts.flatten) := by
  obtain ⟨hlt, hview⟩ := view_foldl_update (leftover_new key) parts
  have htag : (parts.foldl update (new key)).view.finalize = authenticate key parts.flatten := by
    rw [hview, view_new, finalize_foldl_update]
  rw [← htag]
  exact gives_finalize_view hlt

/-- However a message is cut, empty pieces among them, the buffer is not full after any piece, and
every way to ask for the tag gives that of the whole message, as after one update with all of it;
so it is after any more updates. Another key starts over from any such state. -/
theorem chunks_make_no_difference (key : FixedBytes 32) (chunks : List Bytes) :
    (∀ n, ((chunks.take n).foldl update (new key)).leftover < 16) ∧
    (∀ more : List Bytes,
      (more.foldl update (chunks.foldl update (new key))).Gives
        (authenticate key (chunks.flatten ++ more.flatten)) ∧
      (more.foldl update ((new key).update chunks.flatten)).Gives
        (authenticate key (chunks.flatten ++ more.flatten))) ∧
    (∀ (other : FixedBytes 32) (more : List Bytes),
      (more.foldl update ((chunks.foldl update (new key)).rekey other)).Gives
        (authenticate other more.flatten) ∧
      (more.foldl update (new other)).Gives (authenticate other more.flatten)) := by
  refine ⟨fun n => (view_foldl_update (leftover_new key) _).1, fun more => ⟨?_, ?_⟩,
    fun other more => ⟨gives_authenticate other more, gives_authenticate other more⟩⟩
  · rw [← List.foldl_append, ← List.flatten_append]
    exact gives_authenticate key (chunks ++ more)
  · have hwhole := gives_authenticate key (chunks.flatten :: more)
    rwa [List.flatten_cons] at hwhole

end Buffered

end Poly1305

end AuthEncryption
