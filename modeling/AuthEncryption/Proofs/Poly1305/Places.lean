import AuthEncryption.Proofs.Effects
import AuthEncryption.Proofs.Poly1305.Chunks

/-!
# Every place in the block of an authenticator is there

The bytes of a message are put into the block of an authenticator once more, with operations that
fail: a part that lies outside the block or the data, a copy between parts of different lengths, a
count that is no size. As long as fewer than sixteen bytes wait between two updates none of them
fails, and an update leaves it so.
-/
namespace AuthEncryption

/-- Writes a string over the bytes from `offset` on. -/
def OnBuffer.write (offset : Nat) (data : Bytes) : OnBuffer Unit :=
  OnBuffer.onBack offset (OnBuffer.onFront data.length (OnBuffer.copy data))

theorem FixedBytes.runOn_write {n : Nat} (a : FixedBytes n) {offset : Nat} {data : Bytes}
    (h : offset + data.length ≤ n) :
    (OnBuffer.write offset data).runOn a.toList = (.ok (), (a.overwrite offset data).toList) := by
  have hoffset : offset = (a.toList.take offset).length := by
    rw [List.length_take, length_toList]
    omega
  have hroom : data.length ≤ (a.toList.drop offset).length := by
    rw [List.length_drop, length_toList]
    omega
  have hsame : data.length = ((a.toList.drop offset).take data.length).length := by
    rw [List.length_take_of_le hroom]
  rw [toList_overwrite a h, OnBuffer.write, ← List.drop_drop]
  conv_lhs => rw [← List.take_append_drop offset a.toList]
  rw [OnBuffer.runOn_onBack _ hoffset, OnBuffer.runOn_onFront_take _ hroom,
    OnBuffer.runOn_copy hsame, List.append_assoc]

namespace Poly1305.Buffered

/-- The block with a string written to it. -/
def writeWithin (mac : Buffered) (offset : Nat) (data : Bytes) : Except Failure Buffered := do
  let (result, buffer) := (OnBuffer.write offset data).runOn mac.buffer.toList
  result
  return { mac with buffer := .ofPadded 16 buffer }

/-- `absorb`, if there is room for what is left over. -/
def absorbWithin (mac : Buffered) (data : Bytes) : Except Failure Buffered := do
  let rest := Bytes.leftover blockSize data
  let written ← ((Bytes.fullPieces blockSize data).foldl block mac).writeWithin 0 rest
  return { written with leftover := rest.length }

/-- `update`, if the front of the data fits behind the bytes that wait. -/
def updateWithin (mac : Buffered) (data : Bytes) : Except Failure Buffered := do
  if 0 < mac.leftover then
    let room ← subSizes blockSize mac.leftover
    let (taken, rest) ← splitBytes data (min room data.length)
    let written ← mac.writeWithin mac.leftover taken
    let leftover ← addSizes mac.leftover taken.length
    if leftover < blockSize then
      return { written with leftover }
    else
      absorbWithin { written.block written.buffer.toList with leftover := 0 } rest
  else
    mac.absorbWithin data

/-- The last block: the bytes that wait, a one, and zeros. -/
def lastBlockWithin (mac : Buffered) : Except Failure Bytes := do
  let (waiting, _) ← splitBytes mac.buffer.toList mac.leftover
  let (result, block) := (do
    OnBuffer.write 0 waiting
    OnBuffer.put mac.leftover 1 : OnBuffer Unit).runOn (Bytes.zeros blockSize)
  result
  return block

variable {mac : Buffered}

theorem writeWithin_eq (mac : Buffered) {offset : Nat} {data : Bytes}
    (h : offset + data.length ≤ 16) :
    mac.writeWithin offset data =
      .ok { mac with buffer := mac.buffer.overwrite offset data } := by
  simp [writeWithin, mac.buffer.runOn_write h]

theorem absorbWithin_eq (mac : Buffered) (data : Bytes) :
    mac.absorbWithin data = .ok (mac.absorb data) := by
  have hrest : 0 + (Bytes.leftover blockSize data).length ≤ 16 := by
    rw [Nat.zero_add]
    exact Nat.le_of_lt (mac.leftover_absorb data)
  rw [absorbWithin, writeWithin_eq _ hrest]
  rfl

/-- The step lemma: with room behind the bytes that wait, nothing fails. -/
theorem updateWithin_eq (h : mac.leftover < 16) (data : Bytes) :
    mac.updateWithin data = .ok (mac.update data) := by
  have hleft : mac.leftover ≤ blockSize := Nat.le_of_lt h
  have hroom : mac.leftover + (data.take (blockSize - mac.leftover)).length ≤ 16 :=
    (view_fill h data).1
  have hsum : mac.leftover + (data.take (blockSize - mac.leftover)).length < sizeLimit :=
    Nat.lt_of_le_of_lt hroom (by decide)
  by_cases hwait : 0 < mac.leftover
  · have hfilled : ({ mac with
          buffer := mac.buffer.overwrite mac.leftover (data.take (blockSize - mac.leftover))
          leftover := mac.leftover + (data.take (blockSize - mac.leftover)).length } : Buffered) =
        mac.fill data := rfl
    simp only [updateWithin, update, if_pos hwait, subSizes, if_pos hleft, splitBytes,
      if_pos (Nat.min_le_right ..), List.splitAt_eq, ← List.take_eq_take_min,
      ← List.drop_eq_drop_min, addSizes, if_pos hsum, Failure.liftM_ofFault, Failure.mapError_ok,
      Failure.ok_bind, mac.writeWithin_eq hroom, absorbWithin_eq]
    exact (apply_ite Except.ok ..).symm
  · rw [updateWithin, update, if_neg hwait, if_neg hwait, absorbWithin_eq]

/-- The bytes that wait leave room for the one that is put behind them. -/
theorem lastBlockWithin_eq (h : mac.leftover < 16) :
    mac.lastBlockWithin =
      .ok (((FixedBytes.zero 16).overwrite 0 (mac.buffer.toList.take mac.leftover)).overwrite
        mac.leftover [1]).toList := by
  have hwaiting : (mac.buffer.toList.take mac.leftover).length = mac.leftover := by
    rw [List.length_take, FixedBytes.length_toList]
    omega
  have hin : mac.leftover ≤ mac.buffer.toList.length := by
    rw [FixedBytes.length_toList]
    omega
  have hwrite : (OnBuffer.write 0 (mac.buffer.toList.take mac.leftover)).runOn (Bytes.zeros 16) =
      (.ok (), ((FixedBytes.zero 16).overwrite 0 (mac.buffer.toList.take mac.leftover)).toList) :=
    (FixedBytes.zero 16).runOn_write (by omega)
  have hput : mac.leftover <
      ((FixedBytes.zero 16).overwrite 0 (mac.buffer.toList.take mac.leftover)).toList.length := by
    rwa [FixedBytes.length_toList]
  have hone : mac.leftover + [(1 : UInt8)].length ≤ 16 := h
  simp only [lastBlockWithin, splitBytes, if_pos hin, List.splitAt_eq, Failure.liftM_ofFault,
    Failure.mapError_ok, Failure.ok_bind, blockSize, OnBuffer.runOn_bind, hwrite, OnBuffer.put,
    OnBuffer.runOn_get, if_pos hput, OnBuffer.runOn_set, FixedBytes.toList_overwrite _ hone,
    List.set_eq_take_append_cons_drop, List.append_assoc]
  rfl

/-- The run lemma: however a message is cut, no place is missing. -/
theorem foldlM_updateWithin (h : mac.leftover < 16) (parts : List Bytes) :
    parts.foldlM updateWithin mac = .ok (parts.foldl update mac) := by
  induction parts generalizing mac with
  | nil => rfl
  | cons part parts ih =>
    rw [List.foldlM_cons, updateWithin_eq h, Failure.ok_bind, List.foldl_cons]
    exact ih (leftover_update mac part)

end Poly1305.Buffered

end AuthEncryption
