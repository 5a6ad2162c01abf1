import AuthEncryption.Proofs.ByteStrings
import AuthEncryption.Poly1305.Authenticator

/-!
# Taking a message in parts

What an authenticator holds after some updates depends on the bytes alone: two updates
are one update with both strings. The tag of parts taken one after the other is therefore
the tag of the string they make up. A string either waits with the bytes that did or completes
their block, unless it reaches beyond it.
-/
namespace AuthEncryption.Poly1305

variable (mac : Poly1305)

theorem update_update (a b : Bytes) : (mac.update a).update b = mac.update (a ++ b) := by
  have hsize : 0 < blockSize := by decide
  have hfull := Bytes.fullPieces_append hsize (mac.waiting ++ a) b
  have hrest := Bytes.leftover_append hsize (mac.waiting ++ a) b
  rw [List.append_assoc] at hfull hrest
  simp only [update, hfull, hrest, List.foldl_append]

theorem foldl_update_update (a : Bytes) (parts : List Bytes) :
    parts.foldl update (mac.update a) = mac.update (a ++ parts.flatten) := by
  induction parts generalizing a with
  | nil => simp
  | cons part parts ih => rw [List.foldl_cons, update_update, ih, List.flatten_cons, List.append_assoc]

/-- An authenticator that has taken nothing does not change by taking the empty string. -/
theorem new_update_nil (key : FixedBytes 32) : (new key).update [] = new key := by
  simp [update, new, Bytes.fullPieces, Bytes.takePieces, Bytes.leftover]

/-- The parts are authenticated as one string. -/
theorem finalize_foldl_update (key : FixedBytes 32) (parts : List Bytes) :
    (parts.foldl update (new key)).finalize = authenticate key parts.flatten := by
  rw [← new_update_nil key, foldl_update_update]
  rfl

/-- What waits for more bytes does not fill a block. -/
theorem length_waiting_update (data : Bytes) : (mac.update data).waiting.length < blockSize :=
  (Bytes.length_leftover _).trans_lt (Nat.mod_lt _ (by decide))

/-! ## Updates that begin or end a block -/

/-- Bytes that do not fill the block wait with the others. -/
theorem update_of_lt {data : Bytes} (h : mac.waiting.length + data.length < blockSize) :
    mac.update data = { mac with waiting := mac.waiting ++ data } := by
  have hcount : (mac.waiting ++ data).length / blockSize = 0 :=
    Nat.div_eq_of_lt (by rwa [List.length_append])
  simp only [update, Bytes.fullPieces, Bytes.leftover, hcount]
  rfl

/-- Bytes that fill the block leave none to wait. -/
theorem update_of_eq {data : Bytes} (h : mac.waiting.length + data.length = blockSize) :
    mac.update data =
      { mac with h := mac.r.step mac.h (mac.waiting ++ data) fullBlockBit, waiting := [] } := by
  have hlength : (mac.waiting ++ data).length = blockSize := by rwa [List.length_append]
  have hcount : (mac.waiting ++ data).length / blockSize = 1 := by rw [hlength]; rfl
  have hpiece : (mac.waiting ++ data).take blockSize = mac.waiting ++ data :=
    List.take_of_length_le (Nat.le_of_eq hlength)
  have hrest : (mac.waiting ++ data).drop (blockSize * 1) = [] :=
    List.drop_of_length_le (Nat.le_of_eq hlength)
  simp only [update, Bytes.fullPieces, Bytes.leftover, hcount, Bytes.takePieces, hpiece, hrest]
  rfl

end AuthEncryption.Poly1305
