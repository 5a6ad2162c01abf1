import AuthEncryption.Allocating
import AuthEncryption.Proofs.Aead.Forms
import AuthEncryption.Proofs.SecretStream.Chunks

/-!
# Memory for new strings

Where the string that a form makes is no longer than a string can be, the form is the one that asks
for no memory. Where it would be longer the form stops before anything is sealed or opened. A chunk
within the limit always gets its string.
-/
namespace AuthEncryption

namespace Allocating

variable {α : Type} (form : Except Failure α)

theorem ofLength_of_le {n : Nat} (h : n ≤ capacityLimit) : ofLength n form = form := by
  rw [ofLength, checkCapacity, if_pos h]
  rfl

theorem ofLength_of_gt {n : Nat} (h : capacityLimit < n) :
    ofLength n form = .error (.fault .capacityOverflow) := by
  rw [ofLength, checkCapacity, if_neg (Nat.not_le_of_lt h)]
  rfl

variable {given size : Nat}

theorem ofSum_eq (h : given + size < sizeLimit) :
    ofSum given size form = ofLength (given + size) form := by
  rw [ofSum, addSizes, if_pos h]
  rfl

theorem ofSum_of_le (h : given + size ≤ capacityLimit) : ofSum given size form = form := by
  rw [ofSum_eq form (Nat.lt_of_le_of_lt h (by decide)), ofLength_of_le form h]

/-- A string of a size that there is, and yet too long. -/
theorem ofSum_of_gt (h : capacityLimit < given + size) (hsize : given + size < sizeLimit) :
    ofSum given size form = .error (.fault .capacityOverflow) := by
  rw [ofSum_eq form hsize, ofLength_of_gt form h]

theorem ofDifference_of_le (context : String) (hlong : size ≤ given) (h : given ≤ capacityLimit) :
    ofDifference context given size form = form := by
  rw [ofDifference, Check.ciphertextLength, if_neg (Nat.not_lt_of_le hlong), subSizes, if_pos hlong]
  exact ofLength_of_le form (Nat.le_trans (Nat.sub_le ..) h)

/-- No memory is asked for on behalf of a string that is refused. -/
theorem ofDifference_of_lt (context : String) (h : given < size) :
    ofDifference context given size form =
      .error (.error (.cipherTooShort context size given)) := by
  rw [ofDifference, Check.ciphertextLength, if_pos h]
  rfl

end Allocating

/-- What the string takes when it grows by the tag is all that counts of it. -/
theorem Aead.sealInPlaceGrowing_of_le (a : Aead) (nonce : Nonce a.nonceSize) (ad : Bytes)
    {capacity : Nat} (h : capacity ≤ capacityLimit) :
    a.sealInPlaceGrowing nonce capacity ad = a.sealInPlace nonce ad := by
  rw [sealInPlaceGrowing, checkCapacity, if_pos h]
  rfl

namespace SecretStream

/-- The longest chunk is far from the longest string. -/
theorem checkCapacity_of_le {n : Nat} (h : n ≤ messageMax + overhead) :
    checkCapacity n = .ok () :=
  if_pos (Nat.le_trans h (by decide))

variable (s : SecretStream) (ad : Bytes) (log : Log)

theorem runFrom_pushAllocating {m : Bytes} (h : m.length ≤ messageMax) (t : ChunkTag) :
    (pushAllocating m ad t).runFrom s log = (push m ad t).runFrom s log := by
  have hcheck := checkCapacity_of_le (Nat.add_le_add_right h overhead)
  simp [pushAllocating, addSizes_overhead h, hcheck]

theorem runFrom_pullAllocating {c : Bytes} (h : c.length ≤ messageMax + overhead) :
    (pullAllocating c ad).runFrom s log = (pull c ad).runFrom s log := by
  have hcheck := checkCapacity_of_le (Nat.le_trans (Nat.sub_le c.length overhead) h)
  simp [pullAllocating, hcheck]

end SecretStream

end AuthEncryption
