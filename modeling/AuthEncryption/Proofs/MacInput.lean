import AuthEncryption.Proofs.Poly1305.Updates
import AuthEncryption.Composition

/-!
# The authenticated string is unambiguous

A composition with associated data authenticates one string for each pair of associated data
and ciphertext, and no two pairs have the same string, whatever bytes they hold. The strings
are read from the end, where a length of eight bytes stands: unpadded, it is the length of the
ciphertext right before it, and behind the associated data stands theirs; padded, both lengths
come first, and then each field with its zeros has a known length. A front part of associated
data that looks like padding or like a length changes nothing, since nothing is read from there.
-/
namespace AuthEncryption

namespace Bytes

variable {a b : Bytes}

/-- A length at the end can be taken off. -/
theorem append_le64_inj {m n : Nat} (hm : m < UInt64.size) (hn : n < UInt64.size)
    (h : a ++ le64 m = b ++ le64 n) : a = b ∧ m = n := by
  obtain ⟨hfront, hlength⟩ := List.append_inj' h (by simp)
  exact ⟨hfront, le64_inj hm hn hlength⟩

end Bytes

namespace Composition

variable {ad ad' c c' : Bytes} (had : ad.length < UInt64.size) (had' : ad'.length < UInt64.size)
  (hc : c.length < UInt64.size) (hc' : c'.length < UInt64.size)
include had had' hc hc'

/-- Without padding each field is followed by its length. -/
theorem macInput_unpadded_inj (h : unpadded.macInput ad c = unpadded.macInput ad' c') :
    ad = ad' ∧ c = c' := by
  simp only [macInput, macParts, List.flatten_cons, List.flatten_nil, List.append_nil,
    ← List.append_assoc] at h
  obtain ⟨hfields, hlength⟩ := Bytes.append_le64_inj hc hc' h
  obtain ⟨hfront, hciphertext⟩ := List.append_inj' hfields hlength
  obtain ⟨hdata, -⟩ := Bytes.append_le64_inj had had' hfront
  exact ⟨hdata, hciphertext⟩

/-- With padding both lengths stand behind both fields. -/
theorem macInput_ietf_inj (h : ietf.macInput ad c = ietf.macInput ad' c') : ad = ad' ∧ c = c' := by
  simp only [macInput, macParts, List.flatten_cons, List.flatten_nil, List.append_nil,
    ← List.append_assoc] at h
  obtain ⟨hfields, hcLength⟩ := Bytes.append_le64_inj hc hc' h
  obtain ⟨hfields, hadLength⟩ := Bytes.append_le64_inj had had' hfields
  obtain ⟨hfront, hciphertext⟩ := Bytes.append_padded_inj hcLength hfields
  obtain ⟨-, hdata⟩ := Bytes.append_padded_inj (a := []) (b := []) hadLength hfront
  exact ⟨hdata, hciphertext⟩

omit had had' hc hc'

/-- A composition with associated data authenticates one string for each associated data and
ciphertext under any one-time key, and this string determines both. -/
theorem macInput_unambiguous {k : Composition} (hk : k = .unpadded ∨ k = .ietf) :
    (∀ (key : FixedBytes 32) (ad c : Bytes),
      k.tag (.new key) ad c = Poly1305.authenticate key (k.macInput ad c)) ∧
    (∀ ad c ad' c' : Bytes, ad.length < UInt64.size → c.length < UInt64.size →
      ad'.length < UInt64.size → c'.length < UInt64.size →
      k.macInput ad c = k.macInput ad' c' → ad = ad' ∧ c = c') := by
  constructor
  · intro key ad c
    exact Poly1305.finalize_foldl_update key (k.macParts ad c)
  · intro ad c ad' c' had hc had' hc' h
    rcases hk with rfl | rfl
    · exact macInput_unpadded_inj had had' hc hc' h
    · exact macInput_ietf_inj had had' hc hc' h

/-- A byte that moves from the ciphertext to the associated data changes both strings. -/
theorem macInput_unambiguous_of_moved_byte :
    ietf.macInput [0] [0, 7] ≠ ietf.macInput [0, 0] [7] ∧
      unpadded.macInput [0] [0, 7] ≠ unpadded.macInput [0, 0] [7] := by
  have hdiff : ¬ ([0] : Bytes) = [0, 0] := by decide
  have hietf := (macInput_unambiguous (k := .ietf) (Or.inr rfl)).2 [0] [0, 7] [0, 0] [7]
    (by decide) (by decide) (by decide) (by decide)
  have hunpadded := (macInput_unambiguous (k := .unpadded) (Or.inl rfl)).2 [0] [0, 7] [0, 0] [7]
    (by decide) (by decide) (by decide) (by decide)
  exact ⟨fun h => hdiff (hietf h).1, fun h => hdiff (hunpadded h).1⟩

end Composition

end AuthEncryption
