import AuthEncryption.Proofs.Keystream.Calls

/-!
# Where a cipher stands

A cipher with any history behind it stands at some byte of a keystream: no operation leaves it
anywhere else. What it can still hand out are the bytes behind its place. Only in the narrow
layout is there an end to them.
-/
namespace AuthEncryption.Cipher

/-- The wide layout has no end. -/
theorem within_of_wide {c : Cipher} (h : c.narrow = false) (number : UInt64) (count : Nat) :
    c.Within number count := fun hnarrow => by
  rw [h] at hnarrow
  cases hnarrow

/-- The cipher has used up `used` bytes of the keystream from block `first` on. -/
structure StandsAt (c : Cipher) (first : UInt64) (used : Nat) : Prop where
  first_le : c.narrow = true → first.toNat ≤ UInt32.size
  within : c.Within first used
  positioned_eq : c.positioned first used = c

theorem standsAt_positioned {c : Cipher} {first : UInt64} {used : Nat}
    (hfirst : c.narrow = true → first.toNat ≤ UInt32.size) (h : c.Within first used) :
    (c.positioned first used).StandsAt first used :=
  ⟨hfirst, h, rfl⟩

/-- With nothing pending a cipher stands in front of its next block. -/
theorem standsAt_block {c : Cipher} {first : UInt64} (hnext : c.nextBlock = first)
    (hpending : c.pending = []) (hfirst : c.narrow = true → first.toNat ≤ UInt32.size) :
    c.StandsAt first 0 :=
  ⟨hfirst, fun _ => Nat.zero_le _, positioned_zero hnext hpending⟩

theorem standsAt_keyed {family : Family} {key nonce : Bytes} {c : Cipher}
    (h : keyed family key nonce = .ok c) : c.StandsAt (firstBlock family nonce) 0 := by
  obtain ⟨hnext, hpending, -, hzero⟩ := keyed_spec h
  refine standsAt_block hnext hpending fun hnarrow => ?_
  rw [hzero hnarrow]
  decide

theorem StandsAt.call {c : Cipher} {first : UInt64} {used : Nat} (h : c.StandsAt first used)
    (call : Call) :
    (call.step.runOn c).2.StandsAt first (c.reached first (used + call.length)) := by
  have hafter := after_call h.first_le h.within call
  rw [h.positioned_eq] at hafter
  rw [hafter]
  exact standsAt_positioned h.first_le (within_reached c first _)

/-- The step lemma: whatever is done with a cipher, it stands somewhere again. -/
theorem StandsAt.after {c : Cipher} {first : UInt64} {used : Nat} (h : c.StandsAt first used)
    (op : Operation) : ∃ first used, (op.after c).StandsAt first used := by
  cases op with
  | keystream count => exact ⟨_, _, h.call (.keystream count)⟩
  | apply data => exact ⟨_, _, h.call (.apply data)⟩
  | xor destination source =>
    by_cases fits : source.length ≤ destination.length
    · exact ⟨_, _, h.call (.xor destination source fits)⟩
    · have hstays : (Operation.xor destination source).after c = c := by
        simp only [Operation.after, xorKeystream, if_neg fits, Step.runOn_throw]
      rw [hstays]
      exact ⟨first, used, h⟩
  | seek number =>
    rw [Operation.after, runOn_seek]
    split
    · exact ⟨first, used, h⟩
    · rename_i hin
      refine ⟨number, 0, standsAt_block rfl rfl fun hnarrow => ?_⟩
      have hlast : ¬ lastNarrowBlock < number := fun hbeyond =>
        hin (Bool.and_eq_true_iff.mpr ⟨hnarrow, decide_eq_true hbeyond⟩)
      rw [UInt64.lt_iff_toNat_lt] at hlast
      exact Nat.le_succ_of_le (Nat.le_of_not_lt hlast)
  | rekey key nonce =>
    rw [Operation.after, runOn_rekey]
    split
    · exact ⟨_, 0, standsAt_keyed ‹_›⟩
    · exact ⟨first, used, h⟩
  | wipe => exact ⟨0, 0, standsAt_block rfl rfl fun hnarrow => by cases hnarrow⟩

theorem Reachable.standsAt {c : Cipher} (h : c.Reachable) :
    ∃ first used, c.StandsAt first used := by
  induction h with
  | keyed h => exact ⟨_, 0, standsAt_keyed h⟩
  | after op _ ih =>
    obtain ⟨first, used, hstands⟩ := ih
    exact hstands.after op

/-- What a cipher hands out are the bytes behind its place, if there are as many. -/
theorem StandsAt.runOn_keystream_iff {c : Cipher} {first : UInt64} {used : Nat}
    (h : c.StandsAt first used) {n : Nat} {rest : Bytes} :
    ((keystream n).runOn c).1 = .ok rest ↔
      c.Within first (used + n) ∧ rest = c.stretch first used n := by
  by_cases hthere : c.Within first (used + n)
  · have hcall := @runOn_call_within _ _ _ h.first_le (.keystream n) hthere
    rw [h.positioned_eq] at hcall
    have hresult : ((keystream n).runOn c).1 = .ok (c.stretch first used n) :=
      congrArg Prod.fst hcall
    rw [hresult, Except.ok.injEq, and_iff_right hthere]
    exact eq_comm
  · have hcall := @runOn_call_beyond _ _ _ h.first_le h.within (.keystream n) hthere
    rw [h.positioned_eq] at hcall
    have hresult : ((keystream n).runOn c).1 = .error .counterExhausted := congrArg Prod.fst hcall
    simp [hresult, hthere]

end AuthEncryption.Cipher
