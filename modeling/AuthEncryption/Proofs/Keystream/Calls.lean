import AuthEncryption.Proofs.Effects
import AuthEncryption.Proofs.Keystream.Position

/-!
# Calls on one keystream

Whatever was done with a cipher before, once it has been keyed or moved to a block its
calls share the keystream from there on: each gets the bytes right behind those of the
calls before it. A call that asks for more than the narrow layout has left panics, and
takes what there was.
-/
namespace AuthEncryption.Cipher

/-- A call that consumes keystream. -/
inductive Call where
  /-- Asks for keystream itself. -/
  | keystream (count : Nat)
  /-- Masks a string. -/
  | apply (data : Bytes)
  /-- Masks a string into the front of a destination that can take it. -/
  | xor (destination source : Bytes) (fits : source.length ≤ destination.length)

namespace Call

/-- How much keystream a call consumes. -/
def length : Call → Nat
  | keystream count => count
  | apply data => data.length
  | xor _ source _ => source.length

/-- The step of a call. -/
def step : Call → Step Bytes
  | keystream count => Cipher.keystream count
  | apply data => Cipher.apply data
  | xor destination source _ => Cipher.xorKeystream destination source

/-- What a call gives back for the keystream it consumes. -/
def answer : Call → Bytes → Bytes
  | keystream _, mask => mask
  | apply data, mask => Bytes.xor data mask
  | xor destination source _, mask => Bytes.xor source mask ++ destination.drop source.length

/-- The cipher after some calls, whether they panicked or not. -/
def runAll : List Call → Cipher → Cipher
  | [], c => c
  | call :: rest, c => runAll rest (call.step.runOn c).2

end Call

/-! ## One call -/

theorem runOn_apply (c : Cipher) (data : Bytes) :
    (apply data).runOn c =
      (if (c.mask data).complete then .ok (c.mask data).data else .error .counterExhausted,
        (c.mask data).cipher) := by
  simp only [apply, Step.runOn_bind, Step.runOn_get, Step.runOn_set]
  split <;> rfl

theorem runOn_xorKeystream (c : Cipher) {destination source : Bytes}
    (fits : source.length ≤ destination.length) :
    (xorKeystream destination source).runOn c =
      (((apply source).runOn c).1.map (· ++ destination.drop source.length),
        ((apply source).runOn c).2) := by
  simp only [xorKeystream, if_pos fits, Step.runOn_bind]
  rcases (apply source).runOn c with ⟨result, after⟩
  cases result <;> rfl

section Positioned

variable {c : Cipher} {first : UInt64} {used : Nat}
  (hfirst : c.narrow = true → first.toNat ≤ UInt32.size)
include hfirst

theorem runOn_apply_within (data : Bytes) (h : c.Within first (used + data.length)) :
    (apply data).runOn (c.positioned first used) =
      (.ok (Bytes.xor data (c.stretch first used data.length)),
        c.positioned first (used + data.length)) := by
  rw [runOn_apply, mask_within hfirst h]
  rfl

/-- A call whose bytes are there gets them and moves on by their number. -/
theorem runOn_call_within {call : Call} (h : c.Within first (used + call.length)) :
    call.step.runOn (c.positioned first used) =
      (.ok (call.answer (c.stretch first used call.length)),
        c.positioned first (used + call.length)) := by
  cases call with
  | keystream count =>
    have happly := runOn_apply_within hfirst (Bytes.zeros count)
      (by rwa [Bytes.length_zeros])
    rw [Bytes.length_zeros, Bytes.zeros_xor (length_stretch ..)] at happly
    exact happly
  | apply data => exact runOn_apply_within hfirst data h
  | xor destination source fits =>
    have happly := runOn_apply_within hfirst source h
    simp only [Call.step, runOn_xorKeystream _ fits, happly]
    rfl

section Beyond

variable (hused : c.Within first used)
include hused

theorem runOn_apply_beyond (data : Bytes) (h : ¬ c.Within first (used + data.length)) :
    (apply data).runOn (c.positioned first used) =
      (.error .counterExhausted, c.positioned first (c.reached first (used + data.length))) := by
  rw [runOn_apply, complete_mask_beyond hfirst hused h, mask_positioned hfirst hused]
  rfl

/-- A call that asks for more panics, and nothing is left behind it. -/
theorem runOn_call_beyond {call : Call} (h : ¬ c.Within first (used + call.length)) :
    call.step.runOn (c.positioned first used) =
      (.error .counterExhausted, c.positioned first (c.reached first (used + call.length))) := by
  cases call with
  | keystream count =>
    have happly := runOn_apply_beyond hfirst hused (Bytes.zeros count)
      (by rwa [Bytes.length_zeros])
    rw [Bytes.length_zeros] at happly
    exact happly
  | apply data => exact runOn_apply_beyond hfirst hused data h
  | xor destination source fits =>
    have happly := runOn_apply_beyond hfirst hused source h
    simp only [Call.step, runOn_xorKeystream _ fits, happly]
    rfl

theorem after_call (call : Call) :
    (call.step.runOn (c.positioned first used)).2 =
      c.positioned first (c.reached first (used + call.length)) := by
  by_cases h : c.Within first (used + call.length)
  · rw [runOn_call_within hfirst h, reached_of_within h]
  · rw [runOn_call_beyond hfirst hused h]

end Beyond

end Positioned

/-! ## Any number of calls -/

/-- The run lemma: calls move the position by what they ask for, as far as there is
keystream. -/
theorem runAll_positioned {c : Cipher} {first : UInt64}
    (hfirst : c.narrow = true → first.toNat ≤ UInt32.size) (calls : List Call) (total : Nat) :
    Call.runAll calls (c.positioned first (c.reached first total)) =
      c.positioned first (c.reached first (total + (calls.map Call.length).sum)) := by
  induction calls generalizing total with
  | nil => rfl
  | cons call rest ih =>
    rw [Call.runAll, after_call hfirst (within_reached c first total), reached_reached_add, ih,
      List.map_cons, List.sum_cons, Nat.add_assoc]

/-! ## Where a keystream starts -/

/-- Anything that can be done with a cipher. -/
inductive Operation where
  | keystream (count : Nat)
  | apply (data : Bytes)
  | xor (destination source : Bytes)
  | seek (number : UInt64)
  | rekey (key nonce : Bytes)
  | wipe

/-- The cipher that an operation leaves, whether it panicked or not. -/
def Operation.after : Operation → Cipher → Cipher
  | keystream count, c => ((Cipher.keystream count).runOn c).2
  | apply data, c => ((Cipher.apply data).runOn c).2
  | xor destination source, c => ((xorKeystream destination source).runOn c).2
  | seek number, c => ((Cipher.seek number).runOn c).2
  | rekey key nonce, c => ((Cipher.rekey key nonce).runOn c).2
  | wipe, c => c.wipe

/-- The ciphers that come out of any history. -/
inductive Reachable : Cipher → Prop where
  | keyed {family : Family} {key nonce : Bytes} {c : Cipher}
      (h : Cipher.keyed family key nonce = .ok c) : Reachable c
  | after {c : Cipher} (op : Operation) (h : Reachable c) : Reachable (op.after c)

/-- The number of the first block, which only a nonce of sixteen bytes names. -/
def firstBlock (family : Family) (nonce : Bytes) : UInt64 :=
  if family = .salsa ∧ nonce.length = 16 then UInt64.ofNat (Bytes.toNatLE (nonce.drop 8)) else 0

/-- The cipher was keyed just now, or was moved to block `first` whatever happened before. -/
inductive StartsAt : Cipher → UInt64 → Prop where
  | keyed {family : Family} {key nonce : Bytes} {c : Cipher}
      (h : Cipher.keyed family key nonce = .ok c) : StartsAt c (firstBlock family nonce)
  | sought {b c : Cipher} {first : UInt64} (hb : Reachable b)
      (h : (seek first).runOn b = (.ok (), c)) : StartsAt c first

theorem keyed_spec {family : Family} {key nonce : Bytes} {c : Cipher}
    (h : keyed family key nonce = .ok c) :
    c.nextBlock = firstBlock family nonce ∧ c.pending = [] ∧
      (c.narrow = true ↔ c.nonceSize = 12) ∧ (c.narrow = true → firstBlock family nonce = 0) := by
  rw [keyed] at h
  split at h
  · cases family with
    | chacha =>
      simp only [ofNonce] at h
      split_ifs at h with h8 h12 h24 <;> cases h <;>
        simp [chacha, ietf, xchacha, start, firstBlock]
    | salsa =>
      simp only [ofNonce] at h
      split_ifs at h with h8 h16 h24 <;> cases h <;>
        simp [salsa, salsaFrom, xsalsa, start, firstBlock, *]
  · cases h

theorem runOn_seek (c : Cipher) (number : UInt64) :
    (seek number).runOn c =
      if c.narrow && lastNarrowBlock < number then (.error .counterExhausted, c)
      else (.ok (), { c with nextBlock := number, pending := [] }) := by
  simp only [seek, Step.runOn_bind, Step.runOn_get]
  split <;> rfl

theorem runOn_rekey (c : Cipher) (key nonce : Bytes) :
    (rekey key nonce).runOn c =
      match keyed c.family key nonce with
      | .ok d => (.ok (), d)
      | .error f => (.error f, c) := by
  simp only [rekey, Step.runOn_bind, Step.runOn_get, Step.runOn_lift]
  cases keyed c.family key nonce <;> rfl

/-- Drawing changes neither the layout nor the nonce that chose it. -/
theorem layout_generate (count : Nat) (c : Cipher) :
    (generate count c).2.narrow = c.narrow ∧ (generate count c).2.nonceSize = c.nonceSize := by
  induction count generalizing c with
  | zero => exact ⟨rfl, rfl⟩
  | succ count ih =>
    rw [generate]
    split
    · exact ⟨rfl, rfl⟩
    · exact ih _

theorem layout_apply (c : Cipher) (data : Bytes) :
    ((apply data).runOn c).2.narrow = c.narrow ∧
      ((apply data).runOn c).2.nonceSize = c.nonceSize := by
  rw [runOn_apply]
  exact layout_generate _ c

/-- The step lemma: no operation takes the narrow layout from or to another nonce. -/
theorem narrow_iff_after {c : Cipher} (h : c.narrow = true ↔ c.nonceSize = 12) (op : Operation) :
    (op.after c).narrow = true ↔ (op.after c).nonceSize = 12 := by
  cases op with
  | keystream count =>
    obtain ⟨hnarrow, hsize⟩ := layout_apply c (Bytes.zeros count)
    exact hnarrow ▸ hsize ▸ h
  | apply data =>
    obtain ⟨hnarrow, hsize⟩ := layout_apply c data
    exact hnarrow ▸ hsize ▸ h
  | xor destination source =>
    by_cases fits : source.length ≤ destination.length
    · obtain ⟨hnarrow, hsize⟩ := layout_apply c source
      simp only [Operation.after, runOn_xorKeystream c fits, hnarrow, hsize, h]
    · simpa only [Operation.after, xorKeystream, if_neg fits, Step.runOn_throw] using h
  | seek number =>
    rw [Operation.after, runOn_seek]
    split <;> exact h
  | rekey key nonce =>
    rw [Operation.after, runOn_rekey]
    split
    · exact (keyed_spec ‹_›).2.2.1
    · exact h
  | wipe => simp [Operation.after, Cipher.wipe]

theorem Reachable.narrow_iff {c : Cipher} (h : Reachable c) :
    c.narrow = true ↔ c.nonceSize = 12 := by
  induction h with
  | keyed h => exact (keyed_spec h).2.2.1
  | after op _ ih => exact narrow_iff_after ih op

theorem StartsAt.spec {c : Cipher} {first : UInt64} (h : c.StartsAt first) :
    c.nextBlock = first ∧ c.pending = [] ∧ (c.narrow = true ↔ c.nonceSize = 12) ∧
      (c.narrow = true → first.toNat ≤ UInt32.size) := by
  cases h with
  | keyed h =>
    obtain ⟨hnext, hpending, hnarrow, hzero⟩ := keyed_spec h
    exact ⟨hnext, hpending, hnarrow, fun hn => by simp [hzero hn]⟩
  | sought hb h =>
    rw [runOn_seek] at h
    split at h
    · cases h
    · rename_i hin
      cases h
      refine ⟨rfl, rfl, hb.narrow_iff, fun hn => ?_⟩
      have hlast : ¬ lastNarrowBlock.toNat < first.toNat := by
        rw [← UInt64.lt_iff_toNat_lt]
        intro hlt
        exact hin (by rw [show _ = true from hn, Bool.true_and]; exact decide_eq_true hlt)
      exact Nat.le_succ_of_le (Nat.le_of_not_lt hlast)

/-! ## The keystream is continuous -/

theorem runAll_started {c : Cipher} {first : UInt64} (h : c.StartsAt first) (calls : List Call) :
    Call.runAll calls c = c.positioned first (c.reached first (calls.map Call.length).sum) := by
  obtain ⟨hnext, hpending, -, hfirst⟩ := h.spec
  have hrun := runAll_positioned hfirst calls 0
  rwa [Nat.le_zero.mp (reached_le c first 0), positioned_zero hnext hpending, Nat.zero_add] at hrun

/-- Calls behind one another use consecutive bytes of the blocks from `first` on. In the
wide layouts block numbers wrap and no call panics. In the narrow one a call panics exactly
when the running total would pass the end of the last block; nothing is left then, and the
block number never passes `2^32`. -/
theorem calls_share_keystream {c : Cipher} {first : UInt64} (h : c.StartsAt first)
    (before : List Call) (call : Call) :
    let total := (before.map Call.length).sum
    let limit := 64 * (2 ^ 32 - first.toNat)
    let now := Call.runAll before c
    let outcome := (call.step.runOn now).1
    let answer := call.answer (c.stretch first total call.length)
    (c.nonceSize ≠ 12 →
      now.nextBlock = first + UInt64.ofNat ((total + 63) / 64) ∧ outcome = .ok answer) ∧
    (c.nonceSize = 12 → total ≤ limit →
      now.nextBlock.toNat = first.toNat + (total + 63) / 64 ∧ now.nextBlock.toNat ≤ 2 ^ 32 ∧
      outcome = if total + call.length ≤ limit then .ok answer else .error .counterExhausted) ∧
    (c.nonceSize = 12 → limit < total →
      now.nextBlock.toNat = 2 ^ 32 ∧
      outcome = if call.length = 0 then .ok (call.answer []) else .error .counterExhausted) := by
  obtain ⟨-, -, hlayout, hfirst⟩ := h.spec
  intro total limit now outcome answer
  have hnow : now = c.positioned first (c.reached first total) := runAll_started h before
  have houtcome : outcome = (call.step.runOn now).1 := rfl
  by_cases hthere : c.Within first total
  · rw [reached_of_within hthere] at hnow
    have hok : c.Within first (total + call.length) → outcome = .ok answer := fun hcall => by
      rw [houtcome, hnow, runOn_call_within hfirst hcall]
    refine ⟨fun hwide => ?_, fun hsize _ => ?_, fun hsize hover => ?_⟩
    · have hall : ∀ n, c.Within first n := fun n hn => absurd (hlayout.mp hn) hwide
      exact ⟨by rw [hnow, nextBlock_positioned], hok (hall _)⟩
    · have hnarrow := hlayout.mpr hsize
      obtain ⟨hnumber, hbound⟩ := toNat_nextBlock_positioned hnarrow (hfirst hnarrow) hthere
      refine ⟨by rw [hnow, hnumber], by rw [hnow, hnumber]; exact hbound, ?_⟩
      split
      · exact hok fun _ => ‹_›
      · have hcall : ¬ c.Within first (total + call.length) := fun hw => absurd (hw hnarrow) ‹_›
        rw [houtcome, hnow, runOn_call_beyond hfirst hthere hcall]
    · exact absurd (hthere (hlayout.mpr hsize)) (Nat.not_le_of_lt hover)
  · -- A call panicked before: the position is the end of the last block.
    have hnarrow : c.narrow = true := by
      by_contra hwide
      exact hthere fun hn => absurd hn hwide
    have hsize := hlayout.mp hnarrow
    have hover : limit < total := by
      by_contra hle
      exact hthere fun _ => Nat.le_of_not_lt hle
    refine ⟨fun hwide => absurd hsize hwide, fun _ hle => absurd hover (Nat.not_lt_of_le hle),
      fun _ _ => ?_⟩
    have hend : c.reached first total = limit := by
      rw [reached, if_pos hnarrow]
      exact Nat.min_eq_right (Nat.le_of_lt hover)
    have hlimit : c.Within first limit := fun _ => Nat.le_refl _
    rw [hend] at hnow
    constructor
    · obtain ⟨hnumber, -⟩ := toNat_nextBlock_positioned hnarrow (hfirst hnarrow) hlimit
      have hle := hfirst hnarrow
      rw [hnow, hnumber]
      simp only [limit, UInt32.size] at hle ⊢
      omega
    · rw [houtcome, hnow]
      split
      · have hcall : c.Within first (limit + call.length) := by
          rwa [‹call.length = 0›]
        rw [runOn_call_within hfirst hcall, ‹call.length = 0›, stretch_zero]
      · have hcall : ¬ c.Within first (limit + call.length) := fun hw => by
          have hle := hw hnarrow
          simp only [limit, UInt32.size] at hle
          omega
        rw [runOn_call_beyond hfirst hlimit hcall]

/-- Four bytes are left of the last narrow block when five are asked for. -/
theorem five_bytes_of_four_panic :
    StartsAt ((seek 0xffffffff).runOn (.ietf (.zero 32) (.zero 12))).2 0xffffffff ∧
      ((Call.keystream 5).step.runOn (Call.runAll [.apply (Bytes.zeros 60)]
        ((seek 0xffffffff).runOn (.ietf (.zero 32) (.zero 12))).2)).1 =
          .error .counterExhausted := by
  have hstart : StartsAt ((seek 0xffffffff).runOn (.ietf (.zero 32) (.zero 12))).2 0xffffffff :=
    .sought (.keyed (show keyed .chacha (Bytes.zeros 32) (Bytes.zeros 12) = .ok _ from rfl)) rfl
  have hlast := ((calls_share_keystream hstart [.apply (Bytes.zeros 60)] (.keystream 5)).2.1 rfl
    (by decide)).2.2
  exact ⟨hstart, by simpa [Call.length] using hlast⟩

end AuthEncryption.Cipher
