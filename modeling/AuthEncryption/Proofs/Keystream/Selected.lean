import AuthEncryption.Proofs.Keystream.Places
import AuthEncryption.Cipher.Selected

/-!
# A selected cipher stays what it is

Whatever is done with a cipher that was selected at run time, its variant stays. The nonce it is
keyed with is one of its variant, until a wipe and from the next key on; in between it has none.
While it is keyed its layout is that of its variant, so block numbers end where those of the variant
do. A key that is not accepted changes nothing, and from one that is accepted the cipher goes on as
a fresh one.
-/
namespace AuthEncryption

namespace Cipher

theorem nonceSize_keyed {family : Family} {key nonce : Bytes} {c : Cipher}
    (h : keyed family key nonce = .ok c) : c.nonceSize = nonce.length := by
  rw [keyed] at h
  split at h
  · cases family with
    | chacha =>
      simp only [ofNonce] at h
      split_ifs at h with h8 h12 h24 <;> cases h <;> simp [chacha, ietf, xchacha, start, *]
    | salsa =>
      simp only [ofNonce] at h
      split_ifs at h with h8 h16 h24 <;> cases h <;> simp [salsa, salsaFrom, xsalsa, start, *]
  · cases h

theorem nonceSize_call (c : Cipher) (call : Call) :
    (call.step.runOn c).2.nonceSize = c.nonceSize := by
  cases call with
  | keystream count => exact (layout_apply c (Bytes.zeros count)).2
  | apply data => exact (layout_apply c data).2
  | xor destination source fits =>
    simp only [Call.step, runOn_xorKeystream c fits, (layout_apply c source).2]

/-! ## The end of the block numbers -/

/-- How many blocks have to be produced for `n` bytes. -/
def blocksFor (c : Cipher) (n : Nat) : Nat := (n - c.pending.length + 63) / 64

/-- An operation goes beyond block number `2 ^ 32 - 1`. -/
def Operation.Overruns (c : Cipher) : Operation → Prop
  | keystream count => 2 ^ 32 < c.nextBlock.toNat + c.blocksFor count
  | apply data => 2 ^ 32 < c.nextBlock.toNat + c.blocksFor data.length
  | xor destination source =>
    source.length ≤ destination.length ∧ 2 ^ 32 < c.nextBlock.toNat + c.blocksFor source.length
  | seek number => 2 ^ 32 ≤ number.toNat
  | rekey _ _ => False
  | wipe => False

/-- Where the numbers of 32 bits are counted, `n` more bytes are there exactly if the number behind
their blocks is not beyond the last one. -/
theorem StandsAt.within_iff {c : Cipher} {first : UInt64} {used : Nat} (h : c.StandsAt first used)
    (hnarrow : c.narrow = true) (n : Nat) :
    c.Within first (used + n) ↔ c.nextBlock.toNat + c.blocksFor n ≤ 2 ^ 32 := by
  have hfirst := h.first_le hnarrow
  have hnumber := (toNat_nextBlock_positioned hnarrow hfirst h.within).1
  have hpending := length_pending_positioned c first used
  rw [h.positioned_eq] at hnumber hpending
  have hwithin : c.Within first (used + n) ↔ used + n ≤ 64 * (UInt32.size - first.toNat) :=
    ⟨fun hthere => hthere hnarrow, fun hle _ => hle⟩
  rw [hwithin, blocksFor, hnumber, hpending]
  simp only [UInt32.size] at hfirst ⊢
  omega

/-- A call is stopped exactly if it needs a block that the narrow layout does not have. -/
theorem StandsAt.exhausted_iff {c : Cipher} {first : UInt64} {used : Nat}
    (h : c.StandsAt first used) (call : Call) :
    (call.step.runOn c).1 = .error .counterExhausted ↔
      c.narrow = true ∧ 2 ^ 32 < c.nextBlock.toNat + c.blocksFor call.length := by
  by_cases hthere : c.Within first (used + call.length)
  · have hcall := runOn_call_within h.first_le hthere
    rw [h.positioned_eq] at hcall
    rw [hcall]
    refine iff_of_false (by simp) ?_
    rintro ⟨hnarrow, hover⟩
    exact Nat.not_lt_of_le ((h.within_iff hnarrow _).mp hthere) hover
  · have hcall := runOn_call_beyond h.first_le h.within hthere
    rw [h.positioned_eq] at hcall
    rw [hcall]
    have hnarrow : c.narrow = true := by
      by_contra hwide
      exact hthere fun hn => absurd hn hwide
    have hover : 2 ^ 32 < c.nextBlock.toNat + c.blocksFor call.length :=
      Nat.lt_of_not_le fun hle => hthere ((h.within_iff hnarrow _).mpr hle)
    exact iff_of_true rfl ⟨hnarrow, hover⟩

theorem seek_exhausted_iff (c : Cipher) (number : UInt64) :
    ((seek number).runOn c).1 = .error .counterExhausted ↔
      c.narrow = true ∧ 2 ^ 32 ≤ number.toNat := by
  have hlast : lastNarrowBlock < number ↔ 2 ^ 32 ≤ number.toNat := UInt64.lt_iff_toNat_lt
  rw [runOn_seek, ← hlast]
  split <;> simp_all

end Cipher

open Cipher (Operation)

namespace Variant

/-- Only the variant with the narrow layout takes nonces of twelve bytes. -/
theorem twelve_mem_nonceLengths_iff (variant : Variant) :
    12 ∈ variant.nonceLengths ↔ variant = chacha20Ietf := by
  cases variant <;> decide

theorem nonceSize_mem_nonceLengths (variant : Variant) :
    variant.nonceSize ∈ variant.nonceLengths := by
  cases variant <;> decide

theorem mem_nonceLengths_of_ofNonceLength {n : Nat} {variant : Variant}
    (h : ofNonceLength? n = some variant) : n ∈ variant.nonceLengths := by
  unfold ofNonceLength? at h
  split at h <;> cases h <;> decide

end Variant

namespace SelectedCipher

/-! ## Operations and what they show -/

/-- The nonce length of the key, if there is one. -/
def nonceSize (s : SelectedCipher) : Nat := s.cipher.nonceSize

/-- Does something with a selected cipher; only calls for keystream give something back. -/
def perform (s : SelectedCipher) : Operation → Except Fault Bytes × SelectedCipher
  | .keystream count => s.runOn (Cipher.keystream count)
  | .apply data => s.runOn (Cipher.apply data)
  | .xor destination source => s.runOn (Cipher.xorKeystream destination source)
  | .seek number =>
    let (result, after) := s.runOn (Cipher.seek number)
    (result.map fun _ => [], after)
  | .rekey key nonce =>
    let (result, after) := s.rekey key nonce
    (result.map fun _ => [], after)
  | .wipe => (.ok [], s.wipe)

/-- What can be seen of a step: what it gives back or why it stopped, and the nonce length. -/
structure Answer where
  result : Except Fault Bytes
  nonceSize : Nat

/-- What can be seen of some steps, each of which goes on with what the one before left. -/
def answers : SelectedCipher → List Operation → List Answer
  | _, [] => []
  | s, op :: later =>
    let (result, after) := s.perform op
    { result, nonceSize := after.nonceSize } :: answers after later

/-- A cipher in the course of time, and whether it was wiped and has not been keyed since. -/
structure History where
  now : SelectedCipher
  wiped : Bool

/-- One more step, whether it stopped or not. -/
def History.step (history : History) (op : Operation) : History :=
  let (result, now) := history.now.perform op
  { now
    wiped := match op, result with
      | .wipe, _ => true
      | .rekey _ _, .ok _ => false
      | _, _ => history.wiped }

/-- The cipher comes from one of the constructors. -/
inductive Built : SelectedCipher → Prop where
  | selected {key nonce : Bytes} {s : SelectedCipher} (h : select key nonce = .ok s) : Built s
  | named (variant : Variant) (key : FixedBytes 32) (nonce : FixedBytes variant.nonceSize)
      {s : SelectedCipher} (h : keyed variant key.toList nonce.toList = .ok s) : Built s

/-! ## Keys -/

/-- A key and a nonce that the variant accepts. -/
def Accepts (variant : Variant) (key nonce : Bytes) : Prop :=
  key.length = 32 ∧ nonce.length ∈ variant.nonceLengths

theorem exists_keyed {variant : Variant} {key nonce : Bytes} (h : Accepts variant key nonce) :
    ∃ c, Cipher.keyed variant.family key nonce = .ok c := by
  obtain ⟨hkey, hnonce⟩ := h
  have hsize : key.length = Cipher.keySize := hkey
  rw [Cipher.keyed, dif_pos hsize]
  cases variant <;>
    simp only [Variant.nonceLengths, List.mem_cons, List.not_mem_nil, or_false] at hnonce
  case salsa20 =>
    rcases hnonce with hnonce | hnonce <;> simp [Variant.family, Cipher.ofNonce, hnonce]
  all_goals simp [Variant.family, Cipher.ofNonce, hnonce]

variable {s : SelectedCipher} {key nonce : Bytes}

/-- From a key that is accepted a cipher goes on as a fresh one. -/
theorem perform_rekey_of_accepts (h : Accepts s.variant key nonce) :
    ∃ fresh, keyed s.variant key nonce = .ok fresh ∧
      s.perform (.rekey key nonce) = (.ok [], fresh) := by
  obtain ⟨c, hc⟩ := exists_keyed h
  refine ⟨⟨s.variant, c⟩, ?_, ?_⟩
  · rw [keyed, hc]
    rfl
  · have hcontains : s.variant.nonceLengths.contains nonce.length = true :=
      List.contains_iff_mem.mpr h.2
    simp only [perform, rekey, hcontains, if_true, hc]
    rfl

/-- A key that is not accepted stops the step and changes nothing. -/
theorem perform_rekey_of_not_accepts (h : ¬ Accepts s.variant key nonce) :
    s.perform (.rekey key nonce) =
      (.error (if nonce.length ∈ s.variant.nonceLengths then .keyLength s.variant.family.name
        else .variantNonce nonce.length), s) := by
  by_cases hmem : nonce.length ∈ s.variant.nonceLengths
  · have hcontains : s.variant.nonceLengths.contains nonce.length = true :=
      List.contains_iff_mem.mpr hmem
    have hsize : ¬ key.length = Cipher.keySize := fun hkey => h ⟨hkey, hmem⟩
    simp only [perform, rekey, hcontains, if_true, Cipher.keyed, dif_neg hsize, if_pos hmem]
    rfl
  · have hcontains : ¬ s.variant.nonceLengths.contains nonce.length = true :=
      fun hc => hmem (List.contains_iff_mem.mp hc)
    simp only [perform, rekey, if_neg hcontains, if_neg hmem]
    rfl

theorem Built.exists_keyed (h : Built s) :
    ∃ key nonce, Accepts s.variant key nonce ∧
      Cipher.keyed s.variant.family key nonce = .ok s.cipher := by
  have hkeyed {variant : Variant} {key nonce : Bytes} {s : SelectedCipher}
      (h : keyed variant key nonce = .ok s) (hmem : nonce.length ∈ variant.nonceLengths) :
      ∃ key nonce, Accepts s.variant key nonce ∧
        Cipher.keyed s.variant.family key nonce = .ok s.cipher := by
    rw [keyed] at h
    rcases hc : Cipher.keyed variant.family key nonce with rule | c
    · rw [hc] at h
      cases h
    · rw [hc] at h
      cases h
      refine ⟨key, nonce, ⟨?_, hmem⟩, hc⟩
      by_contra hsize
      have hstop : ¬ key.length = Cipher.keySize := hsize
      rw [Cipher.keyed, dif_neg hstop] at hc
      cases hc
  cases h with
  | @selected key nonce _ h =>
    rw [select] at h
    split at h
    · exact hkeyed h (Variant.mem_nonceLengths_of_ofNonceLength ‹_›)
    · cases h
  | named variant key nonce h =>
    refine hkeyed h ?_
    rw [FixedBytes.length_toList]
    exact variant.nonceSize_mem_nonceLengths

/-- A constructor makes the cipher of any key that its variant accepts. -/
theorem built_keyed {variant : Variant} (h : Accepts variant key nonce)
    (hs : keyed variant key nonce = .ok s) : Built s := by
  obtain ⟨hkey, hmem⟩ := h
  by_cases hsize : nonce.length = variant.nonceSize
  · exact .named variant ⟨key, hkey⟩ ⟨nonce, hsize⟩ hs
  · -- The nonce of sixteen bytes is the only one that a constructor tells from its length alone.
    have hselect : Variant.ofNonceLength? nonce.length = some variant := by
      cases variant <;> simp_all [Variant.nonceLengths, Variant.nonceSize, Variant.ofNonceLength?]
    exact .selected (by rw [select, hselect]; exact hs)

/-! ## Steps -/

/-- The variant has stayed, and the nonce is one of its own or, behind a wipe, none. -/
structure Steady (variant : Variant) (history : History) : Prop where
  variant_eq : history.now.variant = variant
  reachable : history.now.cipher.Reachable
  keyed : history.wiped = false → history.now.nonceSize ∈ variant.nonceLengths
  unkeyed : history.wiped = true → history.now.nonceSize = 0

theorem Built.steady (h : Built s) : Steady s.variant ⟨s, false⟩ := by
  obtain ⟨key, nonce, haccepts, hc⟩ := h.exists_keyed
  refine ⟨rfl, .keyed hc, fun _ => ?_, fun hwiped => by cases hwiped⟩
  rw [nonceSize, Cipher.nonceSize_keyed hc]
  exact haccepts.2

variable {variant : Variant} {history : History}

/-- A step that only moves the cipher along its keystream. -/
theorem Steady.move (h : Steady variant history) {op : Operation}
    (hsize : (op.after history.now.cipher).nonceSize = history.now.cipher.nonceSize)
    (hstep : history.step op =
      { history with now := { history.now with cipher := op.after history.now.cipher } }) :
    Steady variant (history.step op) := by
  rw [hstep]
  refine ⟨h.variant_eq, .after op h.reachable, fun hkeyed => ?_, fun hwiped => ?_⟩
  · rw [nonceSize, hsize]
    exact h.keyed hkeyed
  · exact hsize.trans (h.unkeyed hwiped)

/-- The step lemma. -/
theorem Steady.step (h : Steady variant history) (op : Operation) :
    Steady variant (history.step op) := by
  cases op with
  | keystream count => exact h.move (Cipher.nonceSize_call _ (.keystream count)) rfl
  | apply data => exact h.move (Cipher.nonceSize_call _ (.apply data)) rfl
  | xor destination source =>
    refine h.move ?_ rfl
    by_cases fits : source.length ≤ destination.length
    · exact Cipher.nonceSize_call _ (.xor destination source fits)
    · simp only [Operation.after, Cipher.xorKeystream, if_neg fits, Cipher.Step.runOn_throw]
  | seek number =>
    refine h.move ?_ rfl
    rw [Operation.after, Cipher.runOn_seek]
    split <;> rfl
  | rekey key nonce =>
    by_cases haccepts : Accepts history.now.variant key nonce
    · obtain ⟨fresh, hfresh, hrekey⟩ := perform_rekey_of_accepts haccepts
      obtain ⟨c, hc⟩ := exists_keyed haccepts
      rw [SelectedCipher.keyed, hc] at hfresh
      cases hfresh
      have hstep : history.step (.rekey key nonce) = ⟨⟨history.now.variant, c⟩, false⟩ := by
        rw [History.step, hrekey]
      rw [hstep]
      refine ⟨h.variant_eq, .keyed hc, fun _ => ?_, fun hwiped => by cases hwiped⟩
      rw [nonceSize, Cipher.nonceSize_keyed hc, ← h.variant_eq]
      exact haccepts.2
    · have hrekey := perform_rekey_of_not_accepts haccepts
      have hstep : history.step (.rekey key nonce) = history := by
        rw [History.step, hrekey]
      rw [hstep]
      exact h
  | wipe =>
    exact ⟨h.variant_eq, .after .wipe h.reachable, fun hkeyed => Bool.noConfusion hkeyed,
      fun _ => rfl⟩

/-- The run lemma. -/
theorem Steady.run (h : Steady variant history) (ops : List Operation) :
    Steady variant (ops.foldl History.step history) := by
  induction ops generalizing history with
  | nil => exact h
  | cons op ops ih => exact ih (h.step op)

/-- While the cipher is keyed its block numbers end where those of the variant do. -/
theorem Steady.exhausted_iff (h : Steady variant history) (hkeyed : history.wiped = false)
    (op : Operation) :
    (history.now.perform op).1 = .error .counterExhausted ↔
      variant = .chacha20Ietf ∧ op.Overruns history.now.cipher := by
  obtain ⟨first, used, hstands⟩ := h.reachable.standsAt
  have hnarrow : history.now.cipher.narrow = true ↔ variant = .chacha20Ietf := by
    rw [h.reachable.narrow_iff, ← variant.twelve_mem_nonceLengths_iff]
    have hmem := h.keyed hkeyed
    refine ⟨fun htwelve => htwelve ▸ hmem, fun htwelve => ?_⟩
    obtain rfl := variant.twelve_mem_nonceLengths_iff.mp htwelve
    exact List.mem_singleton.mp hmem
  rw [← hnarrow]
  cases op with
  | keystream count => exact hstands.exhausted_iff (.keystream count)
  | apply data => exact hstands.exhausted_iff (.apply data)
  | xor destination source =>
    by_cases fits : source.length ≤ destination.length
    · simp only [Operation.Overruns, fits, true_and]
      exact hstands.exhausted_iff (.xor destination source fits)
    · have hstop : (history.now.perform (.xor destination source)).1 =
          .error (.shortDestination "xor_keystream") := by
        simp only [perform, runOn, Cipher.xorKeystream, if_neg fits, Cipher.Step.runOn_throw]
      simp [hstop, Operation.Overruns, fits]
  | seek number =>
    have hseek := Cipher.seek_exhausted_iff history.now.cipher number
    simp only [Operation.Overruns, ← hseek, perform, runOn]
    cases ((Cipher.seek number).runOn history.now.cipher).1 <;> simp [Except.map]
  | rekey key nonce =>
    by_cases haccepts : Accepts history.now.variant key nonce
    · obtain ⟨fresh, -, hrekey⟩ := perform_rekey_of_accepts haccepts
      simp [hrekey, Operation.Overruns]
    · rw [perform_rekey_of_not_accepts haccepts]
      split <;> simp [Operation.Overruns]
  | wipe => simp [perform, Operation.Overruns]

/-- Over any steps, stopped ones among them, the variant stays; the nonce length is one of the
variant, or zero from a wipe to the next key that is accepted, and outside of that time block
numbers end exactly in the variant that counts with 32 bits. A key that is accepted makes all that
follows that of a fresh cipher, and one that is not stops its step and makes no difference to what
follows. -/
theorem keeps_its_algorithm {start : SelectedCipher} (h : Built start) (ops : List Operation) :
    let history := ops.foldl History.step ⟨start, false⟩
    let now := history.now
    now.variant = start.variant ∧
    (history.wiped = true → now.nonceSize = 0) ∧
    (history.wiped = false →
      now.nonceSize ∈ start.variant.nonceLengths ∧
      ∀ op, (now.perform op).1 = .error .counterExhausted ↔
        start.variant = .chacha20Ietf ∧ op.Overruns now.cipher) ∧
    ∀ (key nonce : Bytes) (later : List Operation),
      (Accepts start.variant key nonce →
        ∃ fresh, keyed start.variant key nonce = .ok fresh ∧ Built fresh ∧
          (now.perform (.rekey key nonce)).1 = .ok [] ∧
          answers (now.perform (.rekey key nonce)).2 later = answers fresh later) ∧
      (¬ Accepts start.variant key nonce →
        (∃ rule, (now.perform (.rekey key nonce)).1 = .error rule) ∧
          answers (now.perform (.rekey key nonce)).2 later = answers now later) := by
  intro history now
  have hsteady : Steady start.variant history := h.steady.run ops
  have hvariant : now.variant = start.variant := hsteady.variant_eq
  refine ⟨hvariant, hsteady.unkeyed,
    fun hkeyed => ⟨hsteady.keyed hkeyed, hsteady.exhausted_iff hkeyed⟩,
    fun key nonce later => ⟨fun haccepts => ?_, fun hrefused => ?_⟩⟩
  · rw [← hvariant] at haccepts ⊢
    obtain ⟨fresh, hfresh, hrekey⟩ := perform_rekey_of_accepts haccepts
    rw [hrekey]
    exact ⟨fresh, hfresh, built_keyed haccepts hfresh, rfl, rfl⟩
  · rw [← hvariant] at hrefused
    rw [perform_rekey_of_not_accepts hrefused]
    exact ⟨⟨_, rfl⟩, rfl⟩

/-- The key behind the wipe is one byte short; the next one gives the end of the blocks back. -/
theorem keeps_its_algorithm_behind_a_wipe :
    let start : SelectedCipher := ⟨.chacha20Ietf, .ietf (.zero 32) (.zero 12)⟩
    let now := ([.seek 5, .wipe, .rekey (Bytes.zeros 31) (Bytes.zeros 12)].foldl History.step
      ⟨start, false⟩).now
    Built start ∧ now.nonceSize = 0 ∧
      answers (now.perform (.rekey (Bytes.zeros 32) (Bytes.zeros 12))).2 [.seek 0x100000000] =
        [⟨.error .counterExhausted, 12⟩] := by
  intro start now
  have hbuilt : Built start := .named .chacha20Ietf (.zero 32) (.zero 12) rfl
  obtain ⟨-, hwiped, -, hkey⟩ := keeps_its_algorithm hbuilt
    [.seek 5, .wipe, .rekey (Bytes.zeros 31) (Bytes.zeros 12)]
  obtain ⟨fresh, hfresh, -, -, hanswers⟩ := (hkey (Bytes.zeros 32) (Bytes.zeros 12)
    [.seek 0x100000000]).1 ⟨by decide, by decide⟩
  cases hfresh
  exact ⟨hbuilt, hwiped rfl, hanswers⟩

end SelectedCipher

end AuthEncryption
