import AuthEncryption.Proofs.Keystream.Places
import AuthEncryption.Proofs.Poly1305.Updates
import AuthEncryption.Proofs.SecretBox

/-!
# The place of key and payload

From the place where its cipher stands a composition takes the one-time key first; the payload
is masked with what comes behind its offset. Sealing and both ways of opening use the same key
and the same mask, wherever in a block the cipher stands. A box is the case of a fresh cipher.
-/
namespace AuthEncryption

/-- A mask that is longer than the string acts with its front. -/
theorem Bytes.xor_take_right (data mask : Bytes) :
    xor data (mask.take data.length) = xor data mask := by
  induction data generalizing mask with
  | nil => rfl
  | cons d data ih =>
    cases mask with
    | nil => rfl
    | cons m mask =>
      have htail := ih mask
      simp only [xor, List.length_cons, List.take_succ_cons, List.zipWith_cons_cons] at htail ⊢
      rw [htail]

namespace Composition

variable (k : Composition)

/-! ## One key and one mask -/

/-- The tag of associated data and a body under a one-time key. -/
def tagUnder (key : FixedBytes 32) (ad body : Bytes) : Tag 16 :=
  Poly1305.authenticate key (k.macInput ad body)

/-- A composition on a cipher authenticates under `key` and masks the payload with `mask`. An
opening needs keystream for what it accepts only. -/
structure Uses (c : Cipher) (key : FixedBytes 32) (mask : Bytes) : Prop where
  sealInPlace : ∀ ad m : Bytes, m.length ≤ mask.length →
    (k.sealInPlace c ad).runOn m =
      (.ok (k.tagUnder key ad (Bytes.xor m mask)), Bytes.xor m mask)
  openInPlace : ∀ (tag ad : Bytes) (context : String) (body : Bytes),
    ((k.tagUnder key ad body).toList = tag → body.length ≤ mask.length) →
    (k.openInPlace c tag ad context).runOn body =
      if (k.tagUnder key ad body).toList = tag then (.ok (), Bytes.xor body mask)
      else (.error (.error (.forgedOrCorrupted context)), body)
  openTo : ∀ (tag ad : Bytes) (context : String) (body buffer : Bytes),
    ((k.tagUnder key ad body).toList = tag → body.length ≤ mask.length) →
    (k.openTo c body tag ad context).runOn buffer =
      if (k.tagUnder key ad body).toList = tag then
        if body.length ≤ buffer.length then
          (.ok (), Bytes.xor body mask ++ buffer.drop body.length)
        else (.error (.fault (.shortDestination "xor_keystream")), buffer)
      else (.error (.error (.forgedOrCorrupted context)), buffer)

theorem tag_oneTimeMac (c : Cipher) (first : UInt64) (used : Nat) (ad body : Bytes) :
    k.tag (oneTimeMac c first used) ad body =
      k.tagUnder (c.stretchFixed first used 32) ad body :=
  Poly1305.finalize_foldl_update _ _

/-- The next 32 bytes are the key, and the mask begins behind the offset. -/
theorem uses_of_standsAt {c : Cipher} {first : UInt64} {used n : Nat}
    (h : c.StandsAt first used) (hthere : c.Within first (used + n)) (hn : k.payloadOffset ≤ n) :
    k.Uses c (c.stretchFixed first used 32)
      ((c.stretch first used n).drop k.payloadOffset) := by
  obtain ⟨more, rfl⟩ := Nat.exists_eq_add_of_le hn
  have hmask : (c.stretch first used (k.payloadOffset + more)).drop k.payloadOffset =
      c.stretch first (used + k.payloadOffset) more := by
    rw [Cipher.drop_stretch _ _ _ hn, Nat.add_sub_cancel_left]
  have hkey : c.Within first (used + k.payloadOffset) := hthere.mono (by omega)
  have hbody : ∀ text : Bytes, text.length ≤ more →
      c.Within first (used + k.payloadOffset + text.length) ∧
        Bytes.xor text (c.stretch first (used + k.payloadOffset) text.length) =
          Bytes.xor text (c.stretch first (used + k.payloadOffset) more) := fun text htext => by
    refine ⟨hthere.mono (by omega), ?_⟩
    rw [← Bytes.xor_take_right text (c.stretch first (used + k.payloadOffset) more),
      Cipher.take_stretch _ _ _ htext]
  rw [hmask]
  refine ⟨fun ad m hm => ?_, fun tag ad context body hneed => ?_,
    fun tag ad context body buffer hneed => ?_⟩
  · rw [Cipher.length_stretch] at hm
    obtain ⟨hwithin, hxor⟩ := hbody m hm
    have hseal := k.runOn_sealInPlace h.first_le hwithin ad
    rw [h.positioned_eq, hxor] at hseal
    rw [hseal, ← tag_oneTimeMac]
  · rw [Cipher.length_stretch] at hneed
    by_cases htag : (k.tagUnder (c.stretchFixed first used 32) ad body).toList = tag
    · obtain ⟨hwithin, hxor⟩ := hbody body (hneed htag)
      have hopen := k.runOn_openInPlace h.first_le hwithin ad tag context
      rwa [h.positioned_eq, hxor, tag_oneTimeMac] at hopen
    · have hopen := k.runOn_openInPlace_checked h.first_le hkey tag ad context body
      rw [h.positioned_eq, tag_oneTimeMac, if_neg htag] at hopen
      rw [hopen, if_neg htag]
  · rw [Cipher.length_stretch] at hneed
    have hopen := k.runOn_openTo_checked h.first_le hkey body tag ad context buffer
    rw [h.positioned_eq, tag_oneTimeMac] at hopen
    by_cases htag : (k.tagUnder (c.stretchFixed first used 32) ad body).toList = tag
    · obtain ⟨hwithin, hxor⟩ := hbody body (hneed htag)
      rw [hopen, if_pos htag, if_pos htag]
      split
      · next hroom =>
        rw [Cipher.runOn_maskInto h.first_le hroom hwithin, hxor]
        rfl
      · next hshort => simp [Cipher.maskInto, hshort]
    · rw [hopen, if_neg htag, if_neg htag]

/-! ## Boxes -/

/-- The body of a box is authenticated by itself. -/
theorem tagUnder_secretBox (key : FixedBytes 32) (ad body : Bytes) :
    secretBox.tagUnder key ad body = Poly1305.authenticate key body := by
  have hparts : secretBox.macInput ad body = body := List.append_nil body
  rw [tagUnder, hparts]

/-- A box is sealed by a fresh cipher: its tag is under the first 32 bytes of the keystream. -/
theorem sealMessage_eq_tag_append_body (box : SecretBox) (nonce : Nonce 24) {m : Bytes}
    (h : m.length ≤ SecretBox.messageMax) :
    let body := Bytes.xor m ((box.keystream nonce).stretch 0 32 m.length)
    box.sealMessage nonce m =
      .ok ((Poly1305.authenticate ((box.keystream nonce).stretchFixed 0 0 32) body).toList ++
        body) := by
  intro body
  have htag : box.bodyTag nonce body =
      Poly1305.authenticate ((box.keystream nonce).stretchFixed 0 0 32) body := by
    rw [← tagUnder_secretBox _ [] body, ← tag_oneTimeMac]
    rfl
  rw [← htag]
  exact (box.sealsTo_of_le nonce h).message

/-- Whatever was done with a cipher before, a composition takes its key from the next 32 bytes of
keystream and masks the payload with what comes behind its offset, in sealing and in both ways of
opening. There is keystream of any length but in the narrow layout. A box is a tag under such a
key and the body behind it. -/
theorem key_then_payload :
    (∀ (k : Composition) (c : Cipher), c.Reachable →
      (c.nonceSize ≠ 12 → ∀ n, ∃ rest, ((Cipher.keystream n).runOn c).1 = .ok rest) ∧
      ∀ (n : Nat) (rest : Bytes), ((Cipher.keystream n).runOn c).1 = .ok rest →
        (if k = secretBox then 32 else 64) ≤ n →
        rest.length = n ∧ ∃ key : FixedBytes 32, key.toList = rest.take 32 ∧
          k.Uses c key (rest.drop (if k = secretBox then 32 else 64))) ∧
    (∀ (box : SecretBox) (nonce : Nonce 24) (m : Bytes), m.length ≤ SecretBox.messageMax →
      ∃ (rest : Bytes) (key : FixedBytes 32),
        ((Cipher.keystream (32 + m.length)).runOn (box.keystream nonce)).1 = .ok rest ∧
        rest.length = 32 + m.length ∧ key.toList = rest.take 32 ∧
        box.sealMessage nonce m =
          .ok ((Poly1305.authenticate key (Bytes.xor m (rest.drop 32))).toList ++
            Bytes.xor m (rest.drop 32))) := by
  refine ⟨fun k c hreach => ?_, fun box nonce m hm => ?_⟩
  · have hoffset : (if k = secretBox then 32 else 64) = k.payloadOffset := by cases k <;> rfl
    obtain ⟨first, used, hstands⟩ := hreach.standsAt
    rw [hoffset]
    refine ⟨fun hsize n => ⟨_, hstands.runOn_keystream_iff.mpr ⟨fun hnarrow => ?_, rfl⟩⟩,
      fun n rest hrest hn => ?_⟩
    · exact absurd (hreach.narrow_iff.mp hnarrow) hsize
    · obtain ⟨hthere, rfl⟩ := hstands.runOn_keystream_iff.mp hrest
      refine ⟨Cipher.length_stretch .., c.stretchFixed first used 32, ?_,
        k.uses_of_standsAt hstands hthere hn⟩
      exact (Cipher.take_stretch _ _ _ (k.keySize_le_payloadOffset.trans hn)).symm
  · obtain ⟨hnext, hpending, hthere⟩ := box.covers_suite nonce m.length
    have hstands : (box.keystream nonce).StandsAt 0 0 :=
      Cipher.standsAt_block hnext hpending fun _ => by decide
    have hbody : ((box.keystream nonce).stretch 0 0 (32 + m.length)).drop 32 =
        (box.keystream nonce).stretch 0 32 m.length := by
      rw [Cipher.drop_stretch _ _ _ (Nat.le_add_right ..), Nat.zero_add, Nat.add_sub_cancel_left]
    refine ⟨_, (box.keystream nonce).stretchFixed 0 0 32,
      hstands.runOn_keystream_iff.mpr ⟨by rwa [Nat.zero_add], rfl⟩, Cipher.length_stretch .., ?_, ?_⟩
    · exact (Cipher.take_stretch _ _ _ (Nat.le_add_right ..)).symm
    · rw [hbody]
      exact sealMessage_eq_tag_append_body box nonce hm

/-- A cipher that has handed out fifty bytes of a block seals ten bytes across its end, and a box
seals three. -/
theorem key_then_payload_within_a_block :
    let c := ((Cipher.keystream 50).runOn (.salsa (.zero 32) (.zero 8))).2
    (c.Reachable ∧ c.nonceSize ≠ 12 ∧ 32 ≤ 42 ∧ ∃ (rest : Bytes) (key : FixedBytes 32),
      ((Cipher.keystream 42).runOn c).1 = .ok rest ∧ rest.length = 42 ∧
      key.toList = rest.take 32 ∧
      (secretBox.sealInPlace c []).runOn (Bytes.zeros 10) =
        (.ok (Poly1305.authenticate key (secretBox.macInput []
          (Bytes.xor (Bytes.zeros 10) (rest.drop 32)))),
          Bytes.xor (Bytes.zeros 10) (rest.drop 32))) ∧
    (([1, 2, 3] : Bytes).length ≤ SecretBox.messageMax ∧
      ∃ (rest : Bytes) (key : FixedBytes 32), rest.length = 35 ∧ key.toList = rest.take 32 ∧
        SecretBox.sealMessage ⟨.xsalsa20, .zero 32⟩ (.zero 24) [1, 2, 3] =
          .ok ((Poly1305.authenticate key (Bytes.xor [1, 2, 3] (rest.drop 32))).toList ++
            Bytes.xor [1, 2, 3] (rest.drop 32))) := by
  intro c
  have hkeyed : Cipher.keyed .salsa (Bytes.zeros 32) (Bytes.zeros 8) =
      .ok (.salsa (.zero 32) (.zero 8)) := rfl
  have hreach : c.Reachable := .after (.keystream 50) (.keyed hkeyed)
  have hsize : c.nonceSize ≠ 12 := by
    have hlayout := (Cipher.layout_apply (.salsa (.zero 32) (.zero 8)) (Bytes.zeros 50)).2
    show ((Cipher.apply (Bytes.zeros 50)).runOn (.salsa (.zero 32) (.zero 8))).2.nonceSize ≠ 12
    rw [hlayout]
    decide
  have hm : ([1, 2, 3] : Bytes).length ≤ SecretBox.messageMax := by decide
  obtain ⟨hseal, hbox⟩ := key_then_payload
  obtain ⟨hall, huses⟩ := hseal secretBox c hreach
  obtain ⟨rest, hrest⟩ := hall hsize 42
  obtain ⟨hlength, key, hkey, huse⟩ := huses 42 rest hrest (by decide)
  obtain ⟨rest', key', -, hlength', hkey', hsealed⟩ := hbox ⟨.xsalsa20, .zero 32⟩ (.zero 24) _ hm
  refine ⟨⟨hreach, hsize, by decide, rest, key, hrest, hlength, hkey, ?_⟩,
    hm, rest', key', hlength', hkey', hsealed⟩
  exact huse.sealInPlace [] _ (by simp [hlength])

end Composition

end AuthEncryption
