import AuthEncryption.Proofs.Aead.Inverse
import AuthEncryption.Proofs.Keystream.Inputs

/-!
# Two layouts of one keystream

The narrow layout writes four bytes of a nonce where the wide one has the upper half of its
block number. A narrow block is therefore a wide block under the last eight bytes of the nonce,
at the number whose upper half is the first four. Where these are zero the two keystreams are
the same up to the last narrow block, so the extended nonce of the authenticated encryption
gives the keystream of the cipher with that nonce.
-/
namespace AuthEncryption.Cipher

/-! ## Blocks -/

/-- A narrow number and the front of a nonce are a wide number. -/
theorem ofNatLE_append_nonce (x : FixedBytes 4) (n : FixedBytes 8) {number : Nat}
    (h : number < 2 ^ 32) :
    (FixedBytes.ofNatLE 4 number).append (x.append n) =
      (FixedBytes.ofNatLE 8 (Bytes.toNatLE x.toList * 2 ^ 32 + number)).append n := by
  obtain ⟨wide, hwide⟩ : ∃ w, w = Bytes.toNatLE x.toList * 2 ^ 32 + number := ⟨_, rfl⟩
  have hlow : Bytes.ofNatLE 4 wide = Bytes.ofNatLE 4 number := by
    rw [← Bytes.ofNatLE_mod 4 wide, hwide]
    congr 1
    omega
  have hhigh : Bytes.ofNatLE 4 (wide / 256 ^ 4) = x.toList := by
    have hvalue : wide / 256 ^ 4 = Bytes.toNatLE x.toList := by omega
    have hdigits := Bytes.ofNatLE_toNatLE x.toList
    rwa [x.length_toList, ← hvalue] at hdigits
  have hsplit : Bytes.ofNatLE 8 wide = Bytes.ofNatLE 4 number ++ x.toList := by
    rw [show 8 = 4 + 4 from rfl, Bytes.ofNatLE_add, hlow, hhigh]
  apply FixedBytes.ext
  rw [← hwide]
  simp only [FixedBytes.toList_append, FixedBytes.ofNatLE, hsplit, List.append_assoc]

variable (key : FixedBytes 32)

theorem block_ietf_append (x : FixedBytes 4) (n : FixedBytes 8) {number : UInt64}
    (h : number.toNat < 2 ^ 32) :
    (ietf key (x.append n)).block number =
      (chacha key n).block (.ofNat (Bytes.toNatLE x.toList * 2 ^ 32 + number.toNat)) := by
  have hx := Bytes.toNatLE_lt x.toList
  rw [x.length_toList] at hx
  have hwide : (UInt64.ofNat (Bytes.toNatLE x.toList * 2 ^ 32 + number.toNat)).toNat =
      Bytes.toNatLE x.toList * 2 ^ 32 + number.toNat := by
    rw [UInt64.toNat_ofNat']
    exact Nat.mod_eq_of_lt (by omega)
  have hwords := block_of_numbered key _ (numbered_chacha key
    (.ofNat (Bytes.toNatLE x.toList * 2 ^ 32 + number.toNat)) n)
  rw [hwide, ← ofNatLE_append_nonce x n h] at hwords
  rw [block_of_numbered key _ (numbered_ietf key number (x.append n)), hwords]
  rfl

/-- Behind four zero bytes a nonce gives the same blocks in both layouts. -/
theorem block_extendedCipher (nonce : FixedBytes 24) {number : UInt64}
    (h : number.toNat < 2 ^ 32) :
    (Aead.extendedCipher key nonce).block number = (xchacha key nonce).block number := by
  have hzero : Bytes.toNatLE (FixedBytes.zero 4).toList * 2 ^ 32 + number.toNat = number.toNat := by
    rw [FixedBytes.toList_zero, Bytes.toNatLE_zeros, Nat.zero_mul, Nat.zero_add]
  have hblock := block_ietf_append (Family.chacha.subkey key (nonce.front 16)) (.zero 4)
    (nonce.back 8) h
  rw [hzero, UInt64.ofNat_toNat] at hblock
  exact hblock

/-! ## Keystreams -/

theorem stretch_congr {c d : Cipher} {first : UInt64} {offset count : Nat}
    (h : ∀ i, i < offset + count →
      c.block (first + .ofNat (i / 64)) = d.block (first + .ofNat (i / 64))) :
    c.stretch first offset count = d.stretch first offset count := by
  refine List.map_congr_left fun i hi => ?_
  have hlt : i < offset + count := (List.mem_range'_1.mp hi).2
  rw [keystreamByte, keystreamByte, h i hlt]

/-- A keystream from a later block on is the keystream from an earlier one behind some blocks. -/
theorem stretch_later (c : Cipher) (first : UInt64) (k count : Nat) :
    c.stretch (first + .ofNat k) 0 count = c.stretch first (64 * k) count := by
  have hbyte : ∀ i, c.keystreamByte (first + .ofNat k) i = c.keystreamByte first (64 * k + i) := by
    intro i
    have hdiv : (64 * k + i) / 64 = k + i / 64 := by omega
    have hmod : (64 * k + i) % 64 = i % 64 := by omega
    rw [keystreamByte, keystreamByte, hdiv, hmod, UInt64.ofNat_add, UInt64.add_assoc]
  rw [stretch, stretch, List.range'_eq_map_range, List.range'_eq_map_range, List.map_map,
    List.map_map]
  refine List.map_congr_left fun i _ => ?_
  rw [Function.comp_apply, Function.comp_apply, hbyte, Nat.zero_add]

theorem stretch_extendedCipher (nonce : FixedBytes 24) {offset count : Nat}
    (h : offset + count ≤ 64 * 2 ^ 32) :
    (Aead.extendedCipher key nonce).stretch 0 offset count =
      (xchacha key nonce).stretch 0 offset count := by
  refine stretch_congr fun i hi => block_extendedCipher key nonce ?_
  rw [UInt64.zero_add, UInt64.toNat_ofNat']
  omega

/-! ## The extended nonce -/

/-- A fresh cipher in any layout hands out the front of its keystream. -/
theorem runOn_keystream_fresh {c : Cipher} (hnext : c.nextBlock = 0) (hpending : c.pending = [])
    {count : Nat} (h : c.Within 0 count) :
    ((keystream count).runOn c).1 = .ok (c.stretch 0 0 count) := by
  have hstands : c.StandsAt 0 0 := standsAt_block hnext hpending fun _ => by decide
  exact hstands.runOn_keystream_iff.mpr ⟨by rwa [Nat.zero_add], rfl⟩

/-- The layouts agree. A narrow block is the wide block under the last eight bytes of the nonce
whose number has the first four bytes as its upper half. Under one key and one extended nonce,
the cipher of the authenticated encryption and the cipher with that nonce have the same keystream
as far as the narrow layout reaches, and a sealed body is the message masked with it from the
second block on. -/
theorem nonce_layouts_agree :
    (∀ (x : FixedBytes 4) (n : FixedBytes 8) (number : UInt64), number.toNat < 2 ^ 32 →
      ∃ block,
        ((keystreamFrom number 64).runOn (ietf key (x.append n))).1 = .ok block ∧
        ((keystreamFrom (.ofNat (Bytes.toNatLE x.toList * 2 ^ 32 + number.toNat)) 64).runOn
          (chacha key n)).1 = .ok block) ∧
    (∀ (nonce : FixedBytes 24) (count : Nat), count ≤ 64 * 2 ^ 32 →
      ∃ mask, mask.length = count ∧
        ((keystream count).runOn (Aead.extendedCipher key nonce)).1 = .ok mask ∧
        ((keystream count).runOn (xchacha key nonce)).1 = .ok mask) ∧
    (∀ (nonce : FixedBytes 24) (m ad : Bytes), m.length ≤ 64 * (2 ^ 32 - 1) →
      ∃ (mask : Bytes) (tag : Tag 16), mask.length = m.length ∧
        ((keystreamFrom 1 m.length).runOn (xchacha key nonce)).1 = .ok mask ∧
        (Aead.xchacha20Poly1305Ietf key).sealMessage nonce m ad =
          .ok (Bytes.xor m mask ++ tag.toList)) := by
  refine ⟨fun x n number h => ?_, fun nonce count h => ?_, fun nonce m ad h => ?_⟩
  · have hblock : (ietf key (x.append n)).Within number 64 := fun _ => by
      rw [UInt32.size]
      omega
    refine ⟨_, runOn_keystreamFrom (fun _ => h) hblock, ?_⟩
    rw [runOn_keystreamFrom_of_wide rfl, stretch_first_block, stretch_first_block,
      block_ietf_append key x n h]
  · refine ⟨(xchacha key nonce).stretch 0 0 count, length_stretch .., ?_,
      runOn_keystream_fresh rfl rfl (within_of_wide rfl 0 count)⟩
    rw [runOn_keystream_fresh rfl rfl fun _ => h,
      stretch_extendedCipher key nonce (by rwa [Nat.zero_add])]
  · have hsecond : (xchacha key nonce).stretch 1 0 m.length =
        (Aead.extendedCipher key nonce).stretch 0 64 m.length := by
      rw [stretch_extendedCipher key nonce (by omega)]
      exact stretch_later (xchacha key nonce) 0 1 m.length
    obtain ⟨suite, hsuite⟩ : ∃ s, s = (Aead.xchacha20Poly1305Ietf key).suite nonce := ⟨_, rfl⟩
    have hseal := (Aead.xchacha20Poly1305Ietf key).sealMessage_of_le nonce ad h
    have hbody : suite.mask m = Bytes.xor m ((xchacha key nonce).stretch 1 0 m.length) := by
      rw [hsecond, hsuite]
      rfl
    rw [← hsuite, hbody] at hseal
    exact ⟨_, _, length_stretch .., runOn_keystreamFrom_of_wide rfl 1 m.length, hseal⟩

/-- The last narrow block, the longest keystream of the narrow layout and three sealed bytes. -/
theorem nonce_layouts_agree_at_the_end :
    let x : FixedBytes 4 := ⟨[1, 0, 0, 0], rfl⟩
    ((0xffffffff : UInt64).toNat < 2 ^ 32 ∧ ∃ block,
      ((keystreamFrom 0xffffffff 64).runOn (ietf (.zero 32) (x.append (.zero 8)))).1 = .ok block ∧
      ((keystreamFrom 0x1ffffffff 64).runOn (chacha (.zero 32) (.zero 8))).1 = .ok block) ∧
    (64 * 2 ^ 32 ≤ 64 * 2 ^ 32 ∧ ∃ mask : Bytes, mask.length = 64 * 2 ^ 32 ∧
      ((keystream (64 * 2 ^ 32)).runOn (Aead.extendedCipher (.zero 32) (.zero 24))).1 = .ok mask ∧
      ((keystream (64 * 2 ^ 32)).runOn (xchacha (.zero 32) (.zero 24))).1 = .ok mask) ∧
    (([1, 2, 3] : Bytes).length ≤ 64 * (2 ^ 32 - 1) ∧ ∃ (mask : Bytes) (tag : Tag 16),
      mask.length = 3 ∧
      ((keystreamFrom 1 3).runOn (xchacha (.zero 32) (.zero 24))).1 = .ok mask ∧
      (Aead.xchacha20Poly1305Ietf (.zero 32)).sealMessage (.zero 24) [1, 2, 3] [] =
        .ok (Bytes.xor [1, 2, 3] mask ++ tag.toList)) := by
  intro x
  have hnumber : (0xffffffff : UInt64).toNat < 2 ^ 32 := by decide
  have hlength : ([1, 2, 3] : Bytes).length ≤ 64 * (2 ^ 32 - 1) := by decide
  have hwide : UInt64.ofNat (Bytes.toNatLE x.toList * 2 ^ 32 + (0xffffffff : UInt64).toNat) =
      0x1ffffffff := by decide
  obtain ⟨hblocks, hkeystreams, hbodies⟩ := nonce_layouts_agree (.zero 32)
  have hblock := hblocks x (.zero 8) _ hnumber
  rw [hwide] at hblock
  exact ⟨⟨hnumber, hblock⟩,
    ⟨Nat.le_refl _, hkeystreams (.zero 24) _ (Nat.le_refl _)⟩,
    ⟨hlength, hbodies (.zero 24) [1, 2, 3] [] hlength⟩⟩

end AuthEncryption.Cipher
