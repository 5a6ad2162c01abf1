import AuthEncryption.Proofs.Aes.Permutation
import AuthEncryption.Proofs.Aead.Inverse
import AuthEncryption.Proofs.Words
import Mathlib.Data.List.Iterate

/-!
# No block of keystream comes twice

The cipher of a key sees the zero block, which gives the subkey of the hash, the first counter
block of a nonce, which masks the tag, and one counter block after the other for the payload.
Each counter block holds its number, and as many blocks as the longest message takes run
through the numbers without coming back to one or to zero. The cipher is one to one, so all
that it gives for a message is distinct.
-/
namespace AuthEncryption.Gcm

/-! ## Counter blocks -/

/-- The block that follows in the counter: its last four bytes, the most significant first,
are a number that grows by one and wraps. -/
def inc32 (block : FixedBytes 16) : FixedBytes 16 :=
  ((block.front 12).append
    (⟨Bytes.ofNatBE 4 (Bytes.toNatBE (block.back 4).toList + 1), by simp⟩ : FixedBytes 4) :
    FixedBytes 16)

/-- The first counter block of a nonce: the number behind it is one. -/
def firstBlock (nonce : FixedBytes 12) : FixedBytes 16 :=
  nonce.append (⟨[0, 0, 0, 1], rfl⟩ : FixedBytes 4)

/-- The counter blocks of a payload of `count` pieces. -/
def payloadCounters (nonce : FixedBytes 12) (count : Nat) : List (FixedBytes 16) :=
  List.iterate inc32 (inc32 (firstBlock nonce)) count

variable {nonce : FixedBytes 12}

@[simp] theorem toNatBE_number (count : UInt32) :
    Bytes.toNatBE (Bytes.ofNatBE 4 count.toNat) = count.toNat := by
  rw [Bytes.toNatBE_ofNatBE]
  exact Nat.mod_eq_of_lt count.toNat_lt

theorem inc32_counterBlock (count : UInt32) :
    inc32 (counterBlock nonce count) = counterBlock nonce (count + 1) := by
  have hfront : (counterBlock nonce count).front 12 = nonce := by
    apply FixedBytes.ext
    simp [counterBlock]
  have hback : ((counterBlock nonce count).back 4).toList = Bytes.ofNatBE 4 count.toNat := by
    simp [counterBlock]
  have hnext : Bytes.ofNatBE 4 (count.toNat + 1) = Bytes.ofNatBE 4 (count + 1).toNat := by
    rw [UInt32.toNat_add, Bytes.ofNatBE, Bytes.ofNatBE]
    exact congrArg List.reverse (Bytes.ofNatLE_mod 4 (count.toNat + 1)).symm
  apply FixedBytes.ext
  simp only [inc32, hfront, hback, toNatBE_number, hnext]
  rfl

/-- A counter block determines its nonce and its number. -/
theorem counterBlock_inj {nonce' : FixedBytes 12} {count count' : UInt32}
    (h : counterBlock nonce count = counterBlock nonce' count') :
    nonce = nonce' ∧ count = count' := by
  obtain ⟨hnonce, hcount⟩ := List.append_inj (congrArg FixedBytes.toList h) (by simp)
  have hnat := congrArg Bytes.toNatBE hcount
  simp only [toNatBE_number] at hnat
  exact ⟨FixedBytes.ext hnonce, UInt32.toNat_inj.mp hnat⟩

theorem counterBlock_ne_zero {count : UInt32} (h : count ≠ 0) :
    counterBlock nonce count ≠ FixedBytes.zero 16 := by
  have hzero : FixedBytes.zero 16 = counterBlock (FixedBytes.zero 12) 0 := rfl
  rw [hzero]
  exact fun heq => h (counterBlock_inj heq).2

/-- The block after `n` steps has the number `n + 1`. -/
theorem iterate_inc32 (n : Nat) :
    inc32^[n] (firstBlock nonce) = counterBlock nonce (UInt32.ofNat (n + 1)) := by
  induction n with
  | zero => rfl
  | succ n ih =>
    rw [Function.iterate_succ_apply', ih, inc32_counterBlock, UInt32.ofNat_add (n + 1) 1]
    rfl

/-- The counter blocks of a message hold the numbers from one on. -/
theorem counters_eq (count : Nat) :
    firstBlock nonce :: payloadCounters nonce count =
      (List.range (count + 1)).map fun n => counterBlock nonce (UInt32.ofNat (n + 1)) := by
  calc firstBlock nonce :: payloadCounters nonce count
      = List.iterate inc32 (firstBlock nonce) (count + 1) := rfl
    _ = (List.range (count + 1)).map fun n => inc32^[n] (firstBlock nonce) :=
        (List.range_map_iterate ..).symm
    _ = _ := List.map_congr_left fun n _ => iterate_inc32 n

/-- Within the longest message the numbers do not come back to one or to zero, so no two of
the blocks that the cipher sees are equal. -/
theorem counters_nodup {count : Nat} (h : count ≤ UInt32.size - 2) :
    (FixedBytes.zero 16 :: firstBlock nonce :: payloadCounters nonce count).Nodup := by
  have hnumber : ∀ n ∈ List.range (count + 1), (UInt32.ofNat (n + 1)).toNat = n + 1 := by
    intro n hn
    rw [List.mem_range] at hn
    rw [UInt32.size] at h
    exact UInt32.toNat_ofNat_of_lt' (by rw [UInt32.size]; omega)
  rw [counters_eq, List.nodup_cons]
  constructor
  · intro hmem
    obtain ⟨n, hn, hzero⟩ := List.mem_map.mp hmem
    refine counterBlock_ne_zero (fun heq => ?_) hzero
    have hnat := hnumber n hn
    rw [heq] at hnat
    cases hnat
  · refine List.Nodup.map_on (fun n hn n' hn' heq => ?_) List.nodup_range
    have hnat := congrArg UInt32.toNat (counterBlock_inj heq).2
    rw [hnumber n hn, hnumber n' hn'] at hnat
    exact Nat.succ.inj hnat

/-! ## Keystream -/

/-- Pieces of a message, each masked with its own block. -/
def maskWith (pieces : List Bytes) (blocks : List (FixedBytes 16)) : Bytes :=
  (List.zipWith (fun piece block => Bytes.xor piece block.toList) pieces blocks).flatten

/-- The blocks of keystream for a message. -/
def payloadBlocks (key : Key) (nonce : FixedBytes 12) (data : Bytes) : List (FixedBytes 16) :=
  (payloadCounters nonce (Bytes.pieces Aes.blockSize data).length).map key.schedule.encrypt

theorem maskPieces_eq (key : Key) (count : UInt32) (pieces : List Bytes) :
    maskPieces key nonce count pieces =
      maskWith pieces ((List.iterate inc32 (counterBlock nonce (count + 1)) pieces.length).map
        key.schedule.encrypt) := by
  induction pieces generalizing count with
  | nil => rfl
  | cons piece pieces ih =>
    rw [maskPieces, ih, ← inc32_counterBlock (count + 1)]
    rfl

theorem mask_eq (key : Key) (data : Bytes) :
    mask key nonce data =
      maskWith (Bytes.pieces Aes.blockSize data) (payloadBlocks key nonce data) := by
  have hsecond : inc32 (firstBlock nonce) = counterBlock nonce (1 + 1) := inc32_counterBlock 1
  rw [mask, maskPieces_eq, payloadBlocks, payloadCounters, hsecond]

theorem length_pieces_le {data : Bytes} {count : Nat} (h : data.length ≤ 16 * count) :
    (Bytes.pieces Aes.blockSize data).length ≤ count := by
  rw [Bytes.pieces, Bytes.length_takePieces, Aes.blockSize]
  omega

/-- Sealing a message within the limit masks each piece with the encryption of its own counter
block, and the hash, whose subkey is the encryption of the zero block, with that of the first
counter block of the nonce. The blocks that the cipher sees are distinct, and it maps no two
blocks to one whatever its round keys are. All that it gives is therefore distinct: no block of
keystream comes twice, and none is the mask of the tag or the subkey. -/
theorem keystream_never_repeats (key : FixedBytes 32) (nonce : FixedBytes 12) (ad data : Bytes)
    (h : data.length ≤ (Aead.aes256Gcm (.ofBytes key)).messageMax) :
    let k := Key.ofBytes key
    let pieces := Bytes.pieces Aes.blockSize data
    let blocks := payloadBlocks k nonce data
    let tagMask := k.schedule.encrypt (firstBlock nonce)
    let body := maskWith pieces blocks
    let hash := (((Ghash.new k.hashKey).update ad).update body).finish ad.length body.length
    ((Aead.aes256Gcm k).sealInPlaceDetached nonce ad).runOn data = (.ok (hash.xor tagMask), body) ∧
    (FixedBytes.zero 16 :: firstBlock nonce :: payloadCounters nonce pieces.length).Nodup ∧
    (∀ schedule : Aes.Schedule, Function.Injective schedule.encrypt) ∧
    k.hashKey = k.schedule.encrypt (FixedBytes.zero 16) ∧
    (k.hashKey :: tagMask :: blocks).Nodup := by
  intro k pieces blocks tagMask body hash
  have hmask : mask k nonce data = body := mask_eq k data
  have hcounters : (FixedBytes.zero 16 :: firstBlock nonce ::
      payloadCounters nonce pieces.length).Nodup :=
    counters_nodup (length_pieces_le h)
  refine ⟨?_, hcounters, Aes.Schedule.encrypt_injective, rfl,
    hcounters.map k.schedule.encrypt_injective⟩
  rw [Aead.runOn_sealInPlaceDetached (Aead.aes256Gcm k) nonce ad h]
  simp only [Aead.suite, Suite.mask, Suite.tag, hmask]
  rfl

/-- A message of three pieces takes five distinct blocks. -/
theorem keystream_never_repeats_of_three_pieces :
    let k := Key.ofBytes (.zero 32)
    let blocks := payloadBlocks k (.zero 12) (Bytes.zeros 33)
    (Bytes.zeros 33).length ≤ (Aead.aes256Gcm k).messageMax ∧ blocks.length = 3 ∧
      (k.hashKey :: k.schedule.encrypt (firstBlock (.zero 12)) :: blocks).Nodup := by
  intro k blocks
  have hlength : (Bytes.zeros 33).length ≤ (Aead.aes256Gcm k).messageMax := by
    rw [Bytes.length_zeros]
    decide
  have hcount : blocks.length = 3 := by
    simp [blocks, payloadBlocks, payloadCounters, Bytes.pieces, Aes.blockSize]
  obtain ⟨-, -, -, -, hdistinct⟩ :=
    keystream_never_repeats (.zero 32) (.zero 12) [] (Bytes.zeros 33) hlength
  exact ⟨hlength, hcount, hdistinct⟩

end AuthEncryption.Gcm
