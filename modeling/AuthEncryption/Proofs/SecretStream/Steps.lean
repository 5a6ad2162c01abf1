import AuthEncryption.Proofs.Composition
import AuthEncryption.Proofs.Poly1305.Updates
import AuthEncryption.SecretStream.Chunk

/-!
# One step of a stream

The keystream of a chunk is long enough for the longest plaintext, so every part of a
step is a total function of the state: what opens the chunk, the body, the authenticated
string and the next state. A push gives the chunk of its plaintext and moves on. A pull
accepts the chunk if its last bytes are the authenticator's tag of the rest and its first
byte unmasks to a known tag, and then moves on in the same way; else it changes nothing.
-/
namespace AuthEncryption.SecretStream

/-! ## The tag block -/

namespace Opening

variable (o : Opening) (b sent : UInt8)

theorem toList_maskBlock :
    (o.maskBlock b).toList = (b ^^^ o.tagMask.get 0) :: o.tagMask.toList.drop 1 := by
  have hrest : (o.tagMask.toList.drop 1).length = 63 := by simp
  have htail := Bytes.zeros_xor hrest
  simp only [maskBlock, FixedBytes.toList_xor]
  rw [o.tagMask.toList_eq_cons]
  exact congrArg (List.cons _) htail

theorem maskByte_eq : o.maskByte b = b ^^^ o.tagMask.get 0 := by
  simp [maskByte, FixedBytes.get, toList_maskBlock]

theorem maskByte_maskByte : o.maskByte (o.maskByte b) = b := by
  rw [maskByte_eq, maskByte_eq, UInt8.xor_assoc, UInt8.xor_self, UInt8.xor_zero]

theorem toList_restoreBlock :
    (o.restoreBlock sent).toList = sent :: o.tagMask.toList.drop 1 := by
  rw [restoreBlock, FixedBytes.toList_mapList, toList_maskBlock]
  rfl

/-- Both ends authenticate the same block. -/
theorem restoreBlock_maskByte : o.restoreBlock (o.maskByte b) = o.maskBlock b := by
  apply FixedBytes.ext
  rw [toList_restoreBlock, maskByte_eq, toList_maskBlock]

end Opening

variable (s : SecretStream)

/-! ## The keystream of a chunk -/

theorem positioned_cipher : s.cipher.positioned 0 0 = s.cipher := Cipher.positioned_zero rfl rfl

theorem first_le : s.cipher.narrow = true → (0 : UInt64).toNat ≤ UInt32.size := fun _ => by decide

theorem within_chunk {n : Nat} : s.cipher.Within 0 (128 + n) ↔ n ≤ messageMax := by
  have hblocks : 64 * (UInt32.size - (0 : UInt64).toNat) = 128 + messageMax := by decide
  have hnarrow : s.cipher.narrow = true := rfl
  rw [Cipher.Within, forall_prop_of_true hnarrow, hblocks]
  omega

theorem within_of_le {n : Nat} (h : n ≤ 128) : s.cipher.Within 0 n :=
  (s.within_chunk.mpr (Nat.zero_le messageMax)).mono h

/-- What opens the next chunk. -/
def opened : Opening :=
  { mac := Composition.oneTimeMac s.cipher 0 0
    tagMask := s.cipher.stretchFixed 0 64 64
    payload := s.cipher.positioned 0 128 }

theorem opening_eq : s.opening = .ok s.opened := by
  have hmac : Composition.ietf.authenticator (s.cipher.positioned 0 0) =
      .ok (Composition.oneTimeMac s.cipher 0 0, s.cipher.positioned 0 64) :=
    Composition.ietf.authenticator_positioned s.first_le (s.within_of_le (by decide))
  have hmask : (s.cipher.positioned 0 64).drawFixed 64 =
      .ok (s.cipher.stretchFixed 0 64 64, s.cipher.positioned 0 128) :=
    Cipher.drawFixed_within s.first_le (s.within_of_le (Nat.le_refl 128))
  rw [positioned_cipher] at hmac
  simp only [opening, hmac, hmask, Failure.ok_bind]
  rfl

/-- The body of a chunk, or the plaintext of a body. -/
def maskBody (text : Bytes) : Bytes := Bytes.xor text (s.cipher.stretch 0 128 text.length)

@[simp] theorem length_maskBody (text : Bytes) : (s.maskBody text).length = text.length := by
  simp [maskBody]

theorem maskBody_maskBody (text : Bytes) : s.maskBody (s.maskBody text) = text := by
  rw [maskBody, length_maskBody]
  exact Bytes.xor_xor_cancel (by simp)

theorem runOn_maskInto {text buffer : Bytes} (hroom : text.length ≤ buffer.length)
    (h : text.length ≤ messageMax) :
    (s.opened.payload.maskInto text).runOn buffer =
      (.ok (s.cipher.positioned 0 (128 + text.length)),
        s.maskBody text ++ buffer.drop text.length) :=
  Cipher.runOn_maskInto s.first_le hroom (s.within_chunk.mpr h)

/-- The key of the authenticator of the next chunk. -/
def oneTimeKey : FixedBytes 32 := s.cipher.stretchFixed 0 0 32

theorem tag_opened (ad : Bytes) (block : FixedBytes 64) (body : Bytes) :
    s.opened.tag ad block body =
      Poly1305.authenticate s.oneTimeKey (Opening.macParts ad block body).flatten :=
  Poly1305.finalize_foldl_update ..

/-! ## The next state -/

/-- The state after a rekey. -/
def renewed : SecretStream :=
  { s with
    key := s.key.xor ((s.cipher.stretchFixed 0 0 40).front 32)
    innerNonce := s.innerNonce.xor ((s.cipher.stretchFixed 0 0 40).back 8)
    counter := firstCounter }

theorem rekeyed_eq : s.rekeyed = .ok s.renewed := by
  have hdraw := Cipher.drawFixed_within s.first_le (s.within_of_le (show 0 + 40 ≤ 128 by decide))
  rw [positioned_cipher] at hdraw
  simp only [rekeyed, hdraw, Failure.ok_bind]
  rfl

theorem runFrom_rekey (log : Log) :
    rekey.runFrom s log = { result := .ok (), state := s.renewed, log := .rekeyed :: log } := by
  simp [rekey, rekeyed_eq]

/-- Whether a rekey follows a chunk. -/
def renews (mac : Tag 16) (tag : ChunkTag) : Bool :=
  tag.shouldRekey || Bytes.isZero (s.stepped mac).counter.toList

theorem renews_iff (mac : Tag 16) (tag : ChunkTag) :
    s.renews mac tag = true ↔
      tag.shouldRekey = true ∨ Bytes.isZero (s.stepped mac).counter.toList = true := by
  simp [renews]

/-- The state after a chunk. -/
def next (mac : Tag 16) (tag : ChunkTag) : SecretStream :=
  let moved := if s.renews mac tag then (s.stepped mac).renewed else s.stepped mac
  if tag.isFinal then { moved with finalized := true } else moved

/-- Neither the step nor a rekey behind it touches the mark of the end. -/
theorem finalized_stepped_or_renewed (mac : Tag 16) (rekeys : Bool) :
    (if rekeys then (s.stepped mac).renewed else s.stepped mac).finalized = s.finalized := by
  cases rekeys <;> rfl

theorem finalized_next (mac : Tag 16) (tag : ChunkTag) :
    (s.next mac tag).finalized = (s.finalized || tag.isFinal) := by
  cases hfinal : tag.isFinal with
  | false => simp [next, hfinal, finalized_stepped_or_renewed]
  | true => simp [next, hfinal]

/-- The mark of the end apart, a chunk leaves the state that it has stepped or a rekey of it. -/
theorem next_eq_stepped_or_renewed (mac : Tag 16) (tag : ChunkTag) :
    { s.next mac tag with finalized := s.finalized } =
      if s.renews mac tag then (s.stepped mac).renewed else s.stepped mac := by
  rw [next, ← s.finalized_stepped_or_renewed mac (s.renews mac tag)]
  split <;> rfl

theorem counter_next (mac : Tag 16) (tag : ChunkTag) :
    (s.next mac tag).counter =
      if s.renews mac tag then firstCounter else (s.stepped mac).counter := by
  rw [next]
  split_ifs <;> rfl

/-- The reports that follow a chunk, added to those before. -/
def nextLog (mac : Tag 16) (tag : ChunkTag) (log : Log) : Log :=
  (if tag.isFinal then [.finalChunk] else []) ++
    (if s.renews mac tag then [.rekeyed] else []) ++ log

theorem runFrom_advance (mac : Tag 16) (tag : ChunkTag) (log : Log) :
    (advance mac tag).runFrom s log =
      { result := .ok (), state := s.next mac tag, log := s.nextLog mac tag log } := by
  have hrekey := s.renews_iff mac tag
  cases hrenews : s.renews mac tag <;> cases hfinal : tag.isFinal <;>
    simp [advance, ← hrekey, hrenews, hfinal, next, nextLog, runFrom_rekey]

end AuthEncryption.SecretStream
