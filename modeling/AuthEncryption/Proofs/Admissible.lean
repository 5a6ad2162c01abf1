import AuthEncryption.Proofs.Allocating
import AuthEncryption.Proofs.Counters
import AuthEncryption.Proofs.Keystream.Buffered
import AuthEncryption.Proofs.Poly1305.Places
import AuthEncryption.Proofs.Poly1305.Ranges
import AuthEncryption.Proofs.SecretBox
import AuthEncryption.Proofs.SecretStream.Atomic

/-!
# Admissible input breaks no rule

An operation either answers, with a value or a cause, or it meets a broken rule and stops: a
range outside its buffer, a copy between different lengths, a destination that is too short, a sum
or a difference that is no size, a string that is too long to be made, or a block counter at its
end. Input within the limits is always answered, in every form of sealing, opening, pushing and
pulling, whatever the key, the nonce, the state and the buffer are. A form that makes a string has
to make one of less than `2^63` bytes, as all strings are. The limits of the ciphers with a 32-bit
counter are exact: a payload that begins at its first block ends with the last block there is, and
one byte more stops. Under the forms neither the cipher nor the authenticator reaches outside its
block.
-/
namespace AuthEncryption

/-- An operation gave a value or reported a cause, so it broke no rule. -/
inductive Answered {α : Type} : Except Failure α → Prop
  | ok (a : α) : Answered (.ok a)
  | error (cause : Error) : Answered (.error (.error cause))

namespace Answered

variable {α β : Type}

theorem map {result : Except Failure α} (h : Answered result) (f : α → β) :
    Answered (result.map f) := by
  cases h with
  | ok a => exact ok (f a)
  | error cause => exact error cause

theorem mapError (result : Except Error α) : Answered (result.mapError .error) := by
  cases result with
  | ok a => exact ok a
  | error cause => exact error cause

theorem delivered (result : Except Error Bytes) (value : α) (place : Bytes → Bytes)
    (buffer : Bytes) : Answered (Aead.delivered result value place buffer).1 := by
  cases result with
  | ok m => exact ok value
  | error cause => exact error cause

end Answered

/-! ## Algorithms with associated data -/

namespace Aead

variable (a : Aead) (nonce : Nonce a.nonceSize) (ad : Bytes)

/-- Every form of sealing answers, whatever buffer it is given. A new string has to be one that
there can be, and so has the one that a plaintext grows to. -/
structure AnswersSealing (m : Bytes) : Prop where
  inPlaceDetached : Answered ((a.sealInPlaceDetached nonce ad).runOn m).1
  inPlace : ∀ capacity ≤ capacityLimit,
    Answered ((a.sealInPlaceGrowing nonce capacity ad).runOn m).1
  detached : m.length ≤ capacityLimit → Answered (a.sealDetachedAllocating nonce m ad)
  message : m.length + tagSize ≤ capacityLimit → Answered (a.sealAllocating nonce m ad)
  into : ∀ buffer, Answered ((a.sealInto nonce m ad).runOn buffer).1

/-- Every form of opening that takes a combined string answers, whatever buffer it is given.
The length of a tag is taken off only where there is room for one. -/
structure AnswersOpening (x : Bytes) : Prop where
  message : x.length ≤ capacityLimit → Answered (a.openAllocating nonce x ad)
  inPlace : Answered ((a.openInPlace nonce ad).runOn x).1
  into : ∀ buffer, Answered ((a.openInto nonce x ad).runOn buffer).1
  short : x.length < tagSize → a.openAllocating nonce x ad = .error (a.tooShort x) ∧
    (a.openInPlace nonce ad).runOn x = (.error (a.tooShort x), x) ∧
    ∀ buffer, (a.openInto nonce x ad).runOn buffer = (.error (a.tooShort x), buffer)

/-- Every form of opening that takes the tag apart from the body answers, whatever buffer it is
given. -/
structure AnswersOpeningDetached (body : Bytes) (t : Tag 16) : Prop where
  detached : body.length ≤ capacityLimit → Answered (a.openDetachedAllocating nonce body t ad)
  inPlaceDetached : Answered ((a.openInPlaceDetached nonce t ad).runOn body).1
  detachedInto : ∀ buffer, Answered ((a.openDetachedInto nonce body t ad).runOn buffer).1

theorem answersSealing_of_le {m : Bytes} (h : m.length ≤ a.messageMax) :
    a.AnswersSealing nonce ad m := by
  have hseals := a.sealsTo_of_le nonce ad h
  refine ⟨?_, fun capacity hcapacity => ?_, fun hmade => ?_, fun hmade => ?_, fun buffer => ?_⟩
  · rw [hseals.inPlaceDetached]
    exact .ok _
  · rw [a.sealInPlaceGrowing_of_le nonce ad hcapacity, hseals.inPlace]
    exact .ok _
  · rw [sealDetachedAllocating, Allocating.ofLength_of_le _ hmade, hseals.detached]
    exact .ok _
  · rw [sealAllocating, Allocating.ofSum_of_le _ hmade, hseals.message]
    exact .ok _
  · by_cases hroom : m.length + tagSize ≤ buffer.length
    · rw [hseals.into buffer hroom]
      exact .ok _
    · rw [hseals.intoShort buffer (Nat.lt_of_not_le hroom)]
      exact .error _

theorem answersOpeningDetached_of_le {body : Bytes} (h : body.length ≤ a.messageMax) (t : Tag 16) :
    a.AnswersOpeningDetached nonce ad body t := by
  have hopens := a.opensTo_of_le nonce ad h t
  refine ⟨fun hmade => ?_, ?_, fun buffer => ?_⟩
  · rw [openDetachedAllocating, Allocating.ofLength_of_le _ hmade, hopens.detached]
    exact .mapError _
  · rw [hopens.inPlaceDetached]
    exact .delivered ..
  · by_cases hroom : body.length ≤ buffer.length
    · rw [hopens.detachedInto buffer hroom]
      exact .delivered ..
    · rw [runOn_openDetachedInto, if_pos (Nat.lt_of_not_le hroom)]
      exact .error _

theorem answersOpening_of_le {x : Bytes} (h : x.length ≤ a.messageMax + tagSize) :
    a.AnswersOpening nonce ad x := by
  by_cases hlong : tagSize ≤ x.length
  · obtain ⟨body, t, rfl⟩ := FixedBytes.exists_append (show 16 ≤ x.length from hlong)
    have hbody : body.length ≤ a.messageMax := by
      rw [List.length_append, t.length_toList] at h
      exact Nat.le_of_add_le_add_right h
    have hopens := a.opensTo_of_le nonce ad hbody t
    refine ⟨fun hmade => ?_, ?_, fun buffer => ?_,
      fun hshort => absurd hlong (Nat.not_le_of_lt hshort)⟩
    · rw [openAllocating, Allocating.ofDifference_of_le _ _ hlong hmade, hopens.message]
      exact .mapError _
    · rw [hopens.inPlace]
      exact .delivered ..
    · rw [runOn_openInto_append]
      exact ((a.answersOpeningDetached_of_le nonce ad hbody t).detachedInto buffer).map _
  · have hshort : x.length < tagSize := Nat.lt_of_not_le hlong
    have hmessage : a.openAllocating nonce x ad = .error (a.tooShort x) :=
      Allocating.ofDifference_of_lt _ a.name hshort
    have hinPlace := a.runOn_openInPlace_of_short nonce ad hshort
    have hinto := a.runOn_openInto_of_short nonce ad hshort
    refine ⟨fun _ => ?_, ?_, fun buffer => ?_, fun _ => ⟨hmessage, hinPlace, hinto⟩⟩
    · rw [hmessage]
      exact .error _
    · rw [hinPlace]
      exact .error _
    · rw [hinto]
      exact .error _

end Aead

/-! ## Boxes -/

namespace SecretBox

variable (box : SecretBox) (nonce : Nonce 24)

/-- Every form of sealing answers, whatever buffer it is given. A new string has to be one that
there can be. -/
structure AnswersSealing (m : Bytes) : Prop where
  inPlaceDetached : Answered ((box.sealInPlaceDetached nonce).runOn m).1
  detached : m.length ≤ capacityLimit → Answered (box.sealDetachedAllocating nonce m)
  message : m.length + tagSize ≤ capacityLimit → Answered (box.sealAllocating nonce m)
  into : ∀ buffer, Answered ((box.sealInto nonce m).runOn buffer).1

/-- The cause that is reported of a string without room for a tag. -/
def tooShort (x : Bytes) : Failure := .error (.cipherTooShort box.name tagSize x.length)

/-- Every form of opening that takes a combined string answers, whatever buffer it is given.
The length of a tag is taken off only where there is room for one. -/
structure AnswersOpening (x : Bytes) : Prop where
  message : x.length ≤ capacityLimit → Answered (box.openAllocating nonce x)
  into : ∀ buffer, Answered ((box.openInto nonce x).runOn buffer).1
  short : x.length < tagSize → box.openAllocating nonce x = .error (box.tooShort x) ∧
    ∀ buffer, (box.openInto nonce x).runOn buffer = (.error (box.tooShort x), buffer)

/-- Every form of opening that takes the tag apart from the body answers. -/
structure AnswersOpeningDetached (body : Bytes) (t : Tag 16) : Prop where
  detached : body.length ≤ capacityLimit → Answered (box.openDetachedAllocating nonce body t)
  inPlaceDetached : Answered ((box.openInPlaceDetached nonce t).runOn body).1

theorem answersSealing_of_le {m : Bytes} (h : m.length ≤ messageMax) :
    box.AnswersSealing nonce m := by
  have hseals := box.sealsTo_of_le nonce h
  refine ⟨?_, fun hmade => ?_, fun hmade => ?_, fun buffer => ?_⟩
  · rw [hseals.inPlaceDetached]
    exact .ok _
  · rw [sealDetachedAllocating, Allocating.ofLength_of_le _ hmade, hseals.detached]
    exact .ok _
  · rw [sealAllocating, Allocating.ofSum_of_le _ hmade, hseals.message]
    exact .ok _
  · by_cases hroom : m.length + tagSize ≤ buffer.length
    · rw [hseals.into buffer hroom]
      exact .ok _
    · rw [hseals.intoShort buffer (Nat.lt_of_not_le hroom)]
      exact .error _

theorem answersOpeningDetached (body : Bytes) (t : Tag 16) :
    box.AnswersOpeningDetached nonce body t := by
  have hopens := box.opensTo_opened nonce body t
  refine ⟨fun hmade => ?_, ?_⟩
  · rw [openDetachedAllocating, Allocating.ofLength_of_le _ hmade, hopens.detached]
    exact .mapError _
  · rw [hopens.inPlaceDetached]
    exact .delivered ..

theorem runOn_openInto_of_short {x : Bytes} (h : x.length < tagSize) (buffer : Bytes) :
    (box.openInto nonce x).runOn buffer = (.error (box.tooShort x), buffer) := by
  simp [openInto, Check.ciphertextLength, h, tooShort]

/-- The keystream of a box does not end, so it opens strings of any length. -/
theorem answersOpening (x : Bytes) : box.AnswersOpening nonce x := by
  by_cases hlong : tagSize ≤ x.length
  · obtain ⟨t, body, rfl⟩ := FixedBytes.exists_prepend (show 16 ≤ x.length from hlong)
    have hopens := box.opensTo_opened nonce body t
    refine ⟨fun hmade => ?_, fun buffer => ?_,
      fun hshort => absurd hlong (Nat.not_le_of_lt hshort)⟩
    · rw [openAllocating, Allocating.ofDifference_of_le _ _ hlong hmade, hopens.message]
      exact .mapError _
    · by_cases hroom : body.length ≤ buffer.length
      · rw [hopens.into buffer hroom]
        exact .delivered ..
      · rw [runOn_openInto_prepend, if_pos (Nat.lt_of_not_le hroom)]
        exact .error _
  · have hshort : x.length < tagSize := Nat.lt_of_not_le hlong
    have hmessage : box.openAllocating nonce x = .error (box.tooShort x) :=
      Allocating.ofDifference_of_lt _ box.name hshort
    have hinto := box.runOn_openInto_of_short nonce hshort
    refine ⟨fun _ => ?_, fun buffer => ?_, fun _ => ⟨hmessage, hinto⟩⟩
    · rw [hmessage]
      exact .error _
    · rw [hinto]
      exact .error _

end SecretBox

/-! ## Streams -/

namespace SecretStream

variable (s : SecretStream)

/-- Both forms of pushing answer, whatever buffer they are given. The length that is
authenticated, with the block of the tag, is a size. -/
structure AnswersPush (m ad : Bytes) (t : ChunkTag) : Prop where
  message : ∀ log, Answered ((pushAllocating m ad t).runFrom s log).result
  into : ∀ buffer log, Answered ((pushInto m ad t).runFrom { state := s, buffer } log).result
  authenticated : addSizes 64 m.length = .ok (64 + m.length)

/-- Both forms of pulling answer, whatever buffer they are given. The length of what a chunk
adds is taken off only where there is room for it. -/
structure AnswersPull (c ad : Bytes) : Prop where
  message : ∀ log, Answered ((pullAllocating c ad).runFrom s log).result
  authenticated : addSizes 64 (c.length - overhead) = .ok (64 + (c.length - overhead))
  into : ∀ buffer log, Answered ((pullInto c ad).runFrom { state := s, buffer } log).result
  short : s.finalized = false → c.length < overhead → ∀ buffer log,
    (pullInto c ad).runFrom { state := s, buffer } log =
      { result := .error (.error (.cipherTooShort context overhead c.length))
        state := { state := s, buffer }
        log }

/-- A body with the block of the tag in front of it. -/
theorem addSizes_tagBlock {n : Nat} (h : n ≤ messageMax) : addSizes 64 n = .ok (64 + n) :=
  if_pos (Nat.lt_of_le_of_lt (Nat.add_le_add_left h 64) (by decide))

theorem answersPush_of_le {m : Bytes} (h : m.length ≤ messageMax) (ad : Bytes) (t : ChunkTag) :
    s.AnswersPush m ad t := by
  have hinto : ∀ buffer log,
      Answered ((pushInto m ad t).runFrom { state := s, buffer } log).result := by
    intro buffer log
    obtain ⟨cause, hrun⟩ | ⟨-, hrun⟩ := s.pushInto_cases m ad buffer t log <;> rw [hrun]
    · exact .error cause
    · exact .ok _
  refine ⟨fun log => ?_, hinto, addSizes_tagBlock h⟩
  rw [s.runFrom_pushAllocating ad log h]
  simp only [push, addSizes_overhead h, bind_pure_comp, Session.runFrom_bind,
    Session.runFrom_liftFault, Failure.mapError_ok, Session.runFrom_map, WithBuffer.runFrom_fresh]
  exact ((hinto _ log).map _).map _

theorem answersPull_of_le {c : Bytes} (h : c.length ≤ messageMax + overhead) (ad : Bytes) :
    s.AnswersPull c ad := by
  have hinto : ∀ buffer log,
      Answered ((pullInto c ad).runFrom { state := s, buffer } log).result := by
    intro buffer log
    obtain ⟨cause, log', hrun⟩ | ⟨m, t, -, -, hrun⟩ := s.pullInto_cases h ad buffer log <;>
      rw [hrun]
    · exact .error cause
    · exact .ok _
  refine ⟨fun log => ?_, addSizes_tagBlock (Nat.sub_le_of_le_add h), hinto,
    fun hopen hshort buffer log => ?_⟩
  · rw [s.runFrom_pullAllocating ad log h]
    simp only [pull, bind_pure_comp, Session.runFrom_map, WithBuffer.runFrom_fresh]
    exact ((hinto _ log).map _).map _
  · simp [pullInto, Check.streamState, hopen, splitChunk, Check.ciphertextLength, hshort]

end SecretStream

/-! ## Where the blocks end -/

namespace Cipher

/-- A payload from here on is masked block by block, beginning with block `first`: `limit`
bytes are all that the blocks up to number `2^32 - 1` have, and one byte more stops. -/
structure EndsAfter (payload : Cipher) (first limit : Nat) : Prop where
  nextBlock : payload.nextBlock.toNat = first
  pending : payload.pending = []
  limit_eq : 64 * first + limit = 64 * UInt32.size
  within : ∀ data : Bytes, data.length ≤ limit → ∃ masked after,
    payload.maskBuffer.runOn data = (.ok after, masked) ∧ after.pending.length < blockSize ∧
      after.nextBlock.toNat = first + (data.length + 63) / 64 ∧
      after.nextBlock.toNat ≤ UInt32.size
  beyond : ∀ data : Bytes, limit < data.length →
    (payload.maskBuffer.runOn data).1 = .error (.fault .counterExhausted)

theorem endsAfter_positioned {c : Cipher} (hnarrow : c.narrow = true) {k limit : Nat}
    (hlimit : 64 * k + limit = 64 * UInt32.size) :
    (c.positioned 0 (64 * k)).EndsAfter k limit := by
  have hfirst : c.narrow = true → (0 : UInt64).toNat ≤ UInt32.size := fun _ => by decide
  have hwithin : ∀ n, c.Within 0 (64 * k + n) ↔ n ≤ limit := by
    intro n
    rw [Within, forall_prop_of_true hnarrow, UInt64.toNat_zero, Nat.sub_zero, ← hlimit]
    exact Nat.add_le_add_iff_left
  have hstart : c.Within 0 (64 * k) := (hwithin 0).mpr (Nat.zero_le limit)
  refine ⟨?_, ?_, hlimit, fun data hdata => ?_, fun data hdata => ?_⟩
  · obtain ⟨hblock, -⟩ := toNat_nextBlock_positioned hnarrow (hfirst hnarrow) hstart
    rw [hblock, UInt64.toNat_zero]
    omega
  · rw [positioned_block]
  · have hall := (hwithin data.length).mpr hdata
    obtain ⟨hblock, hlast⟩ := toNat_nextBlock_positioned hnarrow (hfirst hnarrow) hall
    rw [UInt64.toNat_zero] at hblock hlast
    refine ⟨_, _, runOn_maskBuffer hfirst hall, ?_, ?_, ?_⟩
    · rw [length_pending_positioned, blockSize]
      omega
    · rw [hblock]
      omega
    · rw [hblock]
      exact hlast
  · exact runOn_maskBuffer_beyond hfirst hstart fun hall =>
      Nat.not_le_of_lt hdata ((hwithin data.length).mp hall)

end Cipher

namespace Aead

variable (a : Aead) (nonce : Nonce a.nonceSize) {c : Cipher}
  (hsuite : a.suite nonce = .keystream .ietf c)
include hsuite

/-- The keystream of an algorithm with the narrow layout begins at block zero, and its payload
takes all blocks but that one. -/
theorem narrow_of_suite : c.narrow = true ∧ c.positioned 0 0 = c ∧
    64 * 1 + a.messageMax = 64 * UInt32.size := by
  have hblocks : 64 * 1 + 64 * (UInt32.size - 1) = 64 * UInt32.size := by decide
  cases a with
  | chacha20Poly1305 key => cases hsuite
  | chacha20Poly1305Ietf key =>
    cases hsuite
    exact ⟨rfl, Cipher.positioned_zero rfl rfl, hblocks⟩
  | xchacha20Poly1305Ietf key =>
    cases hsuite
    exact ⟨rfl, Cipher.positioned_zero rfl rfl, hblocks⟩
  | aes256Gcm key => cases hsuite

/-- Behind the one-time key the payload begins with block one. -/
theorem endsAfter_suite : ∃ mac payload, Composition.ietf.authenticator c = .ok (mac, payload) ∧
    payload.EndsAfter 1 a.messageMax := by
  obtain ⟨hnarrow, hstart, hlimit⟩ := a.narrow_of_suite nonce hsuite
  have hmac : Composition.ietf.authenticator (c.positioned 0 0) =
      .ok (Composition.oneTimeMac c 0 0, c.positioned 0 (64 * 1)) :=
    Composition.ietf.authenticator_positioned (fun _ => by decide) fun _ => by decide
  rw [hstart] at hmac
  exact ⟨_, _, hmac, Cipher.endsAfter_positioned hnarrow hlimit⟩

/-- A body beyond the limit stops where its tag is right. -/
theorem openInPlaceDetached_of_gt (ad : Bytes) {body : Bytes} (h : a.messageMax < body.length) :
    ∃ t, ((a.openInPlaceDetached nonce t ad).runOn body).1 = .error (.fault .counterExhausted) := by
  obtain ⟨hnarrow, hstart, hlimit⟩ := a.narrow_of_suite nonce hsuite
  have hbeyond : ((c.positioned 0 (0 + Composition.ietf.payloadOffset)).maskBuffer.runOn body).1 =
      .error (.fault .counterExhausted) :=
    (Cipher.endsAfter_positioned hnarrow hlimit).beyond body h
  have hfirst : c.narrow = true → (0 : UInt64).toNat ≤ UInt32.size := fun _ => by decide
  have hkey : c.Within 0 (0 + Composition.ietf.payloadOffset) := fun _ => by decide
  let t := Composition.ietf.tag (Composition.oneTimeMac c 0 0) ad body
  have hopen := Composition.ietf.runOn_openInPlace_checked hfirst hkey t.toList ad a.name body
  rw [hstart, if_pos rfl] at hopen
  refine ⟨t, ?_⟩
  rw [openInPlaceDetached, hsuite]
  exact (congrArg Prod.fst hopen).trans (congrArg (Except.map fun _ => ()) hbeyond)

end Aead

namespace SecretStream

/-- Behind the one-time key and the block of the tag the payload begins with block two. -/
theorem endsAfter_opened (s : SecretStream) : s.opened.payload.EndsAfter 2 messageMax :=
  Cipher.endsAfter_positioned (c := s.cipher) (k := 2) rfl (by decide)

end SecretStream

/-! ## Inside the blocks -/

/-- Nothing that the forms do with a block reaches outside it, and no number outgrows its word. -/
structure InsideBlocks : Prop where
  /-- Padding is part of a block of zeros. -/
  padding : ∀ n, Bytes.pad16 n < 16
  /-- A piece of a string that is masked or hashed by blocks fits one. -/
  piece : ∀ data piece : Bytes, piece ∈ Bytes.pieces 16 data → piece.length ≤ 16
  /-- The one-time key is the front of what is drawn for it, which fits a block. -/
  oneTimeKey : ∀ k : Composition, 32 ≤ k.payloadOffset ∧ k.payloadOffset ≤ Cipher.blockSize
  /-- An authenticator takes every block that is full. -/
  waiting : ∀ (mac : Poly1305) (data : Bytes), (mac.update data).waiting.length < 16
  /-- Whatever was done with a cipher, it masks a string without reaching outside its block or the
  string, and gives what the cipher of the forms gives; only its blocks can run out. -/
  keystream : ∀ (c : Cipher), c.pending = [] → ∀ (ops : List Cipher.Operation) (data : Bytes),
    ((ops.foldl Cipher.Buffered.after (.ofCipher c)).apply data).1 =
      let masked := (ops.foldl (fun c op => op.after c) c).mask data
      if masked.complete then .ok masked.data else .error .counterExhausted
  /-- However a message is cut, an authenticator takes it without reaching outside its block or
  the message, and its last block is made. -/
  authenticator : ∀ (key : FixedBytes 32) (parts : List Bytes),
    parts.foldlM Poly1305.Buffered.updateWithin (.new key) =
      .ok (parts.foldl Poly1305.Buffered.update (.new key)) ∧
    ∃ block, (parts.foldl Poly1305.Buffered.update (.new key)).lastBlockWithin = .ok block ∧
      block.length = 16
  /-- No sum and no product on the way to a tag is too large for its word. -/
  arithmetic : ∀ (key : FixedBytes 32) (parts : List Bytes) (out : FixedBytes 16),
    (parts.foldlM Poly1305.Buffered.updateChecked (.new key)).bind
        (Poly1305.Buffered.finishChecked · out) =
      some ((parts.foldl Poly1305.Buffered.update (.new key)).finish out)
  /-- Nor is a sum in the step of a counter. -/
  counter : ∀ counter : Bytes, Bytes.incrementChecked counter = some (Bytes.incrementLE counter)

theorem insideBlocks : InsideBlocks where
  padding := Bytes.pad16_lt
  piece _ _ := Bytes.length_of_mem_pieces (by decide)
  oneTimeKey k := by cases k <;> decide
  waiting := Poly1305.length_waiting_update
  keystream _ hpending ops data := Cipher.Buffered.apply_foldl_after hpending ops data
  authenticator key parts := by
    obtain ⟨hwaiting, -⟩ :=
      Poly1305.Buffered.view_foldl_update (Poly1305.Buffered.leftover_new key) parts
    exact ⟨Poly1305.Buffered.foldlM_updateWithin (Poly1305.Buffered.leftover_new key) parts,
      _, Poly1305.Buffered.lastBlockWithin_eq hwaiting, FixedBytes.length_toList _⟩
  arithmetic key parts out := by
    obtain ⟨hupdates, hready⟩ := (Poly1305.Buffered.ready_new key).updates parts
    rw [hupdates, Option.bind_some, hready.finish]
  counter := Bytes.incrementChecked_eq

/-! ## No rule is broken -/

/-- Input within the limits is answered by every form, whatever the key, the nonce, the state,
the associated data, the tag and the buffer are. A plaintext may have the largest message of its
type; a chunk or a ciphertext may also have what is added to it, and where the tag comes apart
from the body, both together are the ciphertext. A string that a form makes is one that there can
be; for a longer one there is `Allocating.ofSum_of_gt`. The algorithms with the narrow layout begin
their payload with block one, and a stream with block two. The limits leave them all blocks up
to number `2^32 - 1` and no byte more: what is longer stops, in an opening as soon as its tag is
right. What the forms do with single blocks stays inside them. -/
theorem admissible_input_breaks_no_rule :
    (∀ (a : Aead) (nonce : Nonce a.nonceSize) (ad : Bytes),
      (∀ m : Bytes, m.length ≤ a.messageMax → a.AnswersSealing nonce ad m) ∧
      (∀ x : Bytes, x.length ≤ a.messageMax + Aead.tagSize → a.AnswersOpening nonce ad x) ∧
      ∀ (body : Bytes) (t : Tag 16), body.length + Aead.tagSize ≤ a.messageMax + Aead.tagSize →
        a.AnswersOpeningDetached nonce ad body t) ∧
    (∀ (box : SecretBox) (nonce : Nonce 24),
      (∀ m : Bytes, m.length ≤ SecretBox.messageMax → box.AnswersSealing nonce m) ∧
      (∀ x, box.AnswersOpening nonce x) ∧ ∀ body t, box.AnswersOpeningDetached nonce body t) ∧
    (∀ (s : SecretStream) (ad : Bytes),
      (∀ (m : Bytes) (t : ChunkTag), m.length ≤ SecretStream.messageMax → s.AnswersPush m ad t) ∧
      ∀ c : Bytes, c.length ≤ SecretStream.messageMax + SecretStream.overhead →
        s.AnswersPull c ad) ∧
    (∀ (a : Aead) (nonce : Nonce a.nonceSize) (c : Cipher),
      a.suite nonce = .keystream .ietf c →
      (∃ mac payload, Composition.ietf.authenticator c = .ok (mac, payload) ∧
        payload.EndsAfter 1 a.messageMax) ∧
      ∀ ad body : Bytes, a.messageMax < body.length → ∃ t,
        ((a.openInPlaceDetached nonce t ad).runOn body).1 = .error (.fault .counterExhausted)) ∧
    (∀ s : SecretStream, ∃ o, s.opening = .ok o ∧
      o.payload.EndsAfter 2 SecretStream.messageMax) ∧
    InsideBlocks := by
  refine ⟨fun a nonce ad => ⟨fun m hm => ?_, fun x hx => ?_, fun body t hbody => ?_⟩,
    fun box nonce => ⟨fun m hm => ?_, fun x => ?_, fun body t => ?_⟩,
    fun s ad => ⟨fun m t hm => ?_, fun c hc => ?_⟩,
    fun a nonce c hsuite => ⟨?_, fun ad body hbody => ?_⟩, fun s => ?_, insideBlocks⟩
  · exact a.answersSealing_of_le nonce ad hm
  · exact a.answersOpening_of_le nonce ad hx
  · exact a.answersOpeningDetached_of_le nonce ad (Nat.le_of_add_le_add_right hbody) t
  · exact box.answersSealing_of_le nonce hm
  · exact box.answersOpening nonce x
  · exact box.answersOpeningDetached nonce body t
  · exact s.answersPush_of_le hm ad t
  · exact s.answersPull_of_le hc ad
  · exact a.endsAfter_suite nonce hsuite
  · exact a.openInPlaceDetached_of_gt nonce hsuite ad hbody
  · exact ⟨s.opened, s.opening_eq, s.endsAfter_opened⟩

/-- Short strings are answered, and a body of one byte more than the largest message stops. -/
theorem admissible_input_breaks_no_rule_of_short_strings :
    let a := Aead.chacha20Poly1305Ietf (.zero 32)
    let nonce : Nonce a.nonceSize := .zero 12
    let box := SecretBox.ofSharedSecret (.zero 32)
    let s := SecretStream.ofHeader (.zero 32) (.zero 24)
    a.AnswersSealing nonce [5] [1, 2, 3] ∧ Answered (a.sealAllocating nonce [1, 2, 3] [5]) ∧
      a.AnswersOpening nonce [5] [] ∧ Answered (a.openAllocating nonce (Bytes.zeros 20) [5]) ∧
      a.AnswersOpeningDetached nonce [5] [1] (.zero 16) ∧ box.AnswersSealing (.zero 24) [1] ∧
      s.AnswersPush [1] [] .final ∧ s.AnswersPull (Bytes.zeros 17) [] ∧
      ∃ t, ((a.openInPlaceDetached nonce t [5]).runOn (Bytes.zeros (a.messageMax + 1))).1 =
        .error (.fault .counterExhausted) := by
  intro a nonce box s
  obtain ⟨haead, hbox, hstream, hends, -⟩ := admissible_input_breaks_no_rule
  obtain ⟨hseals, hopens, hdetached⟩ := haead a nonce [5]
  obtain ⟨hpush, hpull⟩ := hstream s []
  refine ⟨hseals _ (by decide), (hseals [1, 2, 3] (by decide)).message (by decide),
    hopens _ (by decide), (hopens (Bytes.zeros 20) (by decide)).message (by decide),
    hdetached _ _ (by decide), (hbox box (.zero 24)).1 _ (by decide), hpush _ _ (by decide),
    hpull _ (by decide), (hends a nonce _ rfl).2 [5] _ ?_⟩
  rw [Bytes.length_zeros]
  exact Nat.lt_succ_self _

end AuthEncryption
