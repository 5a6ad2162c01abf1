import AuthEncryption.Composition
import AuthEncryption.Secret
import AuthEncryption.Session

/-!
# The state of a stream

Both ends hold a key, a counter and an inner nonce. Counter and inner nonce
together are the nonce of the next chunk. After a chunk its authenticator goes
into the inner nonce and the counter steps, so a chunk is accepted only after
exactly the chunks before it; a rekey replaces key and inner nonce.
-/
namespace AuthEncryption

@[ext] structure SecretStream where
  key : FixedBytes 32
  /-- The number of the next chunk since the last rekey, least significant byte first. -/
  counter : FixedBytes 4
  /-- The part of the nonce that every chunk changes. -/
  innerNonce : FixedBytes 8
  finalized : Bool
deriving DecidableEq

namespace SecretStream

/-- The bytes a chunk adds to its plaintext: one of the tag, sixteen of the authenticator. -/
def overhead : Nat := 17

def headerSize : Nat := 24

def keySize : Nat := 32

/-- The longest plaintext of a chunk: two blocks of the counter serve the
authenticator and the tag. -/
def messageMax : Nat := 64 * (UInt32.size - 2)

/-- The name under which a stream reports its causes. -/
def context : String := "SecretStreamXChaCha20Poly1305"

/-- The counter after a start or a rekey. -/
def firstCounter : FixedBytes 4 := ⟨[1, 0, 0, 0], rfl⟩

def ofHeader (key : FixedBytes 32) (header : Header) : SecretStream :=
  { key := Family.chacha.subkey key (header.front 16)
    counter := firstCounter
    innerNonce := header.back 8
    finalized := false }

def keygen : Random (Secret 32) := Secret.random 32

/-- The sender's end of a stream under a given header, which must never be used
again with the same key. -/
def initPush (key : FixedBytes 32) (header : Header) : Logged SecretStream := do
  emit (.initialized .push)
  return ofHeader key header

/-- The sender's end of a stream under a random header, and that header. -/
def initPushRandom (key : FixedBytes 32) (random : RandomSource) :
    ExceptT Error Logged (SecretStream × Header) := do
  let header ← liftExcept (Header.random.runOn random).1
  return (← initPush key header, header)

def initPull (key : FixedBytes 32) (header : Header) : Logged SecretStream := do
  emit (.initialized .pull)
  return ofHeader key header

/-- The header at the front of a string that may be longer. -/
def headerOfPrefix (bs : Bytes) : Except Error Header :=
  if headerSize ≤ bs.length then .ok (.ofPadded 24 bs)
  else .error (.bufferTooShort "secretstream header" headerSize bs.length)

def nonce (s : SecretStream) : Nonce 12 := s.counter.append s.innerNonce

def cipher (s : SecretStream) : Cipher := .ietf s.key s.nonce

/-- The state with its key and inner nonce masked by the keystream they make. -/
def rekeyed (s : SecretStream) : Except Fault SecretStream := do
  let (keystream, _) ← s.cipher.drawFixed 40
  return { s with
    key := s.key.xor (keystream.front 32)
    innerNonce := s.innerNonce.xor (keystream.back 8)
    counter := firstCounter }

/-- Replaces key and inner nonce. Both ends must do so at the same point. -/
def rekey : Session SecretStream Unit := do
  set (← (← get).rekeyed)
  emit .rekeyed

/-- The state without its secrets: every field is zero and the stream not finalized. -/
def wipe (_s : SecretStream) : SecretStream :=
  { key := FixedBytes.zero 32
    counter := FixedBytes.zero 4
    innerNonce := FixedBytes.zero 8
    finalized := false }

/-- The state with the authenticator of a chunk in its nonce and the next counter. -/
def stepped (s : SecretStream) (mac : Tag 16) : SecretStream :=
  { s with
    innerNonce := s.innerNonce.xor (mac.front 8)
    counter := s.counter.mapList Bytes.incrementLE Bytes.length_incrementLE }

/-- Moves on to the next chunk. The stream is rekeyed if the tag says so or the
counter has come round to zero. -/
def advance (mac : Tag 16) (tag : ChunkTag) : Session SecretStream Unit := do
  modify (·.stepped mac)
  if tag.shouldRekey || Bytes.isZero (← get).counter.toList then
    rekey
  if tag.isFinal then
    modify ({ · with finalized := true })
    emit .finalChunk

/-- What a state shows of itself: whether its stream has ended. -/
def text (s : SecretStream) : String :=
  "SecretStreamXChaCha20Poly1305 \x7b finalized: " ++ toString s.finalized ++ ", .. \x7d"

end SecretStream

end AuthEncryption
