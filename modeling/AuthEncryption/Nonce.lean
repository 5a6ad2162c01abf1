import AuthEncryption.Check
import AuthEncryption.Random

/-!
# Nonces and tags

Both are public strings of a fixed length. A nonce shows its bytes as numbers,
a tag as hexadecimal digits.
-/
namespace AuthEncryption

/-- A number used once, of `n` bytes. -/
abbrev Nonce (n : Nat) := FixedBytes n

namespace Nonce

/-- The nonce with these bytes, if there are `n`. -/
def ofBytes (n : Nat) (bs : Bytes) : Except Error (Nonce n) := Check.fixed "Nonce" n bs

def random (n : Nat) : Random (Nonce n) := Random.fixed n

def text {n : Nat} (nonce : Nonce n) : String := s!"Nonce<{n}>({Bytes.listing nonce.toList})"

end Nonce

/-- An authentication tag of `n` bytes. -/
abbrev Tag (n : Nat) := FixedBytes n

namespace Tag

/-- The tag with these bytes, if there are `n`. -/
def ofBytes (n : Nat) (bs : Bytes) : Except Error (Tag n) := Check.fixed "Tag" n bs

def text {n : Nat} (tag : Tag n) : String := s!"Tag<{n}>({Bytes.hex tag.toList})"

end Tag

end AuthEncryption
