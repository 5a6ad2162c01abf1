import AuthEncryption.Failure.Error
import AuthEncryption.Bytes.Fixed

/-!
# Random sources

A source holds the bytes it can still deliver and says how many it has given
out. Everything is derived from `fill`: keys, fixed-size secrets, words and
bounded integers without bias. A source that cannot deliver reports a cause and
gives out nothing.
-/
namespace AuthEncryption

/-- A source of random bytes that may run dry. -/
structure RandomSource where
  remaining : Bytes
  used : Nat
  /-- Who reports that the source has run dry. -/
  context : String

abbrev Random (α : Type) := ExceptT Error (StateM RandomSource) α

namespace RandomSource

/-- A source over `script` whose failures are reported by `context`. -/
def ofScript (script : Bytes) (context : String) : RandomSource := ⟨script, 0, context⟩

/-- The source after `n` more bytes were given out. -/
def advance (source : RandomSource) (n : Nat) : RandomSource :=
  { source with remaining := source.remaining.drop n, used := source.used + n }

/-- The next `n` bytes, or the cause if there are fewer. Of a source that holds
more, only as many are looked at. -/
def draw (source : RandomSource) (n : Nat) : Except Error Bytes × RandomSource :=
  let next := source.remaining.take n
  if next.length = n then (.ok next, source.advance n)
  else (.error (.randomGeneration source.context), source)

/-- The first word of `width` bytes that is at least `floor`, reduced modulo
`upper`. Words below `floor` are given out and thrown away. -/
def drawBelow (source : RandomSource) (width floor upper : Nat) (positive : 0 < width) :
    Except Error Nat × RandomSource :=
  let next := source.remaining.take width
  if _h : next.length = width then
    let word := Bytes.toNatLE next
    if floor ≤ word then (.ok (word % upper), source.advance width)
    else (source.advance width).drawBelow width floor upper positive
  else
    (.error (.randomGeneration source.context), source)
termination_by source.remaining.length
decreasing_by
  have hl : min width source.remaining.length = width := by
    simpa only [next, List.length_take] using _h
  simp only [advance, List.length_drop]
  omega

end RandomSource

namespace Random

/-- The result of a computation and the source it leaves. -/
def runOn {α : Type} (draw : Random α) (source : RandomSource) : Except Error α × RandomSource :=
  draw.run.run source

def fill (n : Nat) : Random Bytes := fun source => source.draw n

theorem length_of_draw {source source' : RandomSource} {n : Nat} {bs : Bytes}
    (h : source.draw n = (.ok bs, source')) : bs.length = n := by
  simp only [RandomSource.draw] at h
  split at h
  · cases h; assumption
  · cases h

/-- A random string of `n` bytes: a key, a nonce or a header. -/
def fixed (n : Nat) : Random (FixedBytes n) := fun source =>
  match h : source.draw n with
  | (.ok bs, source') => (.ok ⟨bs, length_of_draw h⟩, source')
  | (.error cause, source') => (.error cause, source')

def word32 : Random UInt32 := do return UInt32.ofNat (Bytes.toNatLE (← fill 4))

def word64 : Random UInt64 := do return UInt64.ofNat (Bytes.toNatLE (← fill 8))

/-- The number of words of `width` bytes. -/
def wordCount (width : Nat) : Nat := Nat.pow 256 width

/-- The words below this one would make small remainders modulo `upper` too
frequent: it is the remainder of the number of words of `width` bytes. -/
def rejectionFloor (width upper : Nat) : Nat := (wordCount width - upper) % upper

/-- A uniformly distributed number below `upper`, from words of `width` bytes.
Nothing is drawn where there is no choice. -/
def below (width upper : Nat) (positive : 0 < width) : Random Nat := fun source =>
  if upper < 2 then (.ok 0, source)
  else source.drawBelow width (rejectionFloor width upper) upper positive

/-- A uniformly distributed number below a 32-bit bound. -/
def below32 (upper : UInt32) : Random Nat := below 4 upper.toNat (by decide)

def below64 (upper : UInt64) : Random Nat := below 8 upper.toNat (by decide)

end Random

end AuthEncryption
