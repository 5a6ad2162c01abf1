/-!
# The field of 256 elements

A byte is a polynomial over two elements, its highest bit the coefficient of the
seventh power. Products are reduced by `x^8 + x^4 + x^3 + x + 1`. The substitution
box is the inverse in this field followed by an affine map; nothing is looked up
in a table.
-/
namespace AuthEncryption.Aes

/-- The product with `x`. -/
def double (b : UInt8) : UInt8 := (b <<< 1) ^^^ (-(b >>> 7) &&& 0x1b)

/-- Adds to `sum` the products of `a` with the lowest bits of `b`. -/
def multiplyBits : (bits : Nat) → (a b sum : UInt8) → UInt8
  | 0, _, _, sum => sum
  | bits + 1, a, b, sum => multiplyBits bits (double a) (b >>> 1) (sum ^^^ (a &&& -(b &&& 1)))

def multiply (a b : UInt8) : UInt8 := multiplyBits 8 a b 0

/-- The inverse of an element as its power of 254; zero stays zero. -/
def inverse (x : UInt8) : UInt8 :=
  let x2 := multiply x x
  let x4 := multiply x2 x2
  let x8 := multiply x4 x4
  let x16 := multiply x8 x8
  let x32 := multiply x16 x16
  let x64 := multiply x32 x32
  let x128 := multiply x64 x64
  let y := multiply x128 x64
  let y := multiply y x32
  let y := multiply y x16
  let y := multiply y x8
  let y := multiply y x4
  multiply y x2

/-- A byte rotated towards its high end. -/
def rotateByte (b amount : UInt8) : UInt8 := (b <<< amount) ||| (b >>> (8 - amount))

def substitute (b : UInt8) : UInt8 :=
  let i := inverse b
  i ^^^ rotateByte i 1 ^^^ rotateByte i 2 ^^^ rotateByte i 3 ^^^ rotateByte i 4 ^^^ 0x63

end AuthEncryption.Aes
