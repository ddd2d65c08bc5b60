/-!
# Words of the digest

The digest works on little-endian words of 32 and 64 bits, on full 128 bit products, and on a fixed
table of 192 bytes that is mixed into the input. All word arithmetic wraps around.
-/

namespace Presynth.Digest

/-! ### Reading words -/

/-- The byte at a position; zero outside. -/
def byteAt (data : ByteArray) (i : Nat) : UInt8 := if h : i < data.size then data[i] else 0

/-- The little-endian word of four bytes at a position, in 64 bits. -/
def word32 (data : ByteArray) (i : Nat) : UInt64 :=
  (byteAt data i).toUInt64 ||| ((byteAt data (i + 1)).toUInt64 <<< 8) |||
    ((byteAt data (i + 2)).toUInt64 <<< 16) ||| ((byteAt data (i + 3)).toUInt64 <<< 24)

/-- The little-endian word of eight bytes at a position. -/
def word64 (data : ByteArray) (i : Nat) : UInt64 :=
  word32 data i ||| (word32 data (i + 4) <<< 32)

/-- The eight bytes of a word, the low one first. -/
def bytesOfWord (w : UInt64) : List UInt8 :=
  [w.toUInt8, (w >>> 8).toUInt8, (w >>> 16).toUInt8, (w >>> 24).toUInt8, (w >>> 32).toUInt8,
    (w >>> 40).toUInt8, (w >>> 48).toUInt8, (w >>> 56).toUInt8]

/-! ### Constants -/

/-- The table that is mixed into the input. -/
def secret : ByteArray :=
  ⟨#[
    0xb8, 0xfe, 0x6c, 0x39, 0x23, 0xa4, 0x4b, 0xbe, 0x7c, 0x01, 0x81, 0x2c, 0xf7, 0x21, 0xad, 0x1c,
    0xde, 0xd4, 0x6d, 0xe9, 0x83, 0x90, 0x97, 0xdb, 0x72, 0x40, 0xa4, 0xa4, 0xb7, 0xb3, 0x67, 0x1f,
    0xcb, 0x79, 0xe6, 0x4e, 0xcc, 0xc0, 0xe5, 0x78, 0x82, 0x5a, 0xd0, 0x7d, 0xcc, 0xff, 0x72, 0x21,
    0xb8, 0x08, 0x46, 0x74, 0xf7, 0x43, 0x24, 0x8e, 0xe0, 0x35, 0x90, 0xe6, 0x81, 0x3a, 0x26, 0x4c,
    0x3c, 0x28, 0x52, 0xbb, 0x91, 0xc3, 0x00, 0xcb, 0x88, 0xd0, 0x65, 0x8b, 0x1b, 0x53, 0x2e, 0xa3,
    0x71, 0x64, 0x48, 0x97, 0xa2, 0x0d, 0xf9, 0x4e, 0x38, 0x19, 0xef, 0x46, 0xa9, 0xde, 0xac, 0xd8,
    0xa8, 0xfa, 0x76, 0x3f, 0xe3, 0x9c, 0x34, 0x3f, 0xf9, 0xdc, 0xbb, 0xc7, 0xc7, 0x0b, 0x4f, 0x1d,
    0x8a, 0x51, 0xe0, 0x4b, 0xcd, 0xb4, 0x59, 0x31, 0xc8, 0x9f, 0x7e, 0xc9, 0xd9, 0x78, 0x73, 0x64,
    0xea, 0xc5, 0xac, 0x83, 0x34, 0xd3, 0xeb, 0xc3, 0xc5, 0x81, 0xa0, 0xff, 0xfa, 0x13, 0x63, 0xeb,
    0x17, 0x0d, 0xdd, 0x51, 0xb7, 0xf0, 0xda, 0x49, 0xd3, 0x16, 0x55, 0x26, 0x29, 0xd4, 0x68, 0x9e,
    0x2b, 0x16, 0xbe, 0x58, 0x7d, 0x47, 0xa1, 0xfc, 0x8f, 0xf8, 0xb8, 0xd1, 0x7a, 0xd0, 0x31, 0xce,
    0x45, 0xcb, 0x3a, 0x8f, 0x95, 0x16, 0x04, 0x28, 0xaf, 0xd7, 0xfb, 0xca, 0xbb, 0x4b, 0x40, 0x7e]⟩

/-- Multipliers of 32 bits. -/
def prime32A : UInt64 := 0x9e3779b1
@[inherit_doc prime32A] def prime32B : UInt64 := 0x85ebca77
@[inherit_doc prime32A] def prime32C : UInt64 := 0xc2b2ae3d

/-- Multipliers of 64 bits. -/
def prime64A : UInt64 := 0x9e3779b185ebca87
@[inherit_doc prime64A] def prime64B : UInt64 := 0xc2b2ae3d27d4eb4f
@[inherit_doc prime64A] def prime64C : UInt64 := 0x165667b19e3779f9
@[inherit_doc prime64A] def prime64D : UInt64 := 0x85ebca77c2b2ae63
@[inherit_doc prime64A] def prime64E : UInt64 := 0x27d4eb2f165667c5

/-! ### Mixing -/

/-- Xors a word with its own upper part. -/
def fold (shift : UInt64) (w : UInt64) : UInt64 := w ^^^ (w >>> shift)

/-- Spreads the bits of a word after products of 128 bits. -/
def avalanche (w : UInt64) : UInt64 := fold 32 (fold 37 w * 0x165667919e3779f9)

/-- Spreads the bits of a word of a very short input. -/
def avalancheShort (w : UInt64) : UInt64 :=
  fold 32 (fold 29 (fold 33 w * prime64B) * prime64C)

/-- The low and the high word of a product. -/
def product (a b : UInt64) : UInt64 × UInt64 :=
  let p := a.toNat * b.toNat
  (UInt64.ofNat p, UInt64.ofNat (p >>> 64))

/-- The two words of a product, xored. -/
def foldedProduct (a b : UInt64) : UInt64 :=
  let p := product a b
  p.1 ^^^ p.2

/-- The product of the two halves of a word. -/
def productOfHalves (w : UInt64) : UInt64 :=
  let high : UInt64 := w >>> 32
  (w &&& 0xffffffff) * high

/-- A word with its bytes in the opposite order. -/
def swapBytes (w : UInt64) : UInt64 :=
  (bytesOfWord w).foldl (fun acc b => (acc <<< 8) ||| b.toUInt64) 0

end Presynth.Digest
