import Presynth.Digest.Words
import Presynth.Text.Hex
/-!
# Digests of byte strings

The 128 bit XXH3 digest with seed zero. Short inputs up to 16 bytes have rules of their own; inputs
up to 240 bytes are mixed in pairs of 16 byte blocks from both ends; longer inputs run through eight
lanes in stripes of 64 bytes, whose lanes are scrambled after every 1024 bytes.
-/

namespace Presynth

/-- The sixteen bytes of a digest, the low word first. -/
structure Digest where
  bytes : Vector UInt8 16
  deriving DecidableEq, Repr

namespace Digest

/-- A digest of a low and a high word. -/
def ofWords (low high : UInt64) : Digest :=
  let bytes := bytesOfWord low ++ bytesOfWord high
  ⟨Vector.ofFn fun i => bytes.getD i 0⟩

/-! ### Up to sixteen bytes -/

/-- The digest of nothing. -/
def ofNone : Digest :=
  ofWords (avalancheShort (word64 secret 64 ^^^ word64 secret 72))
    (avalancheShort (word64 secret 80 ^^^ word64 secret 88))

/-- One to three bytes: the first, the middle and the last, with the length. -/
def ofTiny (data : ByteArray) : Digest :=
  let n := data.size
  let first := (byteAt data 0).toUInt64
  let middle := (byteAt data (n / 2)).toUInt64
  let last := (byteAt data (n - 1)).toUInt64
  let low := (first <<< 16) ||| (middle <<< 24) ||| last ||| (UInt64.ofNat n <<< 8)
  let swapped := swapBytes low >>> 32
  let high := ((swapped <<< 13) ||| (swapped >>> 19)) &&& 0xffffffff
  ofWords (avalancheShort (low ^^^ word32 secret 0 ^^^ word32 secret 4))
    (avalancheShort (high ^^^ word32 secret 8 ^^^ word32 secret 12))

/-- Four to eight bytes: the words at both ends. -/
def ofFourToEight (data : ByteArray) : Digest :=
  let n := data.size
  let both := word32 data 0 + (word32 data (n - 4) <<< 32)
  let keyed := both ^^^ (word64 secret 16 ^^^ word64 secret 24)
  let (low, high) := product keyed (prime64A + (UInt64.ofNat n <<< 2))
  let high := high + (low <<< 1)
  let low := low ^^^ (high >>> 3)
  let low := fold 28 (fold 35 low * 0x9fb21c651e98df25)
  ofWords low (avalanche high)

/-- Nine to sixteen bytes: the long words at both ends. -/
def ofNineToSixteen (data : ByteArray) : Digest :=
  let n := data.size
  let first := word64 data 0
  let last := word64 data (n - 8)
  let (low, high) := product (first ^^^ last ^^^ (word64 secret 32 ^^^ word64 secret 40)) prime64A
  let low := low + (UInt64.ofNat (n - 1) <<< 54)
  let last := last ^^^ (word64 secret 48 ^^^ word64 secret 56)
  let high := high + last + (last &&& 0xffffffff) * (prime32B - 1)
  let low := low ^^^ swapBytes high
  let (low', high') := product low prime64B
  ofWords (avalanche low') (avalanche (high' + high * prime64B))

/-! ### Up to 240 bytes -/

/-- Mixes sixteen bytes with sixteen bytes of the table. -/
def mixBlock (data : ByteArray) (i key : Nat) : UInt64 :=
  foldedProduct (word64 data i ^^^ word64 secret key)
    (word64 data (i + 8) ^^^ word64 secret (key + 8))

/-- Mixes a pair of blocks into a pair of sums. -/
def mixPair (data : ByteArray) (sums : UInt64 × UInt64) (i j key : Nat) : UInt64 × UInt64 :=
  ((sums.1 + mixBlock data i key) ^^^ (word64 data j + word64 data (j + 8)),
    (sums.2 + mixBlock data j (key + 16)) ^^^ (word64 data i + word64 data (i + 8)))

/-- The digest of a pair of sums. -/
def ofSums (n : Nat) (sums : UInt64 × UInt64) : Digest :=
  ofWords (avalanche (sums.1 + sums.2))
    (0 - avalanche (sums.1 * prime64A + sums.2 * prime64D + UInt64.ofNat n * prime64B))

/-- 17 to 128 bytes: pairs of blocks from both ends, the inner ones first. -/
def ofMedium (data : ByteArray) : Digest :=
  let n := data.size
  let sums := (List.range ((n - 1) / 32 + 1)).reverse.foldl
    (fun sums k => mixPair data sums (16 * k) (n - 16 * (k + 1)) (32 * k))
    (UInt64.ofNat n * prime64A, 0)
  ofSums n sums

/-- 129 to 240 bytes: adjacent pairs of blocks, the table shifted after the first four, and the last
pair in opposite order. -/
def ofLarge (data : ByteArray) : Digest :=
  let n := data.size
  let sums := (List.range 4).foldl (fun sums k => mixPair data sums (32 * k) (32 * k + 16) (32 * k))
    (UInt64.ofNat n * prime64A, 0)
  let sums := (avalanche sums.1, avalanche sums.2)
  let sums := (List.range (n / 32 - 4)).foldl
    (fun sums k => mixPair data sums (32 * (k + 4)) (32 * (k + 4) + 16) (3 + 32 * k)) sums
  ofSums n (mixPair data sums (n - 16) (n - 32) 103)

/-! ### Long inputs -/

/-- The eight lanes of a long digest. -/
abbrev Lanes := Vector UInt64 8

/-- The lanes before any input. -/
def initialLanes : Lanes :=
  #v[prime32C, prime64A, prime64B, prime64C, prime64D, prime32B, prime64E, prime32A]

/-- Takes in a stripe of 64 bytes: each lane gets the product of the halves of its keyed word and
the plain word of the neighbouring lane. -/
def takeStripe (data : ByteArray) (lanes : Lanes) (i key : Nat) : Lanes :=
  Vector.ofFn fun k : Fin 8 =>
    let keyed := word64 data (i + 8 * k) ^^^ word64 secret (key + 8 * k)
    lanes.get k + word64 data (i + 8 * (k.val ^^^ 1)) + productOfHalves keyed

/-- Scrambles the lanes after a block. -/
def scramble (lanes : Lanes) : Lanes :=
  Vector.ofFn fun k : Fin 8 =>
    (fold 47 (lanes.get k) ^^^ word64 secret (128 + 8 * k)) * prime32A

/-- Takes in a number of stripes from a position on, each with the table shifted by eight bytes. -/
def takeStripes (data : ByteArray) (lanes : Lanes) (i count : Nat) : Lanes :=
  (List.range count).foldl (fun lanes k => takeStripe data lanes (i + 64 * k) (8 * k)) lanes

/-- Merges the lanes into a word. -/
def merge (lanes : Lanes) (key : Nat) (start : UInt64) : UInt64 :=
  let pair (a b : UInt64) (key : Nat) : UInt64 :=
    foldedProduct (a ^^^ word64 secret key) (b ^^^ word64 secret (key + 8))
  avalanche (start + pair lanes[0] lanes[1] key + pair lanes[2] lanes[3] (key + 16) +
    pair lanes[4] lanes[5] (key + 32) + pair lanes[6] lanes[7] (key + 48))

/-- More than 240 bytes: whole blocks of 1024 bytes, the stripes after them, and a last stripe that
ends with the input. -/
def ofLong (data : ByteArray) : Digest :=
  let n := data.size
  let blocks := (n - 1) / 1024
  let lanes := (List.range blocks).foldl
    (fun lanes b => scramble (takeStripes data lanes (1024 * b) 16)) initialLanes
  let lanes := takeStripes data lanes (1024 * blocks) ((n - 1 - 1024 * blocks) / 64)
  let lanes := takeStripe data lanes (n - 64) 121
  let length := UInt64.ofNat n
  ofWords (merge lanes 11 (length * prime64A)) (merge lanes 117 (~~~(length * prime64B)))

/-! ### All inputs -/

/-- The digest of a byte array. -/
def ofByteArray (data : ByteArray) : Digest :=
  if data.size = 0 then ofNone
  else if data.size ≤ 3 then ofTiny data
  else if data.size ≤ 8 then ofFourToEight data
  else if data.size ≤ 16 then ofNineToSixteen data
  else if data.size ≤ 128 then ofMedium data
  else if data.size ≤ 240 then ofLarge data
  else ofLong data

/-- The digest of a list of bytes. -/
def ofBytes (bytes : List UInt8) : Digest := ofByteArray ⟨bytes.toArray⟩

/-- A digest as hexadecimal text. -/
def text (d : Digest) : String := Text.hexOfBytes d.bytes.toList

/-- The first two bytes of a digest, for mentions among other values. -/
def mention (d : Digest) : String :=
  "ContentHash(" ++ Text.hexOfBytes (d.bytes.toList.take 2) ++ "..)"

end Digest

end Presynth
