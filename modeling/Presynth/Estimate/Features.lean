import Presynth.Quantity
/-!
# Feature vectors

What is estimated of a design is passed on as vectors of numbers in a fixed order: fourteen numbers
on area, and seventeen on power, which are those on area and three more.
-/

namespace Presynth

variable {α : Type}

/-- Counts, areas and powers of a design. -/
structure AreaFeatures (α : Type) where
  /-- Register bits. -/
  seqBits : Nat
  /-- Drivers of registers. -/
  fanoutSum : Nat
  /-- Port bits. -/
  ioBits : Nat
  andCount : Nat
  orCount : Nat
  notCount : Nat
  xorCount : Nat
  muxCount : Nat
  /-- Bits of combinational logic; not part of the vector. -/
  combBits : Nat
  seqArea : α
  combArea : α
  totalArea : α
  staticPower : α
  dynamicPower : α
  totalPower : α
  deriving DecidableEq, Repr, BEq

namespace AreaFeatures

/-- The length of an area vector. -/
def vectorLength : Nat := 14

/-- The area vector. -/
def toVector [NatCast α] (f : AreaFeatures α) : List α :=
  [(f.seqBits : α), (f.fanoutSum : α), (f.ioBits : α), (f.andCount : α), (f.orCount : α),
    (f.notCount : α), (f.xorCount : α), (f.muxCount : α), f.seqArea, f.combArea, f.totalArea,
    f.staticPower, f.dynamicPower, f.totalPower]

/-- Reads an area vector of the right length. Counts lose fractions and signs. -/
def ofVector? [Quantity α] : List α → Option (AreaFeatures α)
  | [seqBits, fanoutSum, ioBits, andCount, orCount, notCount, xorCount, muxCount, seqArea, combArea,
      totalArea, staticPower, dynamicPower, totalPower] =>
    some
      { seqBits := Quantity.toWord seqBits
        fanoutSum := Quantity.toWord fanoutSum
        ioBits := Quantity.toWord ioBits
        andCount := Quantity.toWord andCount
        orCount := Quantity.toWord orCount
        notCount := Quantity.toWord notCount
        xorCount := Quantity.toWord xorCount
        muxCount := Quantity.toWord muxCount
        combBits := 0
        seqArea, combArea, totalArea, staticPower, dynamicPower, totalPower }
  | _ => none

end AreaFeatures

/-- The features of a design with how often its signals change, and a power known from elsewhere. -/
structure PowerFeatures (α : Type) where
  area : AreaFeatures α
  toggleRateSum : α
  toggleRateAvg : α
  modulePower : α
  deriving DecidableEq, Repr, BEq

/-- The power vector. -/
def PowerFeatures.toVector [NatCast α] (f : PowerFeatures α) : List α :=
  f.area.toVector ++ [f.toggleRateSum, f.toggleRateAvg, f.modulePower]

end Presynth
