import PqFl.Aggregation

/-!
# Single precision floats

The binary32 format with rounding to nearest, ties to even. A finite value is
an integer multiple of the least positive one, so the exact result of an
operation is a quotient of integers in these units, rounded once. The server
is generic in its floats; runs on fixed inputs use these.
-/

set_option autoImplicit false

namespace PqFl.Floats
open PqFl.Crypto PqFl.Aggregation

structure Binary32 where
  bits : UInt32
  deriving DecidableEq, Repr

def isNegative (x : Binary32) : Bool := decide (2^31 ≤ x.bits.toNat)

/-- The bits without the sign; they are ordered like the absolute values. -/
def magnitudeBits (x : Binary32) : ℕ := x.bits.toNat % 2^31

def infinityBits : ℕ := 255 * 2^23

def isNaN (x : Binary32) : Bool := decide (infinityBits < magnitudeBits x)
def isInfinite (x : Binary32) : Bool := decide (magnitudeBits x = infinityBits)
def isFinite (x : Binary32) : Bool := decide (magnitudeBits x < infinityBits)

def nan : Binary32 := ⟨0x7FC00000⟩

def pack (negative : Bool) (magnitude : ℕ) : Binary32 :=
  ⟨UInt32.ofNat (magnitude + if negative then 2^31 else 0)⟩

/-- The absolute value of a finite float in units of the least positive one. -/
def units (x : Binary32) : ℕ :=
  let exponent := magnitudeBits x / 2^23
  let fraction := magnitudeBits x % 2^23
  if exponent = 0 then fraction else (2^23 + fraction) * 2^(exponent - 1)

def signedUnits (x : Binary32) : ℤ := if isNegative x then -(units x : ℤ) else units x

/-- The magnitude nearest to a quotient of units. A carry out of the fraction
goes into the exponent, and out of the largest exponent to infinity. -/
def roundQuotient (a b : ℕ) : ℕ :=
  let shift := (a / b).log2 - 23
  let step := b * 2^shift
  let floor := a / step
  let rest := a % step
  let rounded := if step < 2 * rest ∨ (2 * rest = step ∧ floor % 2 = 1) then floor + 1 else floor
  min (rounded + shift * 2^23) infinityBits

def add (x y : Binary32) : Binary32 :=
  if isNaN x || isNaN y then nan
  else if isInfinite x then
    if isInfinite y && isNegative x != isNegative y then nan else x
  else if isInfinite y then y
  else
    let total := signedUnits x + signedUnits y
    if total = 0 then pack (isNegative x && isNegative y) 0
    else pack (decide (total < 0)) (roundQuotient total.natAbs 1)

def negate (x : Binary32) : Binary32 := pack (!isNegative x) (magnitudeBits x)

def mul (x y : Binary32) : Binary32 :=
  let negative := isNegative x != isNegative y
  if isNaN x || isNaN y then nan
  else if isInfinite x || isInfinite y then
    if magnitudeBits x = 0 ∨ magnitudeBits y = 0 then nan else pack negative infinityBits
  else pack negative (roundQuotient (units x * units y) (2^149))

def div (x y : Binary32) : Binary32 :=
  let negative := isNegative x != isNegative y
  if isNaN x || isNaN y || (isInfinite x && isInfinite y) then nan
  else if isInfinite x then pack negative infinityBits
  else if isInfinite y then pack negative 0
  else if magnitudeBits y = 0 then
    if magnitudeBits x = 0 then nan else pack negative infinityBits
  else pack negative (roundQuotient (units x * 2^149) (units y))

/-- The last bit of the doubled root tells an inexact root from an exact one. -/
def sqrt (x : Binary32) : Binary32 :=
  if isNaN x || magnitudeBits x == 0 then x
  else if isNegative x then nan
  else if isInfinite x then x
  else
    let square := units x * 2^149
    let root := square.sqrt
    pack false (roundQuotient (2 * root + if root * root = square then 0 else 1) 2)

def ofInt (z : ℤ) : Binary32 := pack (decide (z < 0)) (roundQuotient (z.natAbs * 2^149) 1)

def lt (x y : Binary32) : Bool :=
  !isNaN x && !isNaN y &&
    (if isNegative x then
      if isNegative y then decide (magnitudeBits y < magnitudeBits x)
      else decide (magnitudeBits x ≠ 0 ∨ magnitudeBits y ≠ 0)
    else !isNegative y && decide (magnitudeBits x < magnitudeBits y))

/-- The bytes in the order of a little-endian machine. -/
def toBytes (x : Binary32) : Block 4 :=
  ⟨[UInt8.ofNat x.bits.toNat, UInt8.ofNat (x.bits.toNat / 2^8), UInt8.ofNat (x.bits.toNat / 2^16),
    UInt8.ofNat (x.bits.toNat / 2^24)], rfl⟩

def ofBytes (b : Block 4) : Binary32 :=
  match b.1 with
  | [b0, b1, b2, b3] =>
    ⟨UInt32.ofNat (b0.toNat + b1.toNat * 2^8 + b2.toNat * 2^16 + b3.toNat * 2^24)⟩
  | _ => nan

theorem ofBytes_toBytes (x : Binary32) : ofBytes (toBytes x) = x := by
  obtain ⟨bits⟩ := x
  have hb := bits.toNat_lt
  simp only [ofBytes, toBytes, Binary32.mk.injEq]
  apply UInt32.toNat_inj.mp
  simp only [UInt32.toNat_ofNat', UInt8.toNat_ofNat']
  omega

instance : FloatArith Binary32 where
  add := add
  sub x y := add x (negate y)
  mul := mul
  div := div
  ofInt := ofInt
  sqrt := sqrt
  lt := lt
  isFinite := isFinite
  maxValue := ⟨0x7F7FFFFF⟩
  floorSize x := if isFinite x && !isNegative x then units x / 2^149 else 0
  toBytes := toBytes
  ofBytes := ofBytes
  ofBytes_toBytes := ofBytes_toBytes

/-- One third, rounded. -/
example : (div (ofInt 1) (ofInt 3)).bits = 0x3EAAAAAB := by decide +kernel

/-- The root of two, and a sum which rounds to the even neighbour. -/
example : (sqrt (ofInt 2)).bits = 0x3FB504F3 ∧
    add (ofInt 16777216) (ofInt 1) = ofInt 16777216 := by decide +kernel

end PqFl.Floats
