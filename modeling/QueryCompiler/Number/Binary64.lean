import QueryCompiler.Number.Decimal
import QueryCompiler.Number.Rounding

/-!
# Binary floating point

A double is given by its 64 bits. A decimal number is rounded to the nearest double by exact
arithmetic, ties to the even significand.

* `Binary64.nearest?`: the nearest double with gradual underflow; none if it is infinite.
* `Binary64.read?`: the nearest double of a literal that is in range. Out of range is a number that
  rounds to infinity, and a number other than zero that stays below the least normal double when
  it is rounded to 53 bits, unless it is a double itself.
* `Binary64.truncate`: the integer part.
-/

namespace QueryCompiler.Number

/-- A double-precision number, as the bits of its interchange format. -/
structure Binary64 where
  /-- Sign, eleven bits of exponent, 52 bits of fraction. -/
  bits : UInt64
  deriving DecidableEq

namespace Binary64

/-- The least significand of a normal double, `2 ^ 52`. -/
abbrev leastNormal : Nat := 0x10000000000000

/-- The sign bit, `2 ^ 63`. -/
abbrev signBit : Nat := 0x8000000000000000

/-- The bits of infinity, the least magnitude out of range. -/
abbrev infinity : Nat := 0x7FF0000000000000

/-- A magnitude as a quotient of natural numbers. -/
structure Ratio where
  /-- The dividend. -/
  num : Nat
  /-- The divisor. -/
  den : Nat

/-- `num / (den * 2 ^ k)`. -/
def Ratio.scaleDown (x : Ratio) (k : Int) : Ratio :=
  if 0 ≤ k then ⟨x.num, x.den * power 2 k.toNat⟩ else ⟨x.num * power 2 (-k).toNat, x.den⟩

/-- The nearest natural number to `x / 2 ^ k`. -/
def Ratio.roundAt (x : Ratio) (k : Int) : Nat :=
  let y := x.scaleDown k
  roundHalfEven y.num y.den

/-- The exponent `k` for which `x / 2 ^ k` lies between `2 ^ 52` and `2 ^ 53`, for a positive `x`. -/
def Ratio.unitExponent (x : Ratio) : Int :=
  let k := (x.num.log2 : Int) - x.den.log2 - 52
  let y := x.scaleDown k
  if y.num < leastNormal * y.den then k - 1 else k

/-- The exponent of the least unit, that of the subnormal numbers. -/
abbrev leastUnit : Int := -1074

/-- The magnitude of a decimal number, if it is neither certain to round to infinity (`some true`
in the left part) nor certain to be less than every double (`some false`). -/
def magnitude (d : Decimal) : Bool ⊕ Ratio :=
  if 400 < d.exponent then .inl true
  else if 3 * d.exponent + d.digits.log2 + 1 < -1200 then .inl false
  else if 0 ≤ d.exponent then .inr ⟨d.digits * power 10 d.exponent.toNat, 1⟩
  else .inr ⟨d.digits, power 10 (-d.exponent).toNat⟩

/-- The bits of a magnitude that is a multiple `units` of `2 ^ unit`, without its sign. -/
def pack (unit : Int) (units : Nat) : Nat :=
  if unit ≤ leastUnit then units else (unit - leastUnit).toNat * leastNormal + units

/-- A sign and the bits of a magnitude. -/
def withSign (negative : Bool) (magnitude : Nat) : Binary64 :=
  ⟨(if negative then signBit + magnitude else magnitude).toUInt64⟩

/-- The nearest double; none if it would be infinite. -/
def nearest? (d : Decimal) : Option Binary64 :=
  if d.digits = 0 then some (withSign d.negative 0)
  else match magnitude d with
    | .inl true => none
    | .inl false => some (withSign d.negative 0)
    | .inr x =>
      let unit := max x.unitExponent leastUnit
      let bits := pack unit (x.roundAt unit)
      if bits < infinity then some (withSign d.negative bits) else none

/-- The magnitude is a multiple of the least unit. -/
def Ratio.isExact (x : Ratio) : Bool :=
  let y := x.scaleDown leastUnit
  y.num % y.den == 0

/-- The magnitude, rounded to 53 bits whatever its exponent, is below the least normal double. -/
def Ratio.isTiny (x : Ratio) : Bool :=
  let unit := x.unitExponent
  unit < leastUnit - 1 || (unit == leastUnit - 1 && x.roundAt unit < 2 * leastNormal)

/-- The double that a literal stands for; none if the literal is out of range. -/
def read? (d : Decimal) : Option Binary64 :=
  if d.digits = 0 then some (withSign d.negative 0)
  else match magnitude d with
    | .inl _ => none
    | .inr x => if x.isTiny && !x.isExact then none else nearest? d

/-! ### Reading a double -/

/-- The sign bit. -/
def isNegative (x : Binary64) : Bool := signBit ≤ x.bits.toNat

/-- The magnitude of a finite double as significand and exponent of two. -/
def significand (x : Binary64) : Nat × Int :=
  let magnitude := x.bits.toNat % signBit
  let exponent := magnitude / leastNormal
  let fraction := magnitude % leastNormal
  if exponent = 0 then (fraction, leastUnit)
  else (leastNormal + fraction, leastUnit + (exponent - 1 : Nat))

/-- The magnitude of a finite double as a quotient. -/
def ratio (x : Binary64) : Ratio :=
  let (m, e) := x.significand
  if 0 ≤ e then ⟨m * power 2 e.toNat, 1⟩ else ⟨m, power 2 (-e).toNat⟩

/-- The integer part, toward zero. -/
def truncate (x : Binary64) : Int :=
  let q := x.ratio.num / x.ratio.den
  if x.isNegative then -(q : Int) else q

end Binary64

end QueryCompiler.Number
