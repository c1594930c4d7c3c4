/-!
# Binary numbers

A finite 64-bit floating-point number is exactly a natural number times a power of two, with a
sign. `ofFloat` takes the three apart, and `whole?` gives the integer that such a number equals,
if it equals one.
-/

namespace Scripting

/-- The number `significand * 2 ^ (power - 1075)` with its sign. -/
structure Binary64 where
  negative : Bool
  significand : Nat
  power : Nat
  deriving DecidableEq, Repr

namespace Binary64

/-- The number of bits of the fraction field. -/
def fractionBits : Nat := 52

/-- The power at which the significand itself is the number. -/
def unitPower : Nat := 1075

/-- The exact value of a finite floating-point number. The smallest numbers have an exponent field
of zero; they lack the leading bit and share the power of the field one. -/
def ofFloat (x : Float) : Binary64 :=
  let bits := x.toBits.toNat
  let fraction := bits % (1 <<< fractionBits)
  let exponent := bits >>> fractionBits % 2048
  { negative := bits >>> 63 = 1
    significand := if exponent = 0 then fraction else (1 <<< fractionBits) + fraction
    power := max exponent 1 }

/-- The integer that a number equals, if it has no fraction. -/
def whole? (x : Binary64) : Option Int :=
  let magnitude? :=
    if unitPower ≤ x.power then some (x.significand <<< (x.power - unitPower))
    else
      let unit := 1 <<< (unitPower - x.power)
      if x.significand % unit = 0 then some (x.significand / unit) else none
  magnitude?.map fun n => if x.negative then -(n : Int) else n

end Binary64

end Scripting
