import PipelineTree.Decimal.Reading

/-!
# Scaling — powers of ten applied in floating point

A decimal can be read in two rounded steps: its digits become a floating-point number, which is then
multiplied or divided by a power of ten.  The result may miss the nearest number by the last digit or
two, unlike `Binary64.ofDecimal`.
-/

namespace PipelineTree

namespace Binary64

/-- A finite number without its sign, as a fraction; other numbers have none. -/
def fraction? : Binary64 → Option (Nat × Nat)
  | .finite _ m e => some (m * Nat.pow 2 e.toNat, Nat.pow 2 (-e).toNat)
  | _ => none

/-- The number nearest to a fraction that is not negative. -/
def ofFraction (num den : Nat) : Binary64 := if num = 0 then zero false else ofQuotient false num den

def ofNat (n : Nat) : Binary64 := ofFraction n 1

def powerOfTen (exponent : Nat) : Binary64 := ofNat (Nat.pow 10 exponent)

/-- The rounded product of numbers that are not negative. -/
def times (x y : Binary64) : Binary64 :=
  match x.fraction?, y.fraction? with
  | some (a, b), some (c, d) => ofFraction (a * c) (b * d)
  | _, _ => .infinite false

/-- The rounded quotient of numbers that are not negative, the second one positive. -/
def dividedBy (x y : Binary64) : Binary64 :=
  match x.fraction?, y.fraction? with
  | some (a, b), some (c, d) => ofFraction (a * d) (b * c)
  | _, _ => .infinite false

def isZero : Binary64 → Bool
  | .finite _ m _ => m == 0
  | _ => false

def withSign (negative : Bool) : Binary64 → Binary64
  | .finite _ m e => .finite negative m e
  | .infinite _ => .infinite negative
  | .nan => .nan

def greatestPower : Nat := 308

/--
Scales a number down by a power of ten, in strides of the greatest power.  The strides end before
`strides` are made, for by then the number is zero.
-/
def scaleDown (x : Binary64) (exponent : Nat) : (strides : Nat) → Binary64
  | 0 => zero false
  | strides + 1 =>
    if exponent ≤ greatestPower then x.dividedBy (powerOfTen exponent)
    else if x.isZero then x
    else scaleDown (x.dividedBy (powerOfTen greatestPower)) (exponent - greatestPower) strides

/-- Scales digits by a power of ten, unless the result is too large. -/
def scaled? (digits : Nat) (exponent : Int) : Option Binary64 :=
  let x := ofNat digits
  if exponent < 0 then some (scaleDown x exponent.natAbs 4)
  else if x.isZero then some x
  else if greatestPower < exponent.toNat then none
  else
    let y := x.times (powerOfTen exponent.toNat)
    if y.isFinite then some y else none

end Binary64

end PipelineTree
