/-!
# Binary64 — floating-point numbers by what they denote

A 64-bit floating-point number is kept as the number it stands for: sign, whole mantissa and power
of two, or an infinity, or NaN.  All arithmetic on the way in is exact, on natural numbers; the one
place where a digit can be lost is `roundDiv`.

* `Binary64.same` is the equality that mapping keys use;
* `Binary64.ofDecimal` is the number nearest to a decimal.
-/

namespace PipelineTree

/--
A 64-bit floating-point number.  In `finite s m e` the number is `± m · 2 ^ e` with `m < 2 ^ 53` and
`e ≥ -1074`, and `m ≥ 2 ^ 52` unless `e` is the least exponent; zero has the least exponent too.
-/
inductive Binary64 where
  | finite (negative : Bool) (mantissa : Nat) (exponent : Int)
  | infinite (negative : Bool)
  | nan
  deriving DecidableEq, Repr, Inhabited

namespace Binary64

/-- The least power of two a finite number is written with. -/
def leastExponent : Int := -1074

/-- The greatest power of two a finite number is written with. -/
def greatestExponent : Int := 971

def zero (negative : Bool) : Binary64 := .finite negative 0 leastExponent

/-- Equality of numbers, under which the two zeros are one and NaN is itself. -/
def same : Binary64 → Binary64 → Bool
  | .nan, .nan => true
  | .infinite a, .infinite b => a == b
  | .finite a m e, .finite b n f => (m == 0 && n == 0) || (a == b && m == n && e == f)
  | _, _ => false

def isFinite : Binary64 → Bool
  | .finite .. => true
  | _ => false

/-- The whole number nearest to `num / den`; of two equally near, the even one. -/
def roundDiv (num den : Nat) : Nat :=
  let quotient := num / den
  let twice := 2 * (num % den)
  if twice < den then quotient
  else if den < twice then quotient + 1
  else quotient + quotient % 2

/-- The exponent `k` with `2 ^ k ≤ num / den < 2 ^ (k + 1)`, for positive `num` and `den`. -/
def leadingBit (num den : Nat) : Int :=
  let k : Int := (num.log2 : Int) - den.log2
  if den * Nat.pow 2 k.toNat ≤ num * Nat.pow 2 (-k).toNat then k else k - 1

/-- The floating-point number nearest to `± num / den`, for positive `num` and `den`. -/
def ofQuotient (negative : Bool) (num den : Nat) : Binary64 :=
  let e := max (leadingBit num den - 52) leastExponent
  let m := roundDiv (num * Nat.pow 2 (-e).toNat) (den * Nat.pow 2 e.toNat)
  let (m, e) := if m = Nat.pow 2 53 then (Nat.pow 2 52, e + 1) else (m, e)
  if greatestExponent < e then .infinite negative
  else if m = 0 then zero negative
  else .finite negative m e

/-- How many digits the decimal form of `n` has; zero has one. -/
def digitCount (n : Nat) : Nat := (Nat.toDigits 10 n).length

/--
The floating-point number nearest to `± digits · 10 ^ exponent`.  Decimals far outside the range are
settled by their order of magnitude, so that no huge power is formed.
-/
def ofDecimal (negative : Bool) (digits : Nat) (exponent : Int) : Binary64 :=
  if digits = 0 then zero negative
  else
    let magnitude := exponent + digitCount digits
    if 310 < magnitude then .infinite negative
    else if magnitude < -330 then zero negative
    else ofQuotient negative (digits * Nat.pow 10 exponent.toNat) (Nat.pow 10 (-exponent).toNat)

end Binary64

end PipelineTree
