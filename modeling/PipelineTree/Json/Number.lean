import PipelineTree.Decimal.Scaling
import PipelineTree.Value.Basic

/-!
# Number — numbers in JSON texts

A number without point and exponent that fits 64 bits is an integer, save for negative zero.  Any other
number is floating: as many of its digits as fit 64 bits are scaled by the power of ten that belongs to
them.  A number too large to be floating is refused.
-/

namespace PipelineTree

namespace Json

/-- The greatest whole number that digits are collected to. -/
def greatest : Nat := Nat.pow 2 64 - 1

def digit (c : Char) : Nat := c.toNat - '0'.toNat

/-- Digits collected to a whole number, and the digits left because the number would grow too large. -/
def collect (n : Nat) : List Char → Nat × List Char
  | [] => (n, [])
  | c :: cs => if n * 10 + digit c ≤ greatest then collect (n * 10 + digit c) cs else (n, c :: cs)

def leading (cs : List Char) : List Char := cs.takeWhile Char.isDigit

def trailing (cs : List Char) : List Char := cs.dropWhile Char.isDigit

/-- A number in parts: sign, digits as a whole number, and power of ten. -/
structure Parts where
  negative : Bool
  digits : Nat
  exponent : Int
  deriving DecidableEq, Repr

def Parts.float? (p : Parts) : Option Number :=
  (Binary64.scaled? p.digits p.exponent).map fun x => .float (x.withSign p.negative)

/-- The integer that parts without a power of ten stand for. -/
def Parts.int? (p : Parts) : Option Number :=
  if p.negative then
    if p.digits = 0 ∨ Nat.pow 2 63 < p.digits then p.float? else some (.int (-(p.digits : Int)))
  else some (.int p.digits)

/-- The greatest exponent that is told from larger ones. -/
def greatestExponent : Nat := Nat.pow 2 31 - 1

/-- Reads an exponent after its letter, and ends the number. -/
def exponent? (p : Parts) (cs : List Char) : Option (Number × List Char) :=
  let (down, cs) := match cs with
    | '-' :: cs => (true, cs)
    | '+' :: cs => (false, cs)
    | cs => (false, cs)
  match digits? 10 (leading cs) with
  | none => none
  | some e =>
    if greatestExponent < e then
      if p.digits ≠ 0 ∧ !down then none
      else some (.float (Binary64.zero p.negative), trailing cs)
    else
      ({ p with exponent := if down then p.exponent - e else p.exponent + e }.float?).map
        (·, trailing cs)

/-- Ends a floating number, by an exponent or without one. -/
def ended? (p : Parts) : List Char → Option (Number × List Char)
  | 'e' :: cs | 'E' :: cs => exponent? p cs
  | cs => p.float?.map (·, cs)

/-- Reads the digits after a point, and ends the number. -/
def decimals? (p : Parts) (cs : List Char) : Option (Number × List Char) :=
  let places := leading cs
  if places.isEmpty then none
  else
    let (digits, left) := collect p.digits places
    let collected := places.length - left.length
    ended? { p with digits := digits, exponent := p.exponent - collected } (trailing cs)

def unsigned? (negative : Bool) (cs : List Char) : Option (Number × List Char) :=
  let whole := leading cs
  if whole.isEmpty || (whole.length > 1 && whole.head? == some '0') then none
  else
    let (digits, left) := collect 0 whole
    let p : Parts := ⟨negative, digits, left.length⟩
    match trailing cs with
    | '.' :: rest => decimals? p rest
    | rest =>
      if left.isEmpty && rest.head? != some 'e' && rest.head? != some 'E' then
        p.int?.map (·, rest)
      else ended? p rest

def number? : List Char → Option (Number × List Char)
  | '-' :: cs => unsigned? true cs
  | cs => unsigned? false cs

end Json

end PipelineTree
