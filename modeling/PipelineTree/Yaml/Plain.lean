import PipelineTree.Decimal.Reading
import PipelineTree.Value.Basic

/-!
# Plain — what an unquoted scalar reads as

An unquoted scalar is null, a boolean, a number or a text, by its spelling.  Integers may be written in
four radixes; a decimal integer has no leading zero.  An integer of more than 64 bits is refused while
it fits 128 bits, and past that it is a floating-point number.
-/

namespace PipelineTree

namespace Yaml

/-- What an unquoted scalar reads as. -/
inductive Plain where
  | null
  | bool (b : Bool)
  | int (n : Int)
  /-- an integer of more than 64 bits -/
  | wideInt
  | float (x : Binary64)
  | text
  deriving DecidableEq, Repr

namespace Plain

def isNull (s : String) : Bool := s == "null" || s == "Null" || s == "NULL" || s == "~"

def bool? (s : String) : Option Bool :=
  if s == "true" || s == "True" || s == "TRUE" then some true
  else if s == "false" || s == "False" || s == "FALSE" then some false
  else none

def sign : List Char → Bool × List Char
  | '-' :: cs => (true, cs)
  | '+' :: cs => (false, cs)
  | cs => (false, cs)

/-- A leading zero before further decimal digits: such a scalar is a text. -/
def hasLeadingZero (cs : List Char) : Bool :=
  match (sign cs).2 with
  | '0' :: d :: ds => d.isDigit && ds.all Char.isDigit
  | _ => false

def magnitude? : List Char → Option Nat
  | '0' :: 'x' :: cs => digits? 16 cs
  | '0' :: 'o' :: cs => digits? 8 cs
  | '0' :: 'b' :: cs => digits? 2 cs
  | cs => digits? 10 cs

/-- An integer, if it fits 128 bits: signed ones two's complement, the others unsigned. -/
def int? (cs : List Char) : Option Int :=
  if hasLeadingZero cs then none
  else
    let (negative, unsigned) := sign cs
    match magnitude? unsigned with
    | none => none
    | some n =>
      if negative then (if n ≤ Nat.pow 2 127 then some (-(n : Int)) else none)
      else (if n < Nat.pow 2 128 then some (n : Int) else none)

/-- An integer that is not negative and may have a plus sign. -/
def natural? (cs : List Char) : Option Nat :=
  if hasLeadingZero cs then none
  else
    match cs with
    | '+' :: ds => magnitude? ds
    | ds => magnitude? ds

def fits (n : Int) : Bool := -(Nat.pow 2 63 : Int) ≤ n && n < Nat.pow 2 64

def finite? (negative : Bool) (cs : List Char) : Option Binary64 := do
  let d ← Decimal.ofChars? cs
  let x := Binary64.ofDecimal negative d.digits d.exponent
  if x.isFinite then some x else none

def float? (s : String) : Option Binary64 :=
  if s == ".nan" || s == ".NaN" || s == ".NAN" then some .nan
  else
    let (negative, unsigned) := sign s.toList
    let spelled := String.ofList unsigned
    if spelled == ".inf" || spelled == ".Inf" || spelled == ".INF" then some (.infinite negative)
    else finite? negative unsigned

def read (s : String) : Plain :=
  if s.isEmpty || isNull s then .null
  else
    match bool? s with
    | some b => .bool b
    | none =>
      match int? s.toList with
      | some n => if fits n then .int n else .wideInt
      | none =>
        match if hasLeadingZero s.toList then none else float? s with
        | some x => .float x
        | none => .text

def isAmbiguous (s : String) : Bool := read s != .text || hasLeadingZero s.toList

end Plain

end Yaml

end PipelineTree
