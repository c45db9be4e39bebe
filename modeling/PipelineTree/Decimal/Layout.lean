import PipelineTree.Decimal.Shortest

/-!
# Layout — the text of a floating-point number

A number is written with its shortest digits and always with a point or an exponent, so that it never
reads as a whole number.  Positional notation is used while the point stands at most sixteen places
after the first digit and at most four zeros before it.
-/

namespace PipelineTree

namespace Decimal

/-- Which decimals are written positionally: by the place of the point, counted from the first digit. -/
structure Layout where
  /-- greatest place of the point in positional notation -/
  greatestPlace : Int
  /-- the place of the point must exceed this in positional notation -/
  leastPlace : Int

def Layout.document : Layout := ⟨16, -5⟩

def Layout.text (layout : Layout) (d : Decimal) : String :=
  let digits := Nat.toDigits 10 d.digits
  let count := digits.length
  let place := d.exponent + count
  if 0 ≤ d.exponent ∧ place ≤ layout.greatestPlace then
    String.ofList (digits ++ List.replicate d.exponent.toNat '0') ++ ".0"
  else if 0 < place ∧ place ≤ layout.greatestPlace then
    String.ofList (digits.take place.toNat) ++ "." ++ String.ofList (digits.drop place.toNat)
  else if layout.leastPlace < place ∧ place ≤ 0 then
    "0." ++ String.ofList (List.replicate (-place).toNat '0' ++ digits)
  else
    let mantissa := match digits with
      | first :: second :: rest => String.ofList (first :: '.' :: second :: rest)
      | short => String.ofList short
    mantissa ++ "e" ++ toString (place - 1)

end Decimal

def Binary64.text : Binary64 → String
  | .nan => ".nan"
  | .infinite negative => if negative then "-.inf" else ".inf"
  | .finite negative m e =>
    let unsigned := if m = 0 then "0.0" else Decimal.Layout.document.text (Decimal.shortest m e)
    if negative then "-" ++ unsigned else unsigned

end PipelineTree
