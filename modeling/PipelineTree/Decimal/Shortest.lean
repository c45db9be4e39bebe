import PipelineTree.Decimal.Binary64

/-!
# Shortest — the fewest digits that read back

Among the decimals that round to a given floating-point number, the shortest one is taken, and among
those of equal length the nearest.  The decimals that round to `m · 2 ^ e` fill an interval around
it, whose ends belong to it exactly when `m` is even.  Everything is scaled to whole numbers first.
-/

namespace PipelineTree

/-- The decimal `digits · 10 ^ exponent`. -/
structure Decimal where
  digits : Nat
  exponent : Int
  deriving DecidableEq, Repr, Inhabited

namespace Decimal

/-- Drops trailing zeros of the digits, at most `fuel` of them. -/
def strip : Nat → Decimal → Decimal
  | 0, d => d
  | fuel + 1, d =>
    if d.digits ≠ 0 ∧ d.digits % 10 = 0 then strip fuel ⟨d.digits / 10, d.exponent + 1⟩ else d

/-- A positive number and the two ends of what rounds to it, all in units of `10 ^ exponent`. -/
structure Neighbourhood where
  low : Nat
  value : Nat
  high : Nat
  closed : Bool
  exponent : Int
  deriving Repr

namespace Neighbourhood

/-- The neighbourhood of `m · 2 ^ e`.  Below a power of two the lower half is half as wide. -/
def ofBinary (m : Nat) (e : Int) : Neighbourhood :=
  let unit := if 2 ≤ e then Nat.pow 2 (e - 2).toNat else Nat.pow 5 (2 - e).toNat
  let below := if m = Nat.pow 2 52 ∧ Binary64.leastExponent < e then 1 else 2
  { low := (4 * m - below) * unit
    value := 4 * m * unit
    high := (4 * m + 2) * unit
    closed := m % 2 == 0
    exponent := min 0 (e - 2) }

def holds (n : Neighbourhood) (x : Nat) : Bool :=
  if n.closed then n.low ≤ x && x ≤ n.high else n.low < x && x < n.high

/-- The nearer of the value's two neighbours on the grid of `step` that rounds to the number. -/
def onGrid? (n : Neighbourhood) (step : Nat) : Option Nat :=
  let below := n.value / step
  let fitsBelow := n.holds (below * step)
  let fitsAbove := n.holds ((below + 1) * step)
  if fitsBelow && fitsAbove then
    let up := 2 * (n.value % step)
    if up < step then some below
    else if step < up then some (below + 1)
    else some (below + below % 2)
  else if fitsBelow then some below
  else if fitsAbove then some (below + 1)
  else none

/-- The first grid with a hit, from coarse to fine: `places` is the number of digits dropped. -/
def firstGrid (n : Neighbourhood) : (places : Nat) → Decimal
  | 0 => ⟨n.value, n.exponent⟩
  | places + 1 =>
    match n.onGrid? (Nat.pow 10 places) with
    | some d => ⟨d, n.exponent + places⟩
    | none => firstGrid n places

end Neighbourhood

/-- The shortest decimal that rounds to the positive number `m · 2 ^ e`. -/
def shortest (m : Nat) (e : Int) : Decimal :=
  let n := Neighbourhood.ofBinary m e
  let d := n.firstGrid (Binary64.digitCount n.value)
  d.strip (Binary64.digitCount d.digits)

end Decimal

end PipelineTree
