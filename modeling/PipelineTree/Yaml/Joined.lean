import PipelineTree.Decimal.Reading
import PipelineTree.Yaml.Problem

/-!
# Joined — scalars whose lines are joined

Plain and quoted scalars may run over several lines.  The white space between two pieces of such a
scalar is a gap: within a line it is kept; one line break becomes a space; of several line breaks all
but the first are kept.  Blanks around line breaks are dropped.
-/

namespace PipelineTree

namespace Yaml

/-- White space between two pieces of a scalar. The lists have the last character first. -/
structure Gap where
  blanks : List Char
  /-- whether a line has ended -/
  broken : Bool
  /-- the break that ended the line, unless it was escaped -/
  firstBreak : Option Char
  laterBreaks : List Char
  deriving DecidableEq, Repr

namespace Gap

def none : Gap := ⟨[], false, .none, []⟩

def escapedBreak : Gap := ⟨[], true, .none, []⟩

def isNone (gap : Gap) : Bool := gap.blanks.isEmpty && !gap.broken

def add (gap : Gap) (c : Char) : Gap :=
  if isGap c then
    if gap.broken then gap else ⟨c :: gap.blanks, false, gap.firstBreak, gap.laterBreaks⟩
  else if gap.broken then ⟨gap.blanks, true, gap.firstBreak, c :: gap.laterBreaks⟩
  else ⟨[], true, some c, []⟩

def text (gap : Gap) : List Char :=
  if gap.broken then
    match gap.firstBreak with
    | some '\n' => if gap.laterBreaks.isEmpty then [' '] else gap.laterBreaks
    | first => gap.laterBreaks ++ first.toList
  else gap.blanks

/-- Of two line breaks one is kept. -/
example : ((none.add '\n').add '\n').text = ['\n'] := by decide

end Gap

/-- A scalar's text, with what follows it. -/
structure Scanned where
  text : List Char
  rest : List Glyph
  /-- whether a line ended before what follows -/
  broken : Bool
  deriving Repr

namespace Scanned

/-- Brackets and the comma, which end a plain scalar in a flow collection. -/
def isFlowIndicator (c : Char) : Bool :=
  c == ',' || c == '[' || c == ']' || c == '{' || c == '}'

def isColon (row : List Glyph) : Bool :=
  Glyph.ahead row 0 == some ':' && endsWord (Glyph.ahead row 1)

/-- Whether a colon in front is misplaced in a flow collection. -/
def isCrampedColon (row : List Glyph) : Bool :=
  Glyph.ahead row 0 == some ':' &&
    (Glyph.ahead row 1).any fun c => isFlowIndicator c || c == '?'

/-- Whether a plain scalar ends before a glyph that is no white space, after some gap. -/
def endsPlain (inFlow : Bool) (least : Nat) (gap : Gap) (g : Glyph) (row : List Glyph) : Bool :=
  g.isEnd || Glyph.atMarker (g :: row) ||
    (!gap.isNone && (g.char == '#' || (!inFlow && g.column < least))) ||
    isColon (g :: row) || (inFlow && isFlowIndicator g.char)

/--
The rest of a plain scalar.  Its later lines stand at the column `least` or to the right of it, and are
not indented by tabs.
-/
def plain (inFlow : Bool) (least : Nat) (text : List Char) (gap : Gap) :
    List Glyph → Except Fault Scanned
  | [] => .ok ⟨text.reverse, [], gap.broken⟩
  | g :: row =>
    if isGap g.char || isBreak g.char then
      if gap.broken && g.column < least && g.char == '\t' then refuse (g :: row) .strayTab
      else plain inFlow least text (gap.add g.char) row
    else if inFlow && isCrampedColon (g :: row) then refuse (g :: row) .colonInFlow
    else if endsPlain inFlow least gap g row then .ok ⟨text.reverse, g :: row, gap.broken⟩
    else plain inFlow least (g.char :: (gap.text ++ text)) Gap.none row

/-- The rest of a scalar in single quotes. A quote inside is written twice. -/
def singleQuoted (text : List Char) (gap : Gap) : List Glyph → Except Fault Scanned
  | [] => refuse [] .openScalar
  | g :: row =>
    if Glyph.atMarker (g :: row) then refuse (g :: row) .markerInScalar
    else if g.isEnd then refuse (g :: row) .openScalar
    else if isGap g.char || isBreak g.char then singleQuoted text (gap.add g.char) row
    else
      let text := gap.text ++ text
      if g.char == '\'' then
        match row with
        | h :: more =>
          if h.char == '\'' then singleQuoted ('\'' :: text) Gap.none more
          else .ok ⟨text.reverse, h :: more, false⟩
        | [] => .ok ⟨text.reverse, [], false⟩
      else singleQuoted (g.char :: text) Gap.none row

def escaped? (c : Char) : Option Char :=
  [('0', '\x00'), ('a', '\x07'), ('b', '\x08'), ('t', '\t'), ('\t', '\t'), ('n', '\n'),
    ('v', '\x0b'), ('f', '\x0c'), ('r', '\r'), ('e', '\x1b'), (' ', ' '), ('"', '"'), ('/', '/'),
    ('\\', '\\'), ('N', '\x85'), ('_', '\xa0'), ('L', '\u2028'), ('P', '\u2029')].lookup c

/-- How many hexadecimal digits follow a letter after a backslash. -/
def hexWidth? (c : Char) : Option Nat := [('x', 2), ('u', 4), ('U', 8)].lookup c

/-- A character by its number, unless the number is no character's. -/
def charOf? (n : Nat) : Option Char :=
  if h : n.isValidChar then some (Char.ofNatAux n h) else none

/-- What follows a backslash: the character it stands for, and how many glyphs it takes. -/
def escape? (row : List Glyph) : Option (Char × Nat) := do
  let c ← Glyph.ahead row 0
  match hexWidth? c with
  | none => (escaped? c).map fun e => (e, 1)
  | some width =>
    let digits := ((row.drop 1).take width).map Glyph.char
    if digits.length = width then
      let n ← digits? 16 digits
      (charOf? n).map fun e => (e, width + 1)
    else none

def doubleQuoted (text : List Char) (gap : Gap) (row : List Glyph) : Except Fault Scanned :=
  match row with
  | [] => refuse [] .openScalar
  | g :: row =>
    if Glyph.atMarker (g :: row) then refuse (g :: row) .markerInScalar
    else if g.isEnd then refuse (g :: row) .openScalar
    else if isGap g.char || isBreak g.char then doubleQuoted text (gap.add g.char) row
    else
      let text := gap.text ++ text
      if g.char == '"' then .ok ⟨text.reverse, row, false⟩
      else if g.char == '\\' then
        if (Glyph.ahead row 0).any isBreak then doubleQuoted text Gap.escapedBreak (row.drop 1)
        else
          match escape? row with
          | some (c, width) => doubleQuoted (c :: text) Gap.none (row.drop width)
          | none => refuse row .badEscape
      else doubleQuoted (g.char :: text) Gap.none row
termination_by row.length
decreasing_by all_goals (simp only [List.length_cons, List.length_drop]; omega)

end Scanned

end Yaml

end PipelineTree
