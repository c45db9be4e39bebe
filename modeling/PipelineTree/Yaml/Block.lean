import PipelineTree.Yaml.Joined

/-!
# Block — literal and folded scalars

A block scalar is a header and the indented lines below it.  The header may say how far the lines are
indented and what becomes of the line breaks at the end; else the first line that is not empty decides
on the indentation.
-/

namespace PipelineTree

namespace Yaml

namespace Block

/-- What becomes of the line breaks at the end: none, the first or all are kept. -/
inductive Chomping where
  | strip
  | clip
  | keep
  deriving DecidableEq, Repr

/-- A header: chomping, indentation if it is given, and what follows on the line. -/
structure Header where
  chomping : Chomping
  indentation : Option Nat
  rest : List Glyph

def chomping? : Option Char → Option Chomping
  | some '+' => some .keep
  | some '-' => some .strip
  | _ => none

def indentation? (c : Option Char) : Option Nat :=
  c.bind fun c => if c.isDigit then some (c.toNat - '0'.toNat) else none

/-- Reads a header, whose two parts may stand in either order. -/
def Header.read (row : List Glyph) : Header :=
  match chomping? (Glyph.ahead row 0) with
  | some chomping =>
    let indentation := indentation? (Glyph.ahead row 1)
    ⟨chomping, indentation, row.drop (if indentation.isSome then 2 else 1)⟩
  | none =>
    match indentation? (Glyph.ahead row 0) with
    | some indentation =>
      let chomping := chomping? (Glyph.ahead row 1)
      ⟨chomping.getD .clip, some indentation, row.drop (if chomping.isSome then 2 else 1)⟩
    | none => ⟨.clip, none, row⟩

/-- The greatest column that is reached by spaces alone, up to the first line that is not empty. -/
def detect (greatest : Nat) : List Glyph → Except Fault Nat
  | [] => .ok greatest
  | g :: row =>
    if g.char == ' ' then detect greatest row
    else if g.char == '\t' then refuse (g :: row) .strayTab
    else if isBreak g.char then detect (max greatest g.column) row
    else .ok (max greatest g.column)

/-- A block scalar in the making. The lists have the last character first. -/
structure Lines where
  text : List Char
  /-- the break that ended the last line with text -/
  lastBreak : Option Char
  /-- the breaks of the empty lines after it -/
  emptyBreaks : List Char
  /-- whether the last line with text begins with a blank -/
  indented : Bool

namespace Lines

def empty : Lines := ⟨[], none, [], false⟩

/-- Joins what is between two lines, before a line that begins with a character. -/
def join (folded : Bool) (lines : Lines) (first : Char) : List Char :=
  if folded && lines.lastBreak == some '\n' && !lines.indented && !isGap first then
    if lines.emptyBreaks.isEmpty then ' ' :: lines.text else lines.emptyBreaks ++ lines.text
  else lines.emptyBreaks ++ (lines.lastBreak.toList ++ lines.text)

def finish (chomping : Chomping) (lines : Lines) : List Char :=
  match chomping with
  | .strip => lines.text.reverse
  | .clip => (lines.lastBreak.toList ++ lines.text).reverse
  | .keep => (lines.emptyBreaks ++ (lines.lastBreak.toList ++ lines.text)).reverse

end Lines

/--
Reads lines at an indentation.  `inLine` says whether the next glyph continues a line; else it is
indentation, an empty line's break, the beginning of a line or past the scalar.
-/
def scan (folded : Bool) (indentation : Nat) (inLine : Bool) (lines : Lines) :
    List Glyph → Except Fault (Lines × List Glyph)
  | [] => .ok (lines, [])
  | g :: row =>
    if inLine then
      if isBreak g.char then
        scan folded indentation false ⟨lines.text, some g.char, [], lines.indented⟩ row
      else if g.isEnd then .ok (⟨lines.text, none, [], lines.indented⟩, g :: row)
      else scan folded indentation true { lines with text := g.char :: lines.text } row
    else if g.column < indentation && g.char == ' ' then scan folded indentation false lines row
    else if g.column < indentation && g.char == '\t' then refuse (g :: row) .strayTab
    else if isBreak g.char then
      scan folded indentation false { lines with emptyBreaks := g.char :: lines.emptyBreaks } row
    else if g.column == indentation && !g.isEnd then
      scan folded indentation true
        ⟨g.char :: lines.join folded g.char, none, [], isGap g.char⟩ row
    else .ok (lines, g :: row)

/-- Drops what may follow a header on its line: blanks, a comment and the line break. -/
def endHeader (row : List Glyph) : Except Fault (List Glyph) :=
  match Glyph.dropComment (Glyph.dropGap row) with
  | g :: more => if isBreak g.char then .ok more else if g.isEnd then .ok (g :: more)
    else refuse (g :: more) .badHeader
  | [] => .ok []

/-- Reads a block scalar after its indicator, inside a collection at some column. -/
def read (folded : Bool) (outer : Int) (row : List Glyph) : Except Fault Scanned := do
  let header := Header.read row
  if header.indentation == some 0 then refuse row .badHeader
  else
    let body ← endHeader header.rest
    let indentation ← match header.indentation with
      | some n => .ok ((max outer 0).toNat + n)
      | none => (detect 0 body).map fun greatest => max (max greatest (outer + 1).toNat) 1
    let (lines, rest) ← scan folded indentation false Lines.empty body
    pure ⟨lines.finish header.chomping, rest, true⟩

end Block

end Yaml

end PipelineTree
