import PipelineTree.Yaml.Style

/-!
# Glyph — characters with their places

A text is read as a row of glyphs: characters that know their line and column.  Every way of ending a
line has become one line feed, save for the two Unicode separators, and a null character closes the row,
so that the end of the text has a place too.
-/

namespace PipelineTree

namespace Yaml

/-- A character and where it stands. -/
structure Glyph where
  char : Char
  index : Nat
  line : Nat
  column : Nat
  deriving DecidableEq, Repr, Inhabited

def isAllowed (c : Char) : Bool :=
  let n := c.toNat
  n == 0x09 || n == 0x0A || n == 0x0D || (0x20 ≤ n && n ≤ 0x7E) || n == 0x85 ||
    (0xA0 ≤ n && n ≤ 0xD7FF) || (0xE000 ≤ n && n ≤ 0xFFFD) || 0x10000 ≤ n

def byteOrderMark : Char := '\ufeff'

def isGap (c : Char) : Bool := c == ' ' || c == '\t'

def isWordChar (c : Char) : Bool := c.isAlphanum || c == '-' || c == '_'

namespace Glyph

def endsLine (g : Glyph) : Bool := isBreak g.char || g.char == '\x00'

def isEnd (g : Glyph) : Bool := g.char == '\x00'

def place (index line column : Nat) : List Char → List Glyph
  | [] => [⟨'\x00', index, line, column⟩]
  | '\r' :: '\n' :: cs => ⟨'\n', index, line, column⟩ :: place (index + 2) (line + 1) 0 cs
  | c :: cs =>
    if c == '\n' || c == '\r' || c == '\x85' then
      ⟨'\n', index, line, column⟩ :: place (index + 1) (line + 1) 0 cs
    else if isBreak c then ⟨c, index, line, column⟩ :: place (index + 1) (line + 1) 0 cs
    else ⟨c, index, line, column⟩ :: place (index + 1) line (column + 1) cs

/-- The glyphs of a text. A byte order mark in front is no part of it. -/
def ofText : List Char → List Glyph
  | c :: cs => if c == byteOrderMark then place 0 0 0 cs else place 0 0 0 (c :: cs)
  | [] => place 0 0 0 []

def ahead (row : List Glyph) (distance : Nat) : Option Char := row[distance]?.map Glyph.char

def here (row : List Glyph) : Glyph := row.headD ⟨'\x00', 0, 0, 0⟩

/-- Three equal characters that stand alone: the beginning or the end of a document. -/
def isMarker (row : List Glyph) (c : Char) : Bool :=
  ahead row 0 == some c && ahead row 1 == some c && ahead row 2 == some c && endsWord (ahead row 3)

def atMarker (row : List Glyph) : Bool :=
  (here row).column == 0 && (isMarker row '-' || isMarker row '.')

def dropGap (row : List Glyph) : List Glyph := row.dropWhile (isGap ·.char)

def dropComment : List Glyph → List Glyph
  | g :: row => if g.char == '#' then row.dropWhile (!·.endsLine) else g :: row
  | [] => []

end Glyph

end Yaml

end PipelineTree
