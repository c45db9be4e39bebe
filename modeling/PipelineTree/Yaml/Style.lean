import PipelineTree.Yaml.Plain

/-!
# Style — how a text is written

A text is written plain, in single quotes, in double quotes or as a literal block.  Which forms are
possible depends on what stands in it: its blanks, its line breaks, its indicators and its special
characters.
-/

namespace PipelineTree

namespace Yaml

def isBreak (c : Char) : Bool :=
  c == '\n' || c == '\r' || c == '\x85' || c == '\u2028' || c == '\u2029'

/-- Characters that are written as they are; all others are special. -/
def isPrintable (c : Char) : Bool :=
  let n := c.toNat
  n == 0x0A || (0x20 ≤ n && n ≤ 0x7E) || (0xA0 ≤ n && n ≤ 0xD7FF) ||
    (0xE000 ≤ n && n ≤ 0xFFFD && n != 0xFEFF) || 0x10000 ≤ n

/-- A space, a tab, a line break, the null character, or the end of the text. -/
def endsWord : Option Char → Bool
  | none => true
  | some c => c == ' ' || c == '\t' || isBreak c || c == '\x00'

/-- The written forms of a text. -/
inductive Style where
  | plain
  | singleQuoted
  | doubleQuoted
  | literal
  deriving DecidableEq, Repr

namespace Style

/-- Whether a character at the front of a text, with one after it, is an indicator in a block. -/
def isFrontIndicator (c : Char) (next : Option Char) : Bool :=
  "#,[]\x7b\x7d&*!|>'\"%@\x60".toList.contains c ||
    ((c == '?' || c == ':' || c == '-') && endsWord next)

/-- Whether an inner character is an indicator in a block, given its neighbours. -/
def isInnerIndicator (before c : Char) (next : Option Char) : Bool :=
  (c == ':' && endsWord next) || (c == '#' && endsWord (some before))

def hasInnerIndicator (before : Char) : List Char → Bool
  | [] => false
  | c :: cs => isInnerIndicator before c cs.head? || hasInnerIndicator c cs

/-- Whether a text holds indicators that forbid the plain form in a block. -/
def hasIndicators : List Char → Bool
  | [] => false
  | c :: cs =>
    ['-', '-', '-'].isPrefixOf (c :: cs) || ['.', '.', '.'].isPrefixOf (c :: cs) ||
      isFrontIndicator c cs.head? || hasInnerIndicator c cs

def hasNeighbours (test : Char → Char → Bool) : List Char → Bool
  | a :: b :: cs => test a b || hasNeighbours test (b :: cs)
  | _ => false

def hasSpaceBreak (cs : List Char) : Bool := hasNeighbours (fun a b => a == ' ' && isBreak b) cs

def hasBreakSpace (cs : List Char) : Bool := hasNeighbours (fun a b => isBreak a && b == ' ') cs

/-- Whether a text can only be written in double quotes. -/
def isSpecial (cs : List Char) : Bool := hasSpaceBreak cs || cs.any (!isPrintable ·)

def allowsPlain (cs : List Char) : Bool :=
  !isSpecial cs && !cs.any isBreak && !hasIndicators cs &&
    cs.head? != some ' ' && cs.getLast? != some ' '

def allowsSingleQuoted (cs : List Char) : Bool := !isSpecial cs && !hasBreakSpace cs

def allowsLiteral (cs : List Char) : Bool := !cs.isEmpty && !isSpecial cs && cs.getLast? != some ' '

def ofText (text : String) : Style :=
  let cs := text.toList
  if cs.contains '\n' then
    if allowsLiteral cs then .literal else .doubleQuoted
  else if !Plain.isAmbiguous text && allowsPlain cs then .plain
  else if allowsSingleQuoted cs then .singleQuoted
  else .doubleQuoted

end Style

end Yaml

end PipelineTree
