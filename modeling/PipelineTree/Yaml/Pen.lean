import PipelineTree.Yaml.Style

/-!
# Pen — writing characters, lines and indentation

A pen knows what has been written and where it stands.  Blanks and line breaks are written late: only
when the next thing needs them.
-/

namespace PipelineTree

namespace Yaml

/-- What has been written, and where the pen stands. -/
structure Pen where
  text : String
  column : Nat
  /-- a blank stands before the pen, or nothing at all -/
  spaced : Bool
  /-- only indentation and block indicators stand on the line -/
  fresh : Bool

namespace Pen

def start : Pen := ⟨"", 0, true, true⟩

def put (pen : Pen) (c : Char) : Pen := { pen with text := pen.text.push c, column := pen.column + 1 }

def putBreak (pen : Pen) (c : Char) : Pen := { pen with text := pen.text.push c, column := 0 }

def puts (pen : Pen) (cs : List Char) : Pen := cs.foldl put pen

/-- Goes to a column at the front of a line, on a new line if something stands on this one. -/
def indentTo (pen : Pen) (column : Nat) : Pen :=
  let pen :=
    if !pen.fresh || column < pen.column || (pen.column == column && !pen.spaced) then
      pen.putBreak '\n'
    else pen
  let pen := pen.puts (List.replicate (column - pen.column) ' ')
  { pen with spaced := true, fresh := true }

/-- Writes an indicator after a blank; `fresh` if it is a block indicator. -/
def mark (pen : Pen) (indicator : String) (fresh : Bool) : Pen :=
  let pen := if pen.spaced then pen else pen.put ' '
  let pen := pen.puts indicator.toList
  { pen with spaced := false, fresh := pen.fresh && fresh }

def attach (pen : Pen) (indicator : String) : Pen :=
  let pen := pen.puts indicator.toList
  { pen with spaced := false, fresh := false }

/-! ## Scalars -/

def plain (pen : Pen) (text : String) : Pen :=
  if text.isEmpty then { pen with spaced := false, fresh := false } else pen.mark text false

/-- Writes the inside of a text that may span lines, one line break as two. -/
def foldedChars (column : Nat) : (pen : Pen) → (inBreaks : Bool) → List Char → Pen
  | pen, inBreaks, [] => if inBreaks then pen.indentTo column else pen
  | pen, inBreaks, c :: cs =>
    if isBreak c then
      let pen := if !inBreaks && c == '\n' then pen.putBreak '\n' else pen
      foldedChars column { pen.putBreak c with fresh := true } true cs
    else if c == ' ' then foldedChars column (pen.put c) inBreaks cs
    else
      let pen := if inBreaks then pen.indentTo column else pen
      let pen := if c == '\'' then pen.put c else pen
      foldedChars column { pen.put c with fresh := false } false cs

/-- Writes a text in single quotes; a quote inside is written twice. -/
def singleQuoted (pen : Pen) (column : Nat) (text : String) : Pen :=
  (foldedChars column (pen.mark "'" false) false text.toList).attach "'"

/-- The digits of a number in radix sixteen, in capitals, padded with zeros. -/
def hexDigits (width n : Nat) : List Char :=
  let digits := (Nat.toDigits 16 n).map Char.toUpper
  List.replicate (width - digits.length) '0' ++ digits

def shortEscape? (c : Char) : Option Char :=
  [ ('\x00', '0'), ('\x07', 'a'), ('\x08', 'b'), ('\t', 't'), ('\n', 'n'), ('\x0b', 'v'),
    ('\x0c', 'f'), ('\r', 'r'), ('\x1b', 'e'), ('"', '"'), ('\\', '\\'), ('\x85', 'N'),
    ('\u00a0', '_'), ('\u2028', 'L'), ('\u2029', 'P') ].lookup c

def quotedChar (c : Char) : List Char :=
  if isPrintable c && !isBreak c && c != '"' && c != '\\' then [c]
  else
    match shortEscape? c with
    | some e => ['\\', e]
    | none =>
      if c.toNat ≤ 0xFF then '\\' :: 'x' :: hexDigits 2 c.toNat
      else if c.toNat ≤ 0xFFFF then '\\' :: 'u' :: hexDigits 4 c.toNat
      else '\\' :: 'U' :: hexDigits 8 c.toNat

def doubleQuoted (pen : Pen) (text : String) : Pen :=
  ((pen.mark "\"" false).puts (text.toList.flatMap quotedChar)).attach "\""

/-- What stands after the bar of a literal block: an indentation hint, and what to do with the end. -/
def literalHints (cs : List Char) : String :=
  let indentation := match cs with
    | c :: _ => if c == ' ' || isBreak c then "2" else ""
    | [] => ""
  let ending := match cs.reverse with
    | last :: before =>
      if !isBreak last then "-"
      else match before with
        | [] => "+"
        | c :: _ => if isBreak c then "+" else ""
    | [] => "-"
  indentation ++ ending

def literalChars (column : Nat) : (pen : Pen) → (inBreaks : Bool) → List Char → Pen
  | pen, _, [] => pen
  | pen, inBreaks, c :: cs =>
    if isBreak c then literalChars column { pen.putBreak c with fresh := true } true cs
    else
      let pen := if inBreaks then pen.indentTo column else pen
      literalChars column { pen.put c with fresh := false } false cs

def literal (pen : Pen) (column : Nat) (text : String) : Pen :=
  let pen := (pen.mark "|" false).attach (literalHints text.toList)
  let pen := pen.putBreak '\n'
  literalChars column { pen with spaced := true, fresh := true } true text.toList

/-- Writes a text in the form that suits it; lines inside it start at a column. -/
def scalar (pen : Pen) (column : Nat) (text : String) : Pen :=
  match Style.ofText text with
  | .plain => pen.plain text
  | .singleQuoted => pen.singleQuoted column text
  | .doubleQuoted => pen.doubleQuoted text
  | .literal => pen.literal column text

/-! ## Tags -/

def isTagByte (b : UInt8) : Bool :=
  let c := Char.ofNat b.toNat
  c.isAlphanum || "-_;/?:@&=+$,.~*'()[]!".toList.contains c

/-- The written form of a tag's name; other bytes are written by their numbers. -/
def tagChars (name : String) : List Char :=
  name.toUTF8.toList.flatMap fun b =>
    if isTagByte b then [Char.ofNat b.toNat] else '%' :: hexDigits 2 b.toNat

def bareTag (tag : String) : String := if tag.startsWith "!" then tag else "!" ++ tag

def tagText (tag : String) : String :=
  match (bareTag tag).toList with
  | _ :: c :: name => "!" ++ String.ofList (tagChars (String.ofList (c :: name)))
  | _ => "!<!>"

def tag? (pen : Pen) : Option String → Pen
  | none => pen
  | some tag => pen.mark (tagText tag) false

end Pen

end Yaml

end PipelineTree
