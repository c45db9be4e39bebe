import PipelineTree.Yaml.Token

/-!
# Label — anchors, tags and directives

An anchor names a node, an alias refers to it, a tag says what sort a node is of, and a directive in
front of a document tells its version or abbreviates tags.
-/

namespace PipelineTree

namespace Yaml

namespace Label

abbrev Labelled := Token × List Glyph

def word (row : List Glyph) : List Char := (row.takeWhile (isWordChar ·.char)).map Glyph.char

def afterWord (row : List Glyph) : List Glyph := row.dropWhile (isWordChar ·.char)

/-- Reads the name of an anchor or an alias, after its indicator. -/
def name (row : List Glyph) : Except Fault (String × List Glyph) :=
  let rest := afterWord row
  let next := Glyph.ahead rest 0
  if (word row).isEmpty then refuse rest .badAnchor
  else if endsWord next || "?:,]\x7d%@\x60".toList.any (next == some ·) then
    .ok (String.ofList (word row), rest)
  else refuse rest .badAnchor

/-! ## Tags -/

/-- Reads a handle: an exclamation mark, a word, and perhaps another exclamation mark. -/
def handle (inDirective : Bool) (row : List Glyph) : Except Fault (List Char × List Glyph) :=
  if Glyph.ahead row 0 == some '!' then
    let named := word (row.drop 1)
    let rest := afterWord (row.drop 1)
    if Glyph.ahead rest 0 == some '!' then .ok ('!' :: named ++ ['!'], rest.drop 1)
    else if inDirective && !named.isEmpty then refuse rest .badHandle
    else .ok ('!' :: named, rest)
  else refuse row .badHandle

/-- Whether a character may stand in a tag; a verbatim tag may hold some more. -/
def isTagChar (verbatim : Bool) (c : Char) : Bool :=
  isWordChar c || ";/?:@&=+$.!~*'()".toList.contains c || (verbatim && ",[]".toList.contains c)

/-- An octet: a percent sign and two hexadecimal digits. -/
def octet? (row : List Glyph) : Option Nat :=
  match (row.take 3).map Glyph.char with
  | ['%', a, b] => digits? 16 [a, b]
  | _ => none

/-- How many octets a character takes, by its first one. -/
def octetCount? (n : Nat) : Option Nat :=
  if n < 0x80 then some 1
  else if 0xC0 ≤ n && n < 0xE0 then some 2
  else if 0xE0 ≤ n && n < 0xF0 then some 3
  else if 0xF0 ≤ n && n < 0xF8 then some 4
  else none

def continuation? : Nat → List Glyph → Option (List Nat)
  | 0, _ => some []
  | count + 1, row => do
    let n ← octet? row
    if n / 64 = 2 then
      let more ← continuation? count (row.drop 3)
      some (n :: more)
    else none

def charOfOctets? (octets : List Nat) : Option Char :=
  (String.fromUTF8? ⟨(octets.map UInt8.ofNat).toArray⟩).bind fun s => s.toList.head?

/-- The octets at the front of a row that make up a character. -/
def octets? (row : List Glyph) : Option (List Nat) := do
  let first ← octet? row
  let count ← octetCount? first
  let more ← continuation? (count - 1) (row.drop 3)
  some (first :: more)

/--
Reads the characters of a tag.  Octets that are no character leave no text.  The characters read so far
are given in reverse.
-/
def tagText (verbatim : Bool) (text : Option (List Char)) (row : List Glyph) :
    Except Fault (Option (List Char) × List Glyph) :=
  match row with
  | [] => .ok (text.map List.reverse, [])
  | g :: more =>
    if g.char == '%' then
      match octets? (g :: more) with
      | none => refuse (g :: more) .badOctet
      | some octets =>
        let extended := text.bind fun cs => (charOfOctets? octets).map (· :: cs)
        tagText verbatim extended (more.drop (3 * octets.length - 1))
    else if isTagChar verbatim g.char then tagText verbatim (text.map (g.char :: ·)) more
    else .ok (text.map List.reverse, g :: more)
termination_by row.length
decreasing_by all_goals (simp only [List.length_cons, List.length_drop]; omega)

def ending (text : Option (List Char)) : Option String :=
  text.map fun cs => String.ofList (cs.takeWhile (· != '\x00'))

def tagParts (row : List Glyph) : Except Fault (Token × List Glyph) :=
  if Glyph.ahead row 1 == some '<' then do
    let inner := row.drop 2
    let (text, rest) ← tagText true (some []) inner
    if rest.length = inner.length || Glyph.ahead rest 0 != some '>' then refuse rest .badTag
    else .ok (.tag "" (ending text), rest.drop 1)
  else do
    let (mark, inner) ← handle false row
    let (text, rest) ← tagText false (some []) inner
    if mark.length > 1 && mark.getLast? == some '!' then
      if rest.length = inner.length then refuse rest .badTag
      else .ok (.tag (String.ofList mark) (ending text), rest)
    else
      match ending (text.map (mark.drop 1 ++ ·)) with
      | some "" => .ok (.tag "" (some "!"), rest)
      | suffix => .ok (.tag "!" suffix, rest)

/-- Reads a tag, which has to be followed by white space. -/
def tag (inFlow : Bool) (row : List Glyph) : Except Fault Labelled := do
  let (token, rest) ← tagParts row
  let next := Glyph.ahead rest 0
  if endsWord next || (inFlow && next == some ',') then .ok (token, rest)
  else refuse rest .badTag

/-! ## Directives -/

def number (row : List Glyph) : Except Fault (Nat × List Glyph) :=
  let digits := (row.takeWhile (·.char.isDigit)).map Glyph.char
  match digits? 10 digits with
  | some n => if digits.length ≤ 9 then .ok (n, row.drop digits.length) else refuse row .badVersion
  | none => refuse row .badVersion

def version (row : List Glyph) : Except Fault Labelled := do
  let (major, rest) ← number (Glyph.dropGap row)
  if Glyph.ahead rest 0 == some '.' then
    let (minor, rest) ← number (rest.drop 1)
    .ok (.version major minor, rest)
  else refuse rest .badVersion

/-- Reads the rest of a directive that abbreviates tags. -/
def abbreviation (row : List Glyph) : Except Fault Labelled := do
  let (mark, rest) ← handle true (Glyph.dropGap row)
  if (Glyph.ahead rest 0).any isGap then
    let inner := Glyph.dropGap rest
    let (text, rest) ← tagText true (some []) inner
    if rest.length = inner.length || !endsWord (Glyph.ahead rest 0) then refuse rest .badTag
    else .ok (.abbreviation (String.ofList mark) ((ending text).getD ""), rest)
  else refuse rest .badHandle

/-- Reads a directive, after its indicator, to the end of its line. -/
def directive (row : List Glyph) : Except Fault Labelled := do
  let rest := afterWord row
  if !endsWord (Glyph.ahead rest 0) then refuse rest .badDirective
  else
    let (token, rest) ← match String.ofList (word row) with
      | "YAML" => version rest
      | "TAG" => abbreviation rest
      | _ => refuse rest .badDirective
    match Glyph.dropComment (Glyph.dropGap rest) with
    | g :: more =>
      if isBreak g.char then .ok (token, more)
      else if g.isEnd then .ok (token, g :: more)
      else refuse (g :: more) .badDirective
    | [] => .ok (token, [])

end Label

end Yaml

end PipelineTree
