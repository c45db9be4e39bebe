import PipelineTree.Yaml.Block
import PipelineTree.Yaml.Label

/-!
# Lexer — from glyphs to tokens

The lexer keeps the indentation of the open block collections, and for each open flow collection (and
for the block level) the place where a key may have begun.  Only the colon after it shows that it was
one; then the tokens that open a mapping and a key are put where the key began.  A key without an
indicator stands on one line and has at most 1024 characters before its colon.

Whoever reads the tokens waits before such a place until it is settled.  So when a text turns out to be
wrong, the tokens from the first unsettled place on are not part of what was read (`Lexed.tokens`).
-/

namespace PipelineTree

namespace Yaml

/-- A place where a key may have begun. -/
structure KeyStart where
  /-- whether nothing else can stand there -/
  required : Bool
  /-- the number of tokens in front -/
  number : Nat
  glyph : Glyph
  deriving Repr

/-- What has been read of a text, and what is left. -/
structure Lexer where
  row : List Glyph
  /-- the tokens so far, the last one first -/
  tokens : List Token
  count : Nat
  /-- the column of the innermost block collection, or -1 -/
  indent : Int
  /-- the columns of the block collections around it -/
  outer : List Int
  /-- whether a key may begin here -/
  keyAllowed : Bool
  /-- the places where keys may have begun, the innermost flow collection first -/
  keys : List (Option KeyStart)

namespace Lexer

def start (row : List Glyph) : Lexer := ⟨row, [], 0, -1, [], true, [none]⟩

def inFlow (l : Lexer) : Bool := 1 < l.keys.length

def here (l : Lexer) : Glyph := Glyph.here l.row

def push (l : Lexer) (token : Token) : Lexer :=
  { l with tokens := token :: l.tokens, count := l.count + 1 }

def insert (l : Lexer) (number : Nat) (token : Token) : Lexer :=
  let later := l.count - number
  { l with
    tokens := l.tokens.take later ++ token :: l.tokens.drop later, count := l.count + 1 }

def skip (l : Lexer) (n : Nat) : Lexer := { l with row := l.row.drop n }

/-! ## Keys -/

def isStale (l : Lexer) (k : KeyStart) : Bool :=
  k.glyph.line < l.here.line || k.glyph.index + 1024 < l.here.index

def dropStale (l : Lexer) : Except Fault Lexer :=
  if l.keys.any fun k => k.any fun k => l.isStale k && k.required then refuse l.row .missingColon
  else .ok { l with keys := l.keys.map fun k => k.filter (!l.isStale ·) }

def forgetKey (l : Lexer) : Except Fault Lexer :=
  match l.keys with
  | some k :: keys =>
    if k.required then refuse l.row .missingColon else .ok { l with keys := none :: keys }
  | _ => .ok l

def markKey (l : Lexer) : Except Fault Lexer :=
  if l.keyAllowed then do
    let l ← l.forgetKey
    let place := ⟨!l.inFlow && l.indent == l.here.column, l.count, l.here⟩
    .ok { l with keys := some place :: l.keys.drop 1 }
  else .ok l

def settled (l : Lexer) : Nat :=
  (l.keys.filterMap (·.map KeyStart.number)).foldl min l.count

/-! ## Indentation -/

/-- Opens a block collection at a column, unless one is open there. -/
def openBlock (l : Lexer) (column : Nat) (number : Option Nat) (token : Token) : Lexer :=
  if !l.inFlow && l.indent < column then
    let l := { l with outer := l.indent :: l.outer, indent := column }
    match number with
    | some number => l.insert number token
    | none => l.push token
  else l

/-- Closes the block collections to the right of a column. -/
def closeBlocks (column : Int) (indent : Int) (tokens : List Token) (count : Nat) :
    List Int → Int × List Int × List Token × Nat
  | [] => (indent, [], tokens, count)
  | before :: outer =>
    if column < indent then closeBlocks column before (.blockEnd :: tokens) (count + 1) outer
    else (indent, before :: outer, tokens, count)

/-- Closes the block collections to the right of a column, outside flow collections. -/
def unroll (l : Lexer) (column : Int) : Lexer :=
  if l.inFlow then l
  else
    let (indent, outer, tokens, count) := closeBlocks column l.indent l.tokens l.count l.outer
    { l with indent := indent, outer := outer, tokens := tokens, count := count }

/-! ## White space -/

/-- Passes over white space and comments; after a line break a key may begin. -/
def toToken (inFlow keyAllowed : Bool) (row : List Glyph) : Bool × List Glyph :=
  match row with
  | [] => (keyAllowed, [])
  | g :: row =>
    if g.column == 0 && g.char == byteOrderMark then toToken inFlow keyAllowed row
    else if g.char == ' ' || ((inFlow || !keyAllowed) && g.char == '\t') then
      toToken inFlow keyAllowed row
    else if g.char == '#' then toToken inFlow keyAllowed (row.dropWhile (!·.endsLine))
    else if isBreak g.char then toToken inFlow (keyAllowed || !inFlow) row
    else (keyAllowed, g :: row)
termination_by row.length
decreasing_by
  all_goals simp only [List.length_cons]
  · omega
  · omega
  · have := (List.dropWhile_sublist (fun g : Glyph => !g.endsLine) (l := row)).length_le
    omega
  · omega

def skipSpace (l : Lexer) : Lexer :=
  let (keyAllowed, row) := toToken l.inFlow l.keyAllowed l.row
  { l with keyAllowed := keyAllowed, row := row }

/-! ## Tokens -/

/-- Adds the token of one glyph, after which a key may or may not begin. -/
def single (l : Lexer) (token : Token) (keyAllowed : Bool) : Lexer :=
  { (l.skip 1).push token with keyAllowed := keyAllowed }

/-- Ends the document or the text: no block collection stays open. -/
def endBlocks (l : Lexer) : Except Fault Lexer := do
  let l ← (l.unroll (-1)).forgetKey
  .ok { l with keyAllowed := false }

def openFlow (l : Lexer) (token : Token) : Except Fault Lexer := do
  let l ← l.markKey
  .ok ({ l with keys := none :: l.keys }.single token true)

def closeFlow (l : Lexer) (token : Token) : Except Fault Lexer := do
  let l ← l.forgetKey
  let keys := if l.inFlow then l.keys.drop 1 else l.keys
  .ok ({ l with keys := keys }.single token false)

/-- An indicator before an entry or a key; outside flow collections it may open a block collection. -/
def indicate (l : Lexer) (token block : Token) (problem : Problem) (keyAllowed : Bool) :
    Except Fault Lexer :=
  if !l.inFlow && !l.keyAllowed then refuse l.row problem
  else do
    let l ← (l.openBlock l.here.column none block).forgetKey
    .ok (l.single token keyAllowed)

def value (l : Lexer) : Except Fault Lexer :=
  match l.keys with
  | some k :: keys =>
    let l := { (l.insert k.number .key) with keys := none :: keys }
    .ok ((l.openBlock k.glyph.column (some k.number) .blockMapping).single .value false)
  | _ =>
    if !l.inFlow && !l.keyAllowed then refuse l.row .strayValue
    else .ok ((l.openBlock l.here.column none .blockMapping).single .value (!l.inFlow))

/-- Adds the token that a reader finds after an indicator. -/
def labelled (l : Lexer) (read : List Glyph → Except Fault (Token × List Glyph)) :
    Except Fault Lexer := do
  let (token, rest) ← read l.row
  .ok ({ l with row := rest }.push token)

def flowScalar (l : Lexer) (form : ScalarForm) (read : List Glyph → Except Fault Scanned) :
    Except Fault Lexer := do
  let l ← l.markKey
  let scalar ← read l.row
  .ok ({ l with row := scalar.rest, keyAllowed := scalar.broken }.push
    (.scalar form (String.ofList scalar.text)))

def blockScalar (l : Lexer) (form : ScalarForm) : Except Fault Lexer := do
  let l ← l.forgetKey
  let scalar ← Block.read (form == .folded) l.indent (l.row.drop 1)
  .ok ({ l with row := scalar.rest, keyAllowed := true }.push
    (.scalar form (String.ofList scalar.text)))

/-- An anchor, an alias or a tag, before which a key may begin. -/
def property (l : Lexer) (read : List Glyph → Except Fault (Token × List Glyph)) :
    Except Fault Lexer := do
  let l ← l.markKey
  { l with keyAllowed := false }.labelled read

/-- Whether a plain scalar may begin at the front of a row. -/
def beginsPlain (inFlow : Bool) (row : List Glyph) : Bool :=
  let c := Glyph.ahead row 0
  let next := Glyph.ahead row 1
  !(endsWord c || "-?:,[]\x7b\x7d#&*!|>'\"%@\x60".toList.any (c == some ·)) ||
    (c == some '-' && !(next.any isGap)) ||
    (!inFlow && (c == some '?' || c == some ':') && !endsWord next)

/-- Reads the token at the front of a row that begins with a character other than white space. -/
def fetchAt (l : Lexer) (c : Char) : Except Fault Lexer :=
  let spaced := endsWord (Glyph.ahead l.row 1)
  let inFlow := l.inFlow
  if c == '%' && l.here.column == 0 then do
    let l ← l.endBlocks
    l.labelled fun row => Label.directive (row.drop 1)
  else if l.here.column == 0 && Glyph.isMarker l.row '-' then do
    let l ← l.endBlocks
    .ok ((l.skip 3).push .documentStart)
  else if l.here.column == 0 && Glyph.isMarker l.row '.' then do
    let l ← l.endBlocks
    .ok ((l.skip 3).push .documentEnd)
  else if c == '[' then l.openFlow .flowSequence
  else if c == '{' then l.openFlow .flowMapping
  else if c == ']' then l.closeFlow .flowSequenceEnd
  else if c == '}' then l.closeFlow .flowMappingEnd
  else if c == ',' then do
    let l ← l.forgetKey
    .ok (l.single .flowEntry true)
  else if c == '-' && spaced then l.indicate .blockEntry .blockSequence .strayEntry true
  else if c == '?' && (inFlow || spaced) then
    l.indicate .key .blockMapping .strayKey (!inFlow)
  else if c == ':' && (inFlow || spaced) then l.value
  else if c == '*' then
    l.property fun row => (Label.name (row.drop 1)).map fun (name, rest) => (.alias name, rest)
  else if c == '&' then
    l.property fun row => (Label.name (row.drop 1)).map fun (name, rest) => (.anchor name, rest)
  else if c == '!' then l.property (Label.tag inFlow)
  else if c == '|' && !inFlow then l.blockScalar .literal
  else if c == '>' && !inFlow then l.blockScalar .folded
  else if c == '\'' then
    l.flowScalar .quoted fun row => Scanned.singleQuoted [] Gap.none (row.drop 1)
  else if c == '"' then
    l.flowScalar .quoted fun row => Scanned.doubleQuoted [] Gap.none (row.drop 1)
  else if beginsPlain inFlow l.row then
    l.flowScalar .plain (Scanned.plain inFlow (l.indent + 1).toNat [] Gap.none)
  else refuse l.row .strayCharacter

def fetch (l : Lexer) : Except Fault Lexer := do
  let l ← l.skipSpace.dropStale
  let l := l.unroll l.here.column
  if l.here.isEnd then
    let l ← l.endBlocks
    .ok (l.push .streamEnd)
  else l.fetchAt l.here.char

end Lexer

/-- The tokens that were read of a text, and what is wrong with the text after them. -/
structure Lexed where
  tokens : List Token
  fault : Option Fault

namespace Lexed

def cut (l : Lexer) (number : Nat) (fault : Fault) : Lexed :=
  ⟨l.tokens.reverse.take number, some fault⟩

/--
The tokens at the end of a text.  The end is past every line, so a place where nothing but a key can
stand, and which is still unsettled, is a fault.
-/
def finish (l : Lexer) : Lexed :=
  if l.keys.any fun k => k.any KeyStart.required then
    cut l l.settled ⟨.missingColon, l.here.line, l.here.column⟩
  else ⟨l.tokens.reverse, none⟩

/-- Reads tokens to the end. There are at most `steps` of them, for every step passes over a glyph. -/
def run (l : Lexer) (settled : Nat) : (steps : Nat) → Lexed
  | 0 => ⟨l.tokens.reverse, none⟩
  | steps + 1 =>
    match l.dropStale with
    | .error fault => cut l settled fault
    | .ok l =>
      match l.fetch with
      | .error fault => cut l l.settled fault
      | .ok next =>
        if next.tokens.head? == some .streamEnd then finish next
        else run next l.settled steps

def ofText (text : List Char) : Lexed :=
  if text.all isAllowed then
    let row := Glyph.ofText text
    run (Lexer.start row) 0 row.length
  else ⟨[], some ⟨.forbiddenCharacter, 0, 0⟩⟩

end Lexed

end Yaml

end PipelineTree
