import PipelineTree.Yaml.Lexer

/-!
# Event — from tokens to events

Events say what the tokens mean: scalars, aliases, and the beginnings and ends of collections.  Empty
nodes have become empty plain scalars, and tags are resolved.  The grammar is a machine with a stack of
states (`Grammar.step`); each step yields one event.
-/

namespace PipelineTree

namespace Yaml

/-- An anchor and a tag, in front of a node. -/
structure Properties where
  anchor : Option String
  tag : Option String
  deriving DecidableEq, Repr

/-- What the tokens mean. -/
inductive Event where
  | documentStart
  | documentEnd
  | alias (name : String)
  | scalar (properties : Properties) (form : ScalarForm) (text : String)
  | sequenceStart (properties : Properties)
  | sequenceEnd
  | mappingStart (properties : Properties)
  | mappingEnd
  deriving DecidableEq, Repr

/-- What the grammar expects next. -/
inductive Expected where
  | document
  | documentContent
  | documentEnd
  | blockNode
  | blockEntry
  | plainEntry
  | blockKey
  | blockValue
  | flowEntry (first : Bool)
  | pairKey
  | pairValue
  | pairEnd
  | flowKey (first : Bool)
  | flowValue (empty : Bool)
  | nothing
  deriving DecidableEq, Repr

/-- The tokens still to come, and what is expected of them. -/
structure Grammar where
  tokens : List Token
  expected : Expected
  /-- what is expected after the collections that are open -/
  after : List Expected
  /-- the abbreviations of tags -/
  handles : List (String × String)
  deriving Repr

namespace Grammar

/-- Why there is no next event: there is no token, or it is none of those that may stand there. -/
abbrev Step := Except Problem (Event × Grammar)

/-- The token in front. No token is there where the text is wrong. -/
def peek (g : Grammar) : Except Problem Token :=
  match g.tokens with
  | token :: _ => .ok token
  | [] => .error .missingNode

def skip (g : Grammar) : Grammar := { g with tokens := g.tokens.drop 1 }

def expect (g : Grammar) (expected : Expected) : Grammar := { g with expected := expected }

def defer (g : Grammar) (expected : Expected) : Grammar := { g with after := expected :: g.after }

def resume (g : Grammar) : Grammar :=
  { g with expected := g.after.headD .nothing, after := g.after.drop 1 }

def emptyNode : Event := .scalar ⟨none, none⟩ .plain ""

def tagText (g : Grammar) (handle : String) (suffix : Option String) :
    Except Problem (Option String) :=
  if handle.isEmpty then .ok suffix
  else
    match g.handles.lookup handle with
    | none => .error .unknownHandle
    | some lead =>
      match suffix with
      | some suffix => .ok (some (lead ++ suffix))
      | none => .ok (if lead.toList.head? == some '!' then none else some lead)

def properties (g : Grammar) : Except Problem (Properties × Grammar) :=
  match g.tokens with
  | .anchor name :: .tag handle suffix :: _ => do
    let _ ← g.skip.skip.peek
    let tag ← g.tagText handle suffix
    .ok (⟨some name, tag⟩, g.skip.skip)
  | .tag handle suffix :: .anchor name :: _ => do
    let _ ← g.skip.skip.peek
    let tag ← g.tagText handle suffix
    .ok (⟨some name, tag⟩, g.skip.skip)
  | .anchor name :: _ => .ok (⟨some name, none⟩, g.skip)
  | .tag handle suffix :: _ => do
    let _ ← g.skip.peek
    let tag ← g.tagText handle suffix
    .ok (⟨none, tag⟩, g.skip)
  | _ => .ok (⟨none, none⟩, g)

/-- Reads a node: `block` if block collections may begin, `plainEntries` if entries may begin as well. -/
def node (g : Grammar) (block plainEntries : Bool) : Step := do
  match ← g.peek with
  | .alias name => .ok (.alias name, g.skip.resume)
  | _ =>
    let (properties, g) ← g.properties
    match ← g.peek with
    | .scalar form text => .ok (.scalar properties form text, g.skip.resume)
    | .flowSequence => .ok (.sequenceStart properties, g.skip.expect (.flowEntry true))
    | .flowMapping => .ok (.mappingStart properties, g.skip.expect (.flowKey true))
    | token =>
      if plainEntries && token == .blockEntry then
        .ok (.sequenceStart properties, g.expect .plainEntry)
      else if block && token == .blockSequence then
        .ok (.sequenceStart properties, g.skip.expect .blockEntry)
      else if block && token == .blockMapping then
        .ok (.mappingStart properties, g.skip.expect .blockKey)
      else if properties.anchor.isSome || properties.tag.isSome then
        .ok (.scalar properties .plain "", g.resume)
      else .error .missingNode

/-- A node, or an empty one if one of some tokens follows; then something else is expected. -/
def nodeUnless (g : Grammar) (ends : List Token) (next : Expected) (block plainEntries : Bool) :
    Step := do
  let token ← g.peek
  if ends.contains token then .ok (emptyNode, g.expect next)
  else (g.defer next).node block plainEntries

/-! ## Documents -/

def directives (handles : List (String × String)) (versioned : Bool) :
    List Token → Except Problem (List (String × String) × List Token)
  | .version major minor :: tokens =>
    if versioned then .error .repeatedDirective
    else if major = 1 ∧ (minor = 1 ∨ minor = 2) then directives handles true tokens
    else .error .badVersion
  | .abbreviation handle lead :: tokens =>
    if (handles.lookup handle).isSome then .error .repeatedDirective
    else directives (handles ++ [(handle, lead)]) versioned tokens
  | tokens => .ok (handles, tokens)

/-- The abbreviations that hold in every document, unless it declares them itself. -/
def commonHandles : List (String × String) := [("!", "!"), ("!!", "tag:yaml.org,2002:")]

/-- Whether a token begins a document with an indicator, or ends the text. -/
def isExplicit : Token → Bool
  | .version .. | .abbreviation .. | .documentStart | .streamEnd => true
  | _ => false

def document (g : Grammar) : Step := do
  let token ← g.peek
  if isExplicit token then
    let (handles, tokens) ← directives [] false g.tokens
    let g := { g with tokens := tokens, handles := handles ++ commonHandles }
    match ← g.peek with
    | .documentStart => .ok (.documentStart, (g.skip.defer .documentEnd).expect .documentContent)
    | _ => .error .missingDocumentStart
  else
    let g := { g with handles := commonHandles }
    .ok (.documentStart, (g.defer .documentEnd).expect .blockNode)

/-- Reads the content of a document, which may be missing. -/
def documentContent (g : Grammar) : Step := do
  let token ← g.peek
  if isExplicit token || token == .documentEnd then .ok (emptyNode, g.resume)
  else g.node true false

def documentEnd (g : Grammar) : Step := do
  let token ← g.peek
  let g := if token == .documentEnd then g.skip else g
  .ok (.documentEnd, g.expect .nothing)

/-! ## Block collections -/

def blockEntry (g : Grammar) : Step := do
  match ← g.peek with
  | .blockEntry => g.skip.nodeUnless [.blockEntry, .blockEnd] .blockEntry true false
  | .blockEnd => .ok (.sequenceEnd, g.skip.resume)
  | _ => .error .missingEntry

/-- Reads an entry of a sequence that is not indented, or its end. -/
def plainEntry (g : Grammar) : Step := do
  match ← g.peek with
  | .blockEntry =>
    g.skip.nodeUnless [.blockEntry, .key, .value, .blockEnd] .plainEntry true false
  | _ => .ok (.sequenceEnd, g.resume)

def blockKey (g : Grammar) : Step := do
  match ← g.peek with
  | .key => g.skip.nodeUnless [.key, .value, .blockEnd] .blockValue true true
  | .blockEnd => .ok (.mappingEnd, g.skip.resume)
  | _ => .error .missingKey

/-- Reads a value of a block mapping, which may be missing. -/
def blockValue (g : Grammar) : Step := do
  match ← g.peek with
  | .value => g.skip.nodeUnless [.key, .value, .blockEnd] .blockKey true true
  | _ => .ok (emptyNode, g.expect .blockKey)

/-! ## Flow collections -/

def comma (g : Grammar) (first : Bool) (closing : Token) : Except Problem Grammar := do
  let token ← g.peek
  if first || token == closing then .ok g
  else if token == .flowEntry then .ok g.skip
  else .error .missingComma

def flowEntry (g : Grammar) (first : Bool) : Step := do
  let g ← g.comma first .flowSequenceEnd
  match ← g.peek with
  | .flowSequenceEnd => .ok (.sequenceEnd, g.skip.resume)
  | .key => .ok (.mappingStart ⟨none, none⟩, g.skip.expect .pairKey)
  | _ => (g.defer (.flowEntry false)).node false false

/-- Reads the key of a pair in a flow sequence. A missing key takes the token in its place with it. -/
def pairKey (g : Grammar) : Step := do
  let token ← g.peek
  if [Token.value, .flowEntry, .flowSequenceEnd].contains token then
    .ok (emptyNode, g.skip.expect .pairValue)
  else (g.defer .pairValue).node false false

/-- Reads the value of a pair in a flow sequence, which may be missing. -/
def pairValue (g : Grammar) : Step := do
  match ← g.peek with
  | .value => g.skip.nodeUnless [.flowEntry, .flowSequenceEnd] .pairEnd false false
  | _ => .ok (emptyNode, g.expect .pairEnd)

/-- Ends a pair in a flow sequence, if the text goes on. -/
def pairEnd (g : Grammar) : Step := do
  let _ ← g.peek
  .ok (.mappingEnd, g.expect (.flowEntry false))

def flowKey (g : Grammar) (first : Bool) : Step := do
  let g ← g.comma first .flowMappingEnd
  match ← g.peek with
  | .flowMappingEnd => .ok (.mappingEnd, g.skip.resume)
  | .key =>
    g.skip.nodeUnless [.value, .flowEntry, .flowMappingEnd] (.flowValue false) false false
  | _ => (g.defer (.flowValue true)).node false false

/-- Reads a value of a flow mapping, which may be missing. -/
def flowValue (g : Grammar) (empty : Bool) : Step := do
  let token ← g.peek
  if !empty && token == .value then
    g.skip.nodeUnless [.flowEntry, .flowMappingEnd] (.flowKey false) false false
  else .ok (emptyNode, g.expect (.flowKey false))

/-- Reads the next event, unless nothing more is expected. -/
def step (g : Grammar) : Option Step :=
  match g.expected with
  | .document => some g.document
  | .documentContent => some g.documentContent
  | .documentEnd => some g.documentEnd
  | .blockNode => some (g.node true false)
  | .blockEntry => some g.blockEntry
  | .plainEntry => some g.plainEntry
  | .blockKey => some g.blockKey
  | .blockValue => some g.blockValue
  | .flowEntry first => some (g.flowEntry first)
  | .pairKey => some g.pairKey
  | .pairValue => some g.pairValue
  | .pairEnd => some g.pairEnd
  | .flowKey first => some (g.flowKey first)
  | .flowValue empty => some (g.flowValue empty)
  | .nothing => none

end Grammar

/-- The events of the first document of a text, and what is wrong with the text after them. -/
structure Parsed where
  events : List Event
  problem : Option Problem
  /-- the tokens after the document -/
  rest : List Token

namespace Parsed

/-- Reads events, the last one first, to the end of the document. -/
def run (g : Grammar) (events : List Event) : (steps : Nat) → Parsed
  | 0 => ⟨events.reverse, none, g.tokens⟩
  | steps + 1 =>
    match g.step with
    | none => ⟨events.reverse, none, g.tokens⟩
    | some (.ok (event, next)) => run next (event :: events) steps
    | some (.error problem) => ⟨events.reverse, some problem, g.tokens⟩

/--
The events of the first document.  Each token yields at most two events, apart from the beginning and the
end of the document and the ends of collections, of which there are no more than beginnings.
-/
def ofTokens (tokens : List Token) : Parsed :=
  run ⟨tokens, .document, [], []⟩ [] (4 * tokens.length + 8)

def isLast (p : Parsed) : Bool :=
  p.rest.dropWhile (· == .documentEnd) == [.streamEnd]

end Parsed

end Yaml

end PipelineTree
