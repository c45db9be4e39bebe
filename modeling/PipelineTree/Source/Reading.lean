import PipelineTree.Source.Draft
import PipelineTree.Yaml.Plain

/-!
# Reading — what drafts mean

Drafts are read as values, as dictionaries and as records with known fields.  The first thing that is
wrong, in the order of the text, is reported.  References to anchored parts are followed as often as
the size of the text allows, so that a small text cannot unfold into a huge value; and collections
nest only as deep as the format allows, so that a part that holds itself is refused.
-/

namespace PipelineTree

abbrev Reading (α : Type) := StateT Nat (Except ReadFault) α

abbrev Place := List String

namespace Reading

variable {α : Type}

def placeText (place : Place) : String := String.intercalate "." place

def refuse (text : String) : Reading α := throw (.other text)

def breakOff (source : Source) : Reading α :=
  refuse (source.fault.getD "unexpected end of text")

/-- Refuses a text for a fault in the fields of a record. -/
def refuseField (source : Source) (place : Place) (fault : FieldFault) : Reading α :=
  throw (.field (if source.dialect.placed then placeText place else "") fault)

def countReference (source : Source) : Reading Unit := do
  let count ← get
  if count + 1 > source.size * 100 then refuse "repetition limit exceeded" else set (count + 1)

/-- Follows a reference, if the draft is one; the second part tells whether it was. -/
def follow (source : Source) (draft : Draft) : Reading (Draft × Bool) :=
  match draft with
  | .alias id => do
    countReference source
    match source.anchors.lookup id with
    | some target => pure (target, true)
    | none => refuse "unknown anchor"
  | draft => pure (draft, false)

/-! ## Scalars -/

def plainValue (text : String) : Reading Value :=
  match Yaml.Plain.read text with
  | .null => pure .null
  | .bool b => pure (.bool b)
  | .int n => pure (.number (.int n))
  | .float x => pure (.number (.float x))
  | .text => pure (.text text)
  | .wideInt => refuse "invalid type: integer of more than 64 bits"

/-- The value of a scalar whose sort does not depend on a tag. -/
def untaggedValue (form : ScalarForm) (text : String) : Reading Value :=
  if form == .plain then plainValue text else pure (.text text)

/-- The name of a tag that marks a value: what follows its exclamation mark, if anything does. -/
def tagName? (tag : String) : Option String :=
  match tag.toList with
  | ['!'] => some "!"
  | '!' :: name => some (String.ofList name)
  | _ => none

/-- The value of a scalar with a tag that does not mark it; a few such tags demand a sort. -/
def sortedValue (tag text : String) : Reading Value :=
  match tag with
  | "tag:yaml.org,2002:bool" =>
    match Yaml.Plain.bool? text with
    | some b => pure (.bool b)
    | none => refuse "invalid value: expected a boolean"
  | "tag:yaml.org,2002:int" =>
    match Yaml.Plain.int? text.toList with
    | some n =>
      if Yaml.Plain.fits n then pure (.number (.int n))
      else refuse "invalid type: integer of more than 64 bits"
    | none => refuse "invalid value: expected an integer"
  | "tag:yaml.org,2002:float" =>
    match Yaml.Plain.float? text with
    | some x => pure (.number (.float x))
    | none => refuse "invalid value: expected a float"
  | "tag:yaml.org,2002:null" =>
    if Yaml.Plain.isNull text then pure .null else refuse "invalid value: expected null"
  | _ => pure (.text text)

/-! ## Values -/

/-- Reads keys and values in turn. A key stands only once. -/
def entries (source : Source) (key value : Draft → Reading Value) (complete : Bool)
    (done : Mapping) : List Draft → Reading Value
  | k :: parts => do
    let name ← key k
    if Entries.contains name done then refuse "duplicate entry"
    else
      match parts with
      | v :: rest => do
        let content ← value v
        entries source key value complete ((name, content) :: done) rest
      | [] => breakOff source
  | [] => if complete then pure (.mapping done.reverse) else breakOff source

def sequence (source : Source) (item : Draft → Reading Value) (complete : Bool)
    (items : List Draft) : Reading Value := do
  let values ← items.mapM item
  if complete then pure (.sequence values) else breakOff source

/-- Marks a value with the name of its tag, if it has one; `read` reads the value itself. -/
def marked (tagged : Bool) (tag : Option String) (read : (tagged : Bool) → Reading Value) :
    Reading Value :=
  match if tagged then none else tag.bind tagName? with
  | some name => .tagged name <$> read true
  | none => read tagged

/--
Reads a draft as a value, with so many levels of collections left.  `tagged` says that the draft's tag
has been read already; the keys of a mapping under a tag count as tagged too.
-/
def value (source : Source) : (left : Nat) → (tagged : Bool) → Draft → Reading Value
  | 0, tagged, draft => do
    let (draft, jumped) ← follow source draft
    match draft with
    | .atom v => pure v
    | .scalar tag form text => scalar (tagged && !jumped) tag form text
    | _ => refuse "recursion limit exceeded"
  | left + 1, tagged, draft => do
    let (draft, jumped) ← follow source draft
    let tagged := tagged && !jumped
    match draft with
    | .atom v => pure v
    | .scalar tag form text => scalar tagged tag form text
    | .sequence tag items complete =>
      marked tagged tag fun _ => sequence source (value source left false) complete items
    | .mapping tag parts complete =>
      marked tagged tag fun tagged =>
        entries source (value source left tagged) (value source left false) complete [] parts
    | .alias _ => refuse "unknown anchor"
where
  /-- Reads a scalar. -/
  scalar (tagged : Bool) (tag : Option String) (form : ScalarForm) (text : String) :
      Reading Value :=
    marked tagged tag fun tagged =>
      match if tagged then none else tag with
      | some tag => sortedValue tag text
      | none => untaggedValue form text

def text (source : Source) (draft : Draft) : Reading String := do
  match ← follow source draft with
  | (.scalar _ _ text, _) => pure text
  | (.atom (.text text), _) => pure text
  | _ => refuse "invalid type: expected a string"

/-- Reads a draft as a number that is not negative and has at most 64 bits. -/
def natural (source : Source) (draft : Draft) : Reading Nat := do
  match ← follow source draft with
  | (.scalar tag form text, _) =>
    if form == .plain || (form == .literal && tag == some "tag:yaml.org,2002:int") then
      match Yaml.Plain.natural? text.toList with
      | some n => if n < Nat.pow 2 64 then pure n else refuse "invalid value: number too large"
      | none => refuse "invalid type: expected usize"
    else refuse "invalid type: expected usize"
  | _ => refuse "invalid type: expected usize"

def optional (source : Source) (read : Draft → Reading α) (draft : Draft) :
    Reading (Option α) := do
  let (draft, _) ← follow source draft
  match draft with
  | .scalar none .plain text =>
    if text.isEmpty || Yaml.Plain.isNull text then pure none else some <$> read draft
  | .scalar (some "tag:yaml.org,2002:null") .plain text =>
    if Yaml.Plain.isNull text then pure none else refuse "invalid value: expected null"
  | draft => some <$> read draft

/-! ## Dictionaries and records -/

def keyStep : Draft → String
  | .scalar _ _ text => text
  | .atom (.text text) => text
  | _ => "?"

/-- The parts of a mapping, and whether they are complete. An empty node is an empty mapping. -/
def parts? : Draft → Option (List Draft × Bool)
  | .mapping _ parts complete => some (parts, complete)
  | .scalar _ .plain "" => some ([], true)
  | _ => none

def names (source : Source) (place : Place) (read : Place → Draft → Reading α) (complete : Bool)
    (done : List (String × α)) : List Draft → Reading (List (String × α))
  | k :: parts => do
    let name ← text source k
    match parts with
    | v :: rest => do
      let content ← read (place ++ [keyStep k]) v
      names source place read complete (Entries.insert name content done) rest
    | [] => breakOff source
  | [] => if complete then pure done else breakOff source

/-- Reads a dictionary. A name that is written twice keeps its place and takes the last value. -/
def dictionary (source : Source) (left : Nat) (place : Place)
    (read : (left : Nat) → Place → Draft → Reading α) (draft : Draft) :
    Reading (List (String × α)) := do
  let (draft, _) ← follow source draft
  match parts? draft, left with
  | some ([], true), _ => pure []
  | some (parts, complete), left + 1 => names source place (read left) complete [] parts
  | some _, 0 => refuse "recursion limit exceeded"
  | none, _ => refuse "invalid type: expected a map"

/-- Reads the fields of a record that is written with names. -/
def fields (source : Source) (known : List String) (place : Place)
    (read : String → Place → Draft → α → Reading α) (complete : Bool) (seen : List String)
    (record : α) : List Draft → Reading α
  | k :: parts => do
    let name ← text source k
    if !known.contains name then refuseField source place (.unknown name known)
    else if seen.contains name then refuseField source place (.duplicate name)
    else
      match parts with
      | v :: rest => do
        let record ← read name (place ++ [keyStep k]) v record
        fields source known place read complete (name :: seen) record rest
      | [] => breakOff source
  | [] => if complete then pure record else breakOff source

/-- Reads the fields of a record that is written as a sequence. -/
def positions (source : Source) (place : Place)
    (read : String → Place → Draft → α → Reading α) (complete : Bool) (record : α) :
    List String → List Draft → Reading α
  | name :: known, d :: items => do
    let record ← read name place d record
    positions source place read complete record known items
  | [], _ :: _ => refuse "trailing characters"
  | _, [] => if complete then pure record else breakOff source

/-- How a record was written, and with it how a missing field is reported. -/
inductive RecordForm where
  | named
  | positional

def refuseMissing (source : Source) (place : Place) (name : String) : RecordForm → Reading α
  | .named => refuseField source place (.missing name)
  | .positional => refuse "invalid length"

/-- Reads a record into a value that holds the fields read so far. -/
def record (source : Source) (left : Nat) (known : List String) (place : Place)
    (read : (left : Nat) → String → Place → Draft → α → Reading α) (blank : α) (draft : Draft) :
    Reading (α × RecordForm) := do
  let (draft, _) ← follow source draft
  match draft, left with
  | .sequence _ items complete, left + 1 =>
    if source.dialect.positional then do
      let filled ← positions source place (read left) complete blank known items
      pure (filled, .positional)
    else refuse "invalid type: expected a record"
  | draft, left =>
    match parts? draft, left with
    | some ([], true), _ => pure (blank, .named)
    | some (parts, complete), left + 1 => do
      let filled ← fields source known place (read left) complete [] blank parts
      pure (filled, .named)
    | some _, 0 => refuse "recursion limit exceeded"
    | none, _ => refuse "invalid type: expected a record"

end Reading

/--
Reads the whole of a source: what it holds first, and only then what is wrong behind it.
-/
def Source.read {α : Type} (source : Source)
    (read : (left : Nat) → Draft → Reading α) : Except ReadFault α :=
  match source.root with
  | none => .error (.other (source.fault.getD "unexpected end of text"))
  | some draft =>
    match (read source.dialect.depthLimit draft).run 0, source.fault with
    | .error fault, _ => .error fault
    | .ok _, some fault => .error (.other fault)
    | .ok (result, _), none => .ok result

end PipelineTree
