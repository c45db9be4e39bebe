import PipelineTree.Yaml.Event

/-!
# Source — from events to drafts

The events of a text are put together to a draft by a stack of open collections (`Stack.step`).

Anchors are numbered as they come: a number is how many different anchors there were before.  An anchor
that is declared again gets a number of its own, which the next new anchor shares; what is anchored last
under a number is what the number stands for.
-/

namespace PipelineTree

namespace Yaml

/-! ## Numbers for anchors -/

def Event.properties? : Event → Option Properties
  | .scalar properties .. | .sequenceStart properties | .mappingStart properties => some properties
  | _ => none

/-- An event with the number of its anchor, or of the anchor it refers to. -/
structure Numbered where
  event : Event
  number : Option Nat
  deriving Repr

namespace Numbered

/-- Numbers the anchors of events, up to a reference to an unknown anchor. -/
def ofEvents (names : List (String × Nat)) : List Event → List Numbered × Bool
  | [] => ([], true)
  | event :: events =>
    match event with
    | .alias name =>
      match names.lookup name with
      | none => ([], false)
      | some number =>
        let (rest, known) := ofEvents names events
        (⟨event, some number⟩ :: rest, known)
    | event =>
      match event.properties?.bind Properties.anchor with
      | none =>
        let (rest, known) := ofEvents names events
        (⟨event, none⟩ :: rest, known)
      | some name =>
        let number := names.length
        let (rest, known) := ofEvents (Entries.insert name number names) events
        (⟨event, some number⟩ :: rest, known)

def anchors (number : Nat) (n : Numbered) : Bool :=
  n.event.properties?.isSome && n.number == some number

/-- Takes a number away from an event if a later one has it. -/
def unshared : List Numbered → List Numbered
  | [] => []
  | n :: ns =>
    if n.event.properties?.isSome && n.number.any fun number => ns.any (anchors number) then
      ⟨n.event, none⟩ :: unshared ns
    else n :: unshared ns

end Numbered

/-! ## Open collections -/

/-- A collection that is open. -/
structure OpenCollection where
  isMapping : Bool
  tag : Option String
  number : Option Nat
  /-- the items, or the keys and values in turn, the last one first -/
  parts : List Draft

def OpenCollection.draft (c : OpenCollection) (complete : Bool) : Draft :=
  if c.isMapping then .mapping c.tag c.parts.reverse complete
  else .sequence c.tag c.parts.reverse complete

/-- The collections that are open, the innermost first, and what has been put together. -/
structure Stack where
  collections : List OpenCollection
  root : Option Draft
  anchors : List (Nat × Draft)

namespace Stack

def add (number : Option Nat) (draft : Draft) (stack : Stack) : Stack :=
  let anchors := match number with
    | some number => (number, draft) :: stack.anchors
    | none => stack.anchors
  match stack.collections with
  | c :: cs => ⟨{ c with parts := draft :: c.parts } :: cs, stack.root, anchors⟩
  | [] => ⟨[], stack.root.or (some draft), anchors⟩

def close (complete : Bool) (stack : Stack) : Stack :=
  match stack.collections with
  | c :: cs => add c.number (c.draft complete) ⟨cs, stack.root, stack.anchors⟩
  | [] => stack

def step (stack : Stack) (n : Numbered) : Stack :=
  match n.event with
  | .documentStart | .documentEnd => stack
  | .alias _ => stack.add none (.alias (n.number.getD 0))
  | .scalar properties form text => stack.add n.number (.scalar properties.tag form text)
  | .sequenceStart properties =>
    { stack with collections := ⟨false, properties.tag, n.number, []⟩ :: stack.collections }
  | .mappingStart properties =>
    { stack with collections := ⟨true, properties.tag, n.number, []⟩ :: stack.collections }
  | .sequenceEnd | .mappingEnd => stack.close true

def ofEvents (events : List Numbered) : Stack :=
  let stack := events.foldl step ⟨[], none, []⟩
  stack.collections.foldl (fun stack _ => stack.close false) stack

end Stack

/-! ## Texts -/

/-- In this format collections nest up to 128 deep, and faults have places. -/
def dialect : Dialect := ⟨128, false, true⟩

/-- Whether an event counts towards the size of a text. -/
def Event.counts : Event → Bool
  | .documentStart | .documentEnd => false
  | _ => true

def blankSource : Source := ⟨dialect, some (.scalar none .plain ""), [], 1, none⟩

def source (text : String) : Source :=
  let lexed := Lexed.ofText text.toList
  if lexed.tokens == [.streamEnd] && lexed.fault.isNone then blankSource
  else
    let parsed := Parsed.ofTokens lexed.tokens
    let (numbered, known) := Numbered.ofEvents [] parsed.events
    let stack := Stack.ofEvents (Numbered.unshared numbered)
    let fault :=
      if !known then some Problem.unknownAnchor.text
      else if parsed.problem.isSome || lexed.fault.isSome then
        (lexed.fault.map Fault.text).or (parsed.problem.map Problem.text)
      else if parsed.isLast then none
      else some "more than one document"
    ⟨dialect, stack.root, stack.anchors, (numbered.filter (·.event.counts)).length, fault⟩

end Yaml

end PipelineTree
