import PipelineTree.Decimal.Layout
import PipelineTree.Value.Entries

/-!
# Value — the data of documents and properties

A value is null, a boolean, a number, a text, a sequence, a mapping in written order, or a value under a
tag.  The keys of a mapping may be any values.  `==` on values is the equality of mapping keys: mappings
are equal whatever the order of their entries, an integer never equals a floating-point number, the
two floating-point zeros are equal, and NaN equals itself.
-/

namespace PipelineTree

/-- An integer or a floating-point number. -/
inductive Number where
  | int (n : Int)
  | float (x : Binary64)
  deriving DecidableEq, Repr, Inhabited

namespace Number

def text : Number → String
  | .int n => toString n
  | .float x => x.text

def same : Number → Number → Bool
  | .int m, .int n => m == n
  | .float x, .float y => x.same y
  | _, _ => false

end Number

/-- The data of documents and properties. A tag is kept without its leading exclamation mark. -/
inductive Value where
  | null
  | bool (b : Bool)
  | number (n : Number)
  | text (s : String)
  | sequence (items : List Value)
  | mapping (entries : List (Value × Value))
  | tagged (tag : String) (value : Value)
  deriving Inhabited

abbrev Mapping := List (Value × Value)

namespace Value

/-! ## Equality of keys -/

mutual

def same : Value → Value → Bool
  | .null, .null => true
  | .bool a, .bool b => a == b
  | .number m, .number n => m.same n
  | .text s, .text t => s == t
  | .sequence xs, .sequence ys => sameItems xs ys
  | .mapping es, .mapping fs => es.length == fs.length && sameEntries es fs
  | .tagged s v, .tagged t w => s == t && same v w
  | _, _ => false

def sameItems : List Value → List Value → Bool
  | [], [] => true
  | x :: xs, y :: ys => same x y && sameItems xs ys
  | _, _ => false

/-- Every entry has an equal one on the other side, wherever it stands. -/
def sameEntries : List (Value × Value) → List (Value × Value) → Bool
  | [], _ => true
  | (k, v) :: es, fs => fs.any (fun f => same k f.1 && same v f.2) && sameEntries es fs

end

instance : BEq Value := ⟨same⟩

theorem beq_def (v w : Value) : (v == w) = same v w := rfl

@[simp] theorem text_beq_text (s t : String) : (Value.text s == Value.text t) = (s == t) := by
  simp [beq_def, same]

theorem beq_text_iff {value : Value} {s : String} :
    (value == .text s) = true ↔ value = .text s := by
  cases value <;> simp [Value.beq_def, Value.same]

theorem text_beq_iff {value : Value} {s : String} :
    (.text s == value) = true ↔ value = .text s := by
  cases value with
  | text t => simpa [Value.beq_def, Value.same] using eq_comm
  | _ => simp [Value.beq_def, Value.same]

/-! ## Looking at a value -/

def untagged : Value → Value
  | .tagged _ v => v.untagged
  | v => v

def isNull (v : Value) : Bool :=
  match v.untagged with
  | .null => true
  | _ => false

def text? (v : Value) : Option String :=
  match v.untagged with
  | .text s => some s
  | _ => none

def sort : Value → String
  | .null => "null"
  | .bool _ => "a boolean"
  | .number _ => "a number"
  | .text _ => "a string"
  | .sequence _ => "a sequence"
  | .mapping _ => "a mapping"
  | .tagged .. => "a tagged value"

end Value

def boolText (b : Bool) : String := if b then "true" else "false"

end PipelineTree
