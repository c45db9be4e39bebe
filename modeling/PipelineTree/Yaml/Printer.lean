import PipelineTree.Error.Basic
import PipelineTree.Yaml.Pen

/-!
# Printer — values as documents

Mappings and sequences are written as blocks, two columns deeper than what holds them; a sequence
that is the value of a one-line key stands in the key's column.  Empty ones are written `{}` and `[]`.
A key that spans lines or is long is written after a question mark.

Two shapes have no written form: a tag right under a tag, and a mapping with a single entry whose key
is itself a tagged value or a mapping with a single entry (unless the outer mapping is tagged).
-/

namespace PipelineTree

namespace Yaml

/-! ## What has a written form -/

/-- Whether a value is written as a mapping that begins with its only entry. -/
def startsWithEntry : Value → Bool
  | .tagged .. => true
  | .mapping [_] => true
  | _ => false

mutual

/-- Whether a value has a written form; `underTag` says that it stands right under a tag. -/
def isWritable (underTag : Bool) : Value → Bool
  | .tagged _ value => !underTag && isWritable true value
  | .sequence items => areWritable items
  | .mapping entries =>
    (underTag || match entries with
      | [(key, _)] => !startsWithEntry key
      | _ => true) && entriesWritable entries
  | _ => true

def areWritable : List Value → Bool
  | [] => true
  | v :: vs => isWritable false v && areWritable vs

def entriesWritable : List (Value × Value) → Bool
  | [] => true
  | (k, v) :: es => isWritable false k && isWritable false v && entriesWritable es

end

/-! ## Keys on one line -/

/-- The longest key, in bytes, that is written on the line of its value. -/
def longestKey : Nat := 128

/-- The text of a scalar that is not a text, or of an empty collection. -/
def atomText? : Value → Option String
  | .null => some "null"
  | .bool b => some (boolText b)
  | .number n => some n.text
  | .sequence [] => some "[]"
  | .mapping [] => some "\x7b\x7d"
  | _ => none

/-- Whether a key fits the line of its value, after a tag of some length.  The brackets of an empty
collection do not count, and neither do quotes and escapes. -/
def isSimpleKey (tagLength : Nat) : Value → Bool
  | .tagged tag value => isSimpleKey (Pen.bareTag tag).utf8ByteSize value
  | .text s => !s.toList.any isBreak && tagLength + s.utf8ByteSize ≤ longestKey
  | .sequence items => items.isEmpty && tagLength ≤ longestKey
  | .mapping entries => entries.isEmpty && tagLength ≤ longestKey
  | atom => tagLength + ((atomText? atom).getD "").utf8ByteSize ≤ longestKey

/-! ## Writing -/

def innerColumn : Option Nat → Nat
  | none => 0
  | some column => column + 2

def scalarColumn : Option Nat → Nat
  | none => 2
  | some column => column + 2

mutual

/-- Writes a value; `outer` is the column of the block around it, `inEntry` says that it is a key or the
value of a key. -/
def writeValue (outer : Option Nat) (inEntry : Bool) (tag : Option String) : Value → Pen → Pen
  | .tagged inner value, pen => writeValue outer inEntry (some inner) value pen
  | .text s, pen => (pen.tag? tag).scalar (scalarColumn outer) s
  | .sequence (item :: items), pen =>
    let pen := pen.tag? tag
    let column := if inEntry && !pen.fresh then outer.getD 0 else innerColumn outer
    writeItems column (item :: items) pen
  | .mapping (entry :: entries), pen => writeEntries (innerColumn outer) (entry :: entries) (pen.tag? tag)
  | atom, pen => (pen.tag? tag).plain ((atomText? atom).getD "")

def writeItems (column : Nat) : List Value → Pen → Pen
  | [], pen => pen
  | v :: vs, pen =>
    writeItems column vs (writeValue (some column) false none v ((pen.indentTo column).mark "-" true))

def writeEntries (column : Nat) : List (Value × Value) → Pen → Pen
  | [], pen => pen
  | (k, v) :: es, pen =>
    let pen := pen.indentTo column
    let pen :=
      if isSimpleKey 0 k then (writeValue (some column) true none k pen).attach ":"
      else
        ((writeValue (some column) true none k (pen.mark "?" true)).indentTo column).mark ":" true
    writeEntries column es (writeValue (some column) true none v pen)

end

def print (value : Value) : Except Error String :=
  if isWritable false value then .ok ((writeValue none false none value .start).indentTo 0).text
  else .error (.yaml (.other "this value has no written form"))

end Yaml

end PipelineTree
