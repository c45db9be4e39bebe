import PipelineTree.Error.Basic
import PipelineTree.Template.Placeholder
import PipelineTree.Value.Props

/-!
# Substitution — filling parameters into a value

A text that is one placeholder becomes the parameter's value, whatever its sort.  In any other text
each placeholder becomes the parameter's text.  Keys of mappings are always texts.  What is filled in is
not searched for placeholders again, and nothing under a tag is touched.
-/

namespace PipelineTree

namespace Substitution

def parameter (params : Props) (name : String) : Except RuleError Value :=
  match params.lookup name with
  | some value => .ok value
  | none => .error (.unknownParameter name)

def textOf : Value → Except RuleError String
  | .null => .ok ""
  | .bool b => .ok (boolText b)
  | .number n => .ok n.text
  | .text s => .ok s
  | _ => .error .structuredInText

def pieceText (params : Props) : Placeholder.Piece → Except RuleError (List Char)
  | .char c => .ok [c]
  | .parameter name => do
    let value ← parameter params name
    let filled ← textOf value
    pure filled.toList

/-- The text of pieces in a row; the first failure is the one reported. -/
def piecesText (params : Props) : List Placeholder.Piece → Except RuleError (List Char)
  | [] => .ok []
  | p :: ps => do
    let front ← pieceText params p
    let rest ← piecesText params ps
    pure (front ++ rest)

def interpolate (params : Props) (text : String) : Except RuleError String := do
  let filled ← piecesText params (Placeholder.pieces text.toList)
  pure (String.ofList filled)

theorem piecesText_map_char (params : Props) (text : List Char) :
    piecesText params (text.map .char) = .ok text := by
  induction text with
  | nil => rfl
  | cons c cs ih =>
    rw [List.map_cons, piecesText, ih]
    rfl

/-- A text without a dollar sign is left as it is. -/
theorem interpolate_of_not_mem (params : Props) {text : String} (h : '$' ∉ text.toList) :
    interpolate params text = .ok text := by
  rw [interpolate, Placeholder.pieces_of_not_mem h, piecesText_map_char]
  exact congrArg Except.ok String.ofList_toList

def substituteText (params : Props) (text : String) : Except RuleError Value :=
  match Placeholder.whole? text.toList with
  | some name => parameter params name
  | none => .text <$> interpolate params text

def substituteKey (params : Props) : Value → Except RuleError Value
  | .text s => .text <$> interpolate params s
  | other => .ok other

mutual

def substitute (params : Props) : Value → Except RuleError Value
  | .text s => substituteText params s
  | .sequence items => do
    let filled ← substituteItems params items
    pure (.sequence filled)
  | .mapping entries => do
    let filled ← substituteEntries params entries
    pure (.mapping (Entries.ofList filled))
  | other => .ok other

def substituteItems (params : Props) : List Value → Except RuleError (List Value)
  | [] => .ok []
  | v :: vs => do
    let filled ← substitute params v
    let rest ← substituteItems params vs
    pure (filled :: rest)

def substituteEntries (params : Props) :
    List (Value × Value) → Except RuleError (List (Value × Value))
  | [] => .ok []
  | (k, v) :: es => do
    let key ← substituteKey params k
    let value ← substitute params v
    let rest ← substituteEntries params es
    pure ((key, value) :: rest)

end

end Substitution

end PipelineTree
