import PipelineTree.Error.Run
import PipelineTree.Template.Substitution

/-!
# Refusal — why parameters cannot be filled in

Filling in parameters fails for a parameter that is not there, or for a structured value in a text, and for nothing
else (`Substitution.refuses_substitute`).
-/

namespace PipelineTree

namespace Substitution

/-- The errors of filling in parameters. -/
inductive Refused : RuleError → Prop where
  | unknownParameter (name : String) : Refused (.unknownParameter name)
  | structuredInText : Refused .structuredInText

/-- A result is an error of filling in parameters, if it is an error. -/
def Refuses {α : Type} (result : Except RuleError α) : Prop := ∀ cause, result = .error cause → Refused cause

variable {α β : Type}

theorem refuses_ok (value : α) : Refuses (.ok value) := by
  rintro cause ⟨⟩

theorem Refuses.bind {first : Except RuleError α} {next : α → Except RuleError β} (h : Refuses first)
    (hnext : ∀ value, Refuses (next value)) : Refuses (first >>= next) := by
  intro cause hcause
  rcases Run.bind_eq_error_iff.1 hcause with hfirst | ⟨value, -, hrest⟩
  · exact h cause hfirst
  · exact hnext value cause hrest

theorem Refuses.map {first : Except RuleError α} (h : Refuses first) (f : α → β) :
    Refuses (f <$> first) := by
  intro cause hcause
  exact h cause (Run.map_eq_error_iff.1 hcause)

/-! ## Texts -/

theorem refuses_parameter (params : Props) (name : String) : Refuses (parameter params name) := by
  rw [parameter]
  split
  · exact refuses_ok _
  · rintro cause ⟨⟩
    exact .unknownParameter name

theorem refuses_textOf (value : Value) : Refuses (textOf value) := by
  rw [textOf.eq_def]
  split
  · exact refuses_ok _
  · exact refuses_ok _
  · exact refuses_ok _
  · exact refuses_ok _
  · rintro cause ⟨⟩
    exact .structuredInText

theorem refuses_pieceText (params : Props) (piece : Placeholder.Piece) :
    Refuses (pieceText params piece) := by
  cases piece with
  | char c => exact refuses_ok _
  | parameter name =>
    refine (refuses_parameter params name).bind fun value => ?_
    exact (refuses_textOf value).bind fun filled => refuses_ok _

theorem refuses_piecesText (params : Props) (pieces : List Placeholder.Piece) :
    Refuses (piecesText params pieces) := by
  induction pieces with
  | nil => exact refuses_ok _
  | cons piece pieces ih =>
    refine (refuses_pieceText params piece).bind fun front => ?_
    exact ih.bind fun rest => refuses_ok _

theorem refuses_interpolate (params : Props) (text : String) : Refuses (interpolate params text) :=
  (refuses_piecesText params _).bind fun _ => refuses_ok _

theorem refuses_substituteText (params : Props) (text : String) :
    Refuses (substituteText params text) := by
  rw [substituteText]
  split
  · exact refuses_parameter params _
  · exact (refuses_interpolate params text).map _

theorem refuses_substituteKey (params : Props) (key : Value) : Refuses (substituteKey params key) := by
  rw [substituteKey.eq_def]
  split
  · exact (refuses_interpolate params _).map _
  · exact refuses_ok _

/-! ## Values -/

mutual

theorem refuses_substitute (params : Props) (value : Value) : Refuses (substitute params value) := by
  cases value with
  | null => exact refuses_ok _
  | bool b => exact refuses_ok _
  | number n => exact refuses_ok _
  | tagged tag value => exact refuses_ok _
  | text s => exact refuses_substituteText params s
  | sequence items => exact (refuses_substituteItems params items).bind fun _ => refuses_ok _
  | mapping entries => exact (refuses_substituteEntries params entries).bind fun _ => refuses_ok _

theorem refuses_substituteItems (params : Props) (items : List Value) :
    Refuses (substituteItems params items) := by
  cases items with
  | nil => exact refuses_ok _
  | cons item items =>
    refine (refuses_substitute params item).bind fun filled => ?_
    exact (refuses_substituteItems params items).bind fun rest => refuses_ok _

theorem refuses_substituteEntries (params : Props) (entries : List (Value × Value)) :
    Refuses (substituteEntries params entries) := by
  match entries with
  | [] => exact refuses_ok _
  | (key, value) :: entries =>
    refine (refuses_substituteKey params key).bind fun filledKey => ?_
    refine (refuses_substitute params value).bind fun filled => ?_
    exact (refuses_substituteEntries params entries).bind fun rest => refuses_ok _

end

end Substitution

end PipelineTree
