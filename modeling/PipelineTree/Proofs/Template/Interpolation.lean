import PipelineTree.Proofs.Template.Division

/-!
# Interpolation — literals kept, and parameters put in between them

A text with placeholders becomes its literals as they are, with the text of a parameter in the place of each
placeholder.  What is put in is not looked at again, so a parameter may hold a placeholder itself.  Only scalars
have a text: the first placeholder whose parameter is not bound, or is bound to a structured value, is what
interpolation fails for (`Substitution.interpolate_divided`).
-/

namespace PipelineTree

/-- The texts of scalars. -/
inductive Value.Shows : Value → String → Prop where
  | null : Shows .null ""
  | bool (b : Bool) : Shows (.bool b) (if b then "true" else "false")
  | number (n : Number) : Shows (.number n) n.text
  | text (s : String) : Shows (.text s) s

/-- The values that have no text: those with parts, and those under a tag. -/
inductive Value.IsStructured : Value → Prop where
  | sequence (items : List Value) : IsStructured (.sequence items)
  | mapping (entries : Mapping) : IsStructured (.mapping entries)
  | tagged (tag : String) (value : Value) : IsStructured (.tagged tag value)

namespace Substitution

open Placeholder

/-- A parameter is bound to a scalar, which has this text. -/
def Gives (params : Props) (name shown : String) : Prop :=
  ∃ value, params.lookup name = some value ∧ value.Shows shown

/-- Why there is no text for a parameter. -/
inductive Lacks (params : Props) (name : String) : RuleError → Prop where
  | unbound : params.lookup name = none → Lacks params name (.unknownParameter name)
  | structured {value : Value} :
      params.lookup name = some value → value.IsStructured → Lacks params name .structuredInText

/-- The literals of a division with the texts of the parameters in between. -/
inductive Woven (params : Props) : Division → List Char → Prop where
  | last (literal : Literal) : Woven params (.last literal) literal.text
  | mark {literal : Literal} {placeholder : Mark} {rest : Division} {shown : String} {back : List Char} :
      Gives params placeholder.name shown → Woven params rest back →
        Woven params (.mark literal placeholder rest) (literal.text ++ (shown.toList ++ back))

/-- The first placeholder for whose parameter there is no text, and why. -/
def FirstLacks (params : Props) (division : Division) (error : RuleError) : Prop :=
  ∃ before placeholder after, division.placeholders = before ++ placeholder :: after ∧
    (∀ p ∈ before, ∃ shown, Gives params p.name shown) ∧ Lacks params placeholder.name error

variable {params : Props} {name : String} {value : Value} {error : RuleError} {division : Division}
  {filled : List Char}

/-! ## Parameters -/

theorem textOf_eq_ok_iff {shown : String} : textOf value = .ok shown ↔ value.Shows shown := by
  constructor
  · intro htext
    cases value with
    | null => cases htext; exact .null
    | bool b => cases htext; exact .bool b
    | number n => cases htext; exact .number n
    | text s => cases htext; exact .text _
    | _ => cases htext
  · rintro ⟨⟩ <;> rfl

theorem textOf_eq_error_iff : textOf value = .error error ↔ value.IsStructured ∧ error = .structuredInText := by
  constructor
  · intro htext
    cases value with
    | sequence items => cases htext; exact ⟨.sequence items, rfl⟩
    | mapping entries => cases htext; exact ⟨.mapping entries, rfl⟩
    | tagged tag value => cases htext; exact ⟨.tagged tag value, rfl⟩
    | _ => cases htext
  · rintro ⟨⟨⟩, rfl⟩ <;> rfl

theorem parameter_eq_error_iff :
    parameter params name = .error error ↔ params.lookup name = none ∧ error = .unknownParameter name := by
  cases hlookup : params.lookup name with
  | none => simp [parameter, hlookup, eq_comm]
  | some found => simp [parameter, hlookup]

theorem pieceText_parameter_eq_ok_iff :
    pieceText params (.parameter name) = .ok filled ↔ ∃ shown, Gives params name shown ∧ filled = shown.toList := by
  simp only [pieceText, Run.bind_eq_ok_iff, parameter_eq_ok_iff, textOf_eq_ok_iff, Gives]
  constructor
  · rintro ⟨value, hvalue, shown, hshown, ⟨⟩⟩
    exact ⟨shown, ⟨value, hvalue, hshown⟩, rfl⟩
  · rintro ⟨shown, ⟨value, hvalue, hshown⟩, rfl⟩
    exact ⟨value, hvalue, shown, hshown, rfl⟩

theorem pieceText_parameter_eq_error_iff :
    pieceText params (.parameter name) = .error error ↔ Lacks params name error := by
  simp only [pieceText, Run.bind_eq_error_iff, parameter_eq_error_iff, parameter_eq_ok_iff, textOf_eq_error_iff]
  constructor
  · rintro (⟨hunbound, rfl⟩ | ⟨value, hvalue, ⟨hstructured, rfl⟩ | ⟨shown, -, hpure⟩⟩)
    · exact .unbound hunbound
    · exact .structured hvalue hstructured
    · cases hpure
  · rintro (hunbound | ⟨hvalue, hstructured⟩)
    · exact .inl ⟨hunbound, rfl⟩
    · exact .inr ⟨_, hvalue, .inl ⟨hstructured, rfl⟩⟩

/-- What is lacking is not given: a value with a text has no parts and no tag. -/
theorem Gives.not_lacks {shown : String} (h : Gives params name shown) : ¬∃ error, Lacks params name error := by
  rintro ⟨error, hlacks⟩
  have hok := pieceText_parameter_eq_ok_iff.2 ⟨shown, h, rfl⟩
  rw [pieceText_parameter_eq_error_iff.2 hlacks] at hok
  cases hok

theorem Woven.gives (h : Woven params division filled) :
    ∀ placeholder ∈ division.placeholders, ∃ shown, Gives params placeholder.name shown := by
  induction h with
  | last literal => simp [Division.placeholders]
  | mark hshown _ ih => exact List.forall_mem_cons.2 ⟨⟨_, hshown⟩, ih⟩

/-! ## Pieces in a row -/

theorem piecesText_append_chars (params : Props) (literal : List Char) (pieces : List Piece) :
    piecesText params (literal.map .char ++ pieces) = (literal ++ ·) <$> piecesText params pieces := by
  induction literal with
  | nil => cases hpieces : piecesText params pieces <;> simp [hpieces]
  | cons c cs ih =>
    rw [List.map_cons, List.cons_append, piecesText, ih]
    cases piecesText params pieces <;> rfl

/-- The first placeholder lacks a text, or it has one and another placeholder is the first to lack one. -/
theorem firstLacks_mark_iff {literal : Literal} {placeholder : Mark} {rest : Division} :
    FirstLacks params (.mark literal placeholder rest) error ↔
      Lacks params placeholder.name error ∨
        (∃ shown, Gives params placeholder.name shown) ∧ FirstLacks params rest error := by
  constructor
  · rintro ⟨before, lacking, after, hplaceholders, hbefore, hlacks⟩
    cases before with
    | nil =>
      rcases List.cons.inj hplaceholders with ⟨rfl, -⟩
      exact .inl hlacks
    | cons first before =>
      rcases List.cons.inj hplaceholders with ⟨rfl, hrest⟩
      rcases List.forall_mem_cons.1 hbefore with ⟨hfirst, hbefore⟩
      exact .inr ⟨hfirst, before, lacking, after, hrest, hbefore, hlacks⟩
  · rintro (hlacks | ⟨hfirst, before, lacking, after, hrest, hbefore, hlacks⟩)
    · exact ⟨[], placeholder, rest.placeholders, rfl, by simp, hlacks⟩
    · refine ⟨placeholder :: before, lacking, after, ?_, List.forall_mem_cons.2 ⟨hfirst, hbefore⟩, hlacks⟩
      rw [Division.placeholders, hrest, List.cons_append]

theorem piecesText_eq_ok_iff_woven :
    piecesText params division.pieces = .ok filled ↔ Woven params division filled := by
  induction division generalizing filled with
  | last literal =>
    rw [Division.pieces, piecesText_map_char]
    constructor
    · rintro ⟨⟩
      exact .last literal
    · rintro ⟨⟩
      rfl
  | mark literal placeholder rest ih =>
    simp only [Division.pieces, piecesText_append_chars, Run.map_eq_ok_iff, piecesText, Run.bind_eq_ok_iff,
      pieceText_parameter_eq_ok_iff, ih]
    constructor
    · rintro ⟨_, ⟨_, ⟨shown, hshown, rfl⟩, back, hback, ⟨⟩⟩, rfl⟩
      exact .mark hshown hback
    · rintro ⟨⟩
      rename_i shown back hshown hback
      exact ⟨_, ⟨_, ⟨shown, hshown, rfl⟩, back, hback, rfl⟩, rfl⟩

theorem piecesText_eq_error_iff :
    piecesText params division.pieces = .error error ↔ FirstLacks params division error := by
  induction division with
  | last literal =>
    rw [Division.pieces, piecesText_map_char]
    constructor
    · rintro ⟨⟩
    · rintro ⟨before, placeholder, after, hplaceholders, -⟩
      simp [Division.placeholders] at hplaceholders
  | mark literal placeholder rest ih =>
    simp only [Division.pieces, piecesText_append_chars, Run.map_eq_error_iff, piecesText, Run.bind_eq_error_iff,
      pieceText_parameter_eq_ok_iff, pieceText_parameter_eq_error_iff, ih, firstLacks_mark_iff]
    constructor
    · rintro (hlacks | ⟨_, ⟨shown, hshown, rfl⟩, hrest | ⟨back, -, hpure⟩⟩)
      · exact .inl hlacks
      · exact .inr ⟨⟨shown, hshown⟩, hrest⟩
      · cases hpure
    · rintro (hlacks | ⟨⟨shown, hshown⟩, hrest⟩)
      · exact .inl hlacks
      · exact .inr ⟨_, ⟨shown, hshown, rfl⟩, .inl hrest⟩

/-! ## Texts -/

theorem interpolate_ofList_text (params : Props) (division : Division) :
    interpolate params (String.ofList division.text) = String.ofList <$> piecesText params division.pieces := by
  rw [interpolate, String.toList_ofList, Division.pieces_text]
  cases piecesText params division.pieces <;> rfl

/-- If some placeholder lacks a text, one of them is the first. -/
theorem exists_firstLacks_iff :
    (∃ error, FirstLacks params division error) ↔
      ∃ placeholder ∈ division.placeholders, ∃ error, Lacks params placeholder.name error := by
  constructor
  · rintro ⟨error, before, placeholder, after, hplaceholders, -, hlacks⟩
    exact ⟨placeholder, by simp [hplaceholders], error, hlacks⟩
  · rintro ⟨placeholder, hmem, error, hlacks⟩
    -- Otherwise the text would be woven, and then there is a text for each placeholder.
    cases hpieces : piecesText params division.pieces with
    | error other => exact ⟨other, piecesText_eq_error_iff.1 hpieces⟩
    | ok filled =>
      rcases (piecesText_eq_ok_iff_woven.1 hpieces).gives placeholder hmem with ⟨shown, hshown⟩
      exact absurd ⟨error, hlacks⟩ hshown.not_lacks

/--
Every text is divided into literals and placeholders in one way.  The reader finds just these placeholders.
Interpolation gives the literals as they are with the texts of the parameters in between, if all of them are bound
to scalars; else it fails for the first placeholder whose parameter is not, and says why.
-/
theorem interpolate_divided :
    (∀ text : String, ∃! division : Division, String.ofList division.text = text) ∧
      ∀ (params : Props) (division : Division),
        Placeholder.pieces division.text = division.pieces ∧
        (∀ filled, interpolate params (String.ofList division.text) = .ok filled ↔
          Woven params division filled.toList) ∧
        (∀ error, interpolate params (String.ofList division.text) = .error error ↔
          FirstLacks params division error) ∧
        ((∃ error, interpolate params (String.ofList division.text) = .error error) ↔
          ∃ placeholder ∈ division.placeholders, ∃ error, Lacks params placeholder.name error) := by
  refine ⟨?_, fun params division => ⟨division.pieces_text, ?_, ?_, ?_⟩⟩
  · intro text
    simpa only [← String.toList_inj, String.toList_ofList] using existsUnique_division text.toList
  · intro filled
    rw [interpolate_ofList_text, Run.map_eq_ok_iff, ← piecesText_eq_ok_iff_woven]
    constructor
    · rintro ⟨chars, hchars, rfl⟩
      rwa [String.toList_ofList]
    · intro hchars
      exact ⟨filled.toList, hchars, String.ofList_toList⟩
  · intro error
    rw [interpolate_ofList_text, Run.map_eq_error_iff, piecesText_eq_error_iff]
  · simp only [interpolate_ofList_text, Run.map_eq_error_iff, piecesText_eq_error_iff, exists_firstLacks_iff]

/-- Placeholders side by side are filled, what one of them becomes is not filled again, and what lacks a name or
its braces stays. -/
example :
    interpolate [("a", .text "$\x7b\x7b params.b \x7d\x7d"), ("n", .number (.int 3))]
        "$\x7b\x7b$\x7b\x7b params.a \x7d\x7d$\x7b\x7b\u2003params.n\x7d\x7d$\x7b\x7b params. \x7d\x7d" =
      .ok "$\x7b\x7b$\x7b\x7b params.b \x7d\x7d3$\x7b\x7b params. \x7d\x7d" := by
  decide +kernel

end Substitution

end PipelineTree
