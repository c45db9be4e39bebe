import Mathlib.Data.List.Forall2
import PipelineTree.Error.Run
import PipelineTree.Proofs.Template.Occurrence
import PipelineTree.Template.Substitution

/-!
# Filling — what becomes of a value when its placeholders are filled

A text that is one placeholder becomes the parameter's value; in any other text each placeholder becomes the
parameter's text, and all else stays.  `Substitution.Filled` says so part by part, without the reader of
placeholders.  What becomes of the entries of a mapping once they are filled is left open there: they may be
kept as they come, or written one after the other.  Substitution is the filling in which they are written
(`Substitution.substitute_eq_ok_iff`).
-/

namespace PipelineTree

open Placeholder

namespace Substitution

/-! ## Fillings -/

/-- The text that a text becomes when each placeholder becomes the text of its parameter. -/
inductive FilledText (params : Props) : List Char → List Char → Prop where
  | nil : FilledText params [] []
  | placeholder {name filled : String} {value : Value} {placeholder rest back : List Char} :
      IsWritten name placeholder → params.lookup name = some value → textOf value = .ok filled →
        FilledText params rest back →
          FilledText params (placeholder ++ rest) (filled.toList ++ back)
  | char {c : Char} {rest back : List Char} :
      (∀ name placeholder after, IsWritten name placeholder → c :: rest ≠ placeholder ++ after) →
        FilledText params rest back → FilledText params (c :: rest) (c :: back)

/-- Keys that are texts are filled as texts, and others are kept. -/
inductive FilledKey (params : Props) : Value → Value → Prop where
  | text {s filled : String} :
      FilledText params s.toList filled.toList → FilledKey params (.text s) (.text filled)
  | other {key : Value} : (∀ s, key ≠ .text s) → FilledKey params key key

mutual

/--
The value that a value becomes.  `gather` makes a mapping of the entries of one, once they are filled.
-/
inductive Filled (params : Props) (gather : Mapping → Mapping) : Value → Value → Prop where
  | whole {name s : String} {value : Value} :
      IsWhole name s.toList → params.lookup name = some value → Filled params gather (.text s) value
  | woven {s filled : String} :
      (∀ name, ¬IsWhole name s.toList) → FilledText params s.toList filled.toList →
        Filled params gather (.text s) (.text filled)
  | sequence {items filled : List Value} :
      List.Forall₂ (Filled params gather) items filled →
        Filled params gather (.sequence items) (.sequence filled)
  | mapping {entries filled : Mapping} :
      List.Forall₂ (FilledEntry params gather) entries filled →
        Filled params gather (.mapping entries) (.mapping (gather filled))
  | null : Filled params gather .null .null
  | bool (b : Bool) : Filled params gather (.bool b) (.bool b)
  | number (n : Number) : Filled params gather (.number n) (.number n)
  | tagged (tag : String) (value : Value) :
      Filled params gather (.tagged tag value) (.tagged tag value)

inductive FilledEntry (params : Props) (gather : Mapping → Mapping) :
    Value × Value → Value × Value → Prop where
  | entry {key filledKey value filled : Value} :
      FilledKey params key filledKey → Filled params gather value filled →
        FilledEntry params gather (key, value) (filledKey, filled)

end

variable {params : Props} {gather : Mapping → Mapping}

theorem filled_sequence_iff {items : List Value} {filled : Value} :
    Filled params gather (.sequence items) filled ↔
      ∃ others, List.Forall₂ (Filled params gather) items others ∧ filled = .sequence others := by
  constructor
  · rintro ⟨⟩
    rename_i others hitems
    exact ⟨others, hitems, rfl⟩
  · rintro ⟨others, hitems, rfl⟩
    exact .sequence hitems

theorem filled_mapping_iff {entries : Mapping} {filled : Value} :
    Filled params gather (.mapping entries) filled ↔
      ∃ others, List.Forall₂ (FilledEntry params gather) entries others ∧
        filled = .mapping (gather others) := by
  constructor
  · rintro ⟨⟩
    rename_i others hentries
    exact ⟨others, hentries, rfl⟩
  · rintro ⟨others, hentries, rfl⟩
    exact .mapping hentries

/-! ## Texts -/

theorem parameter_eq_ok_iff {name : String} {value : Value} :
    parameter params name = .ok value ↔ params.lookup name = some value := by
  cases hlookup : params.lookup name with
  | none => simp [parameter, hlookup]
  | some found => simp [parameter, hlookup]

/-- There is no placeholder at the front of a text in which none is found there. -/
theorem ne_append_of_atFront? {text : List Char} (h : atFront? text = none) (name : String)
    (placeholder after : List Char) (hwritten : IsWritten name placeholder) :
    text ≠ placeholder ++ after := by
  rintro rfl
  simp [atFront?_append hwritten after] at h

theorem atFront?_eq_none {text : List Char}
    (h : ∀ name placeholder after, IsWritten name placeholder → text ≠ placeholder ++ after) :
    atFront? text = none := by
  cases hfound : atFront? text with
  | none => rfl
  | some found =>
    rcases atFront?_eq_some_iff.1 hfound with ⟨placeholder, hwritten, htext⟩
    exact absurd htext (h _ placeholder _ hwritten)

theorem piecesText_cons_char (c : Char) (pieces : List Piece) (filled : List Char) :
    piecesText params (.char c :: pieces) = .ok filled ↔
      ∃ back, piecesText params pieces = .ok back ∧ filled = c :: back := by
  simp only [piecesText, pieceText, Run.ok_bind, Run.bind_eq_ok_iff]
  simp [pure, Except.pure, eq_comm]

theorem piecesText_cons_parameter (name : String) (pieces : List Piece) (filled : List Char) :
    piecesText params (.parameter name :: pieces) = .ok filled ↔
      ∃ value front back, params.lookup name = some value ∧ textOf value = .ok front ∧
        piecesText params pieces = .ok back ∧ filled = front.toList ++ back := by
  simp only [piecesText, pieceText, Run.bind_eq_ok_iff, parameter_eq_ok_iff]
  constructor
  · rintro ⟨_, ⟨value, hvalue, front, hfront, ⟨⟩⟩, back, hback, ⟨⟩⟩
    exact ⟨value, front, back, hvalue, hfront, hback, rfl⟩
  · rintro ⟨value, front, back, hvalue, hfront, hback, rfl⟩
    exact ⟨_, ⟨value, hvalue, front, hfront, rfl⟩, back, hback, rfl⟩

theorem piecesText_eq_ok_iff {text filled : List Char} :
    piecesText params (pieces text) = .ok filled ↔ FilledText params text filled := by
  constructor
  · intro hfilled
    -- Piece by piece: a placeholder, or a character at which none begins.
    fun_induction pieces text generalizing filled with
    | case1 text name rest hfound ih =>
      rcases atFront?_eq_some_iff.1 hfound with ⟨placeholder, hwritten, rfl⟩
      rcases (piecesText_cons_parameter name _ filled).1 hfilled with
        ⟨value, front, back, hvalue, hfront, hback, rfl⟩
      exact .placeholder hwritten hvalue hfront (ih hback)
    | case2 hnone =>
      cases hfilled
      exact .nil
    | case3 c cs hnone ih =>
      rcases (piecesText_cons_char c _ filled).1 hfilled with ⟨back, hback, rfl⟩
      exact .char (ne_append_of_atFront? hnone) (ih hback)
  · intro hfilled
    induction hfilled with
    | nil =>
      rw [pieces_of_not_mem (by simp)]
      rfl
    | placeholder hwritten hvalue htext _ ih =>
      rw [pieces_append hwritten, piecesText_cons_parameter]
      exact ⟨_, _, _, hvalue, htext, ih, rfl⟩
    | char hnone _ ih =>
      rw [pieces_cons (atFront?_eq_none hnone), piecesText_cons_char]
      exact ⟨_, ih, rfl⟩

theorem interpolate_eq_ok_iff {s filled : String} :
    interpolate params s = .ok filled ↔ FilledText params s.toList filled.toList := by
  rw [interpolate, Run.bind_eq_ok_iff, ← piecesText_eq_ok_iff]
  constructor
  · rintro ⟨chars, hchars, ⟨⟩⟩
    rwa [String.toList_ofList]
  · intro hchars
    exact ⟨filled.toList, hchars, congrArg Except.ok String.ofList_toList⟩

/-- Where a text is filled, all of its placeholders have parameters. -/
theorem FilledText.bound {text filled : List Char} (h : FilledText params text filled) {name : String}
    (hoccurs : Occurs name text) : ∃ value, params.lookup name = some value := by
  induction h with
  | nil => cases hoccurs.mem_dollar
  | placeholder hwritten hvalue _ _ ih =>
    -- The placeholder in question is the one in front, or it stands in what follows.
    rcases occurs_of_append hwritten hoccurs with rfl | hlater
    · exact ⟨_, hvalue⟩
    · exact ih hlater
  | char hnone _ ih =>
    rcases occurs_cons_iff.1 hoccurs with ⟨rest, hfound⟩ | hlater
    · rw [atFront?_eq_none hnone] at hfound
      cases hfound
    · exact ih hlater

theorem substituteText_eq_ok_iff {s : String} {filled : Value} :
    substituteText params s = .ok filled ↔ Filled params gather (.text s) filled := by
  rw [substituteText]
  split
  next name hwhole =>
    have hname := whole?_eq_some_iff.1 hwhole
    rw [parameter_eq_ok_iff]
    constructor
    · exact .whole hname
    · intro hfilled
      cases hfilled with
      | @whole other _ _ hother hvalue =>
        -- A text is one placeholder for one parameter only.
        have hsame := whole?_eq_some_iff.2 hother
        rw [hwhole] at hsame
        exact Option.some.inj hsame ▸ hvalue
      | woven hnot _ => exact absurd hname (hnot name)
  next hnone =>
    have hnot : ∀ name, ¬IsWhole name s.toList := by
      intro name hname
      rw [whole?_eq_some_iff.2 hname] at hnone
      cases hnone
    rw [Run.map_eq_ok_iff]
    constructor
    · rintro ⟨text, htext, rfl⟩
      exact .woven hnot (interpolate_eq_ok_iff.1 htext)
    · intro hfilled
      cases hfilled with
      | whole hname _ => exact absurd hname (hnot _)
      | woven _ htext => exact ⟨_, interpolate_eq_ok_iff.2 htext, rfl⟩

theorem substituteKey_eq_ok_iff {key filled : Value} :
    substituteKey params key = .ok filled ↔ FilledKey params key filled := by
  cases key with
  | text s =>
    rw [substituteKey, Run.map_eq_ok_iff]
    constructor
    · rintro ⟨text, htext, rfl⟩
      exact .text (interpolate_eq_ok_iff.1 htext)
    · intro hfilled
      cases hfilled with
      | text htext => exact ⟨_, interpolate_eq_ok_iff.2 htext, rfl⟩
      | other hnot => exact absurd rfl (hnot s)
  | _ =>
    constructor
    · rintro ⟨⟩
      exact .other fun s hs => by cases hs
    · rintro ⟨⟩
      rfl

/-! ## Texts without placeholders -/

theorem substituteKey_of_not_mem (params : Props) {s : String} (h : '$' ∉ s.toList) :
    substituteKey params (.text s) = .ok (.text s) := by
  rw [substituteKey, interpolate_of_not_mem params h]
  rfl

theorem substituteText_of_not_mem (params : Props) {s : String} (h : '$' ∉ s.toList) :
    substituteText params s = .ok (.text s) := by
  have hwhole : whole? s.toList = none := by
    rw [Option.eq_none_iff_forall_ne_some]
    intro name hfound
    have hoccurs : Occurs name s.toList := (whole?_eq_some_iff.1 hfound).occurs_iff.2 rfl
    exact absurd hoccurs.mem_dollar h
  rw [substituteText, hwhole, interpolate_of_not_mem params h]
  rfl

/-! ## Values -/

mutual

/-- Substitution fills a value, and writes the entries of its mappings one after the other. -/
theorem substitute_eq_ok_iff {body filled : Value} :
    substitute params body = .ok filled ↔ Filled params Entries.ofList body filled := by
  -- Mutual, as the function is: values, items and entries.
  cases body with
  | text s => exact substituteText_eq_ok_iff
  | sequence items =>
    rw [substitute, Run.bind_eq_ok_iff, filled_sequence_iff]
    refine exists_congr fun others => and_congr substituteItems_eq_ok_iff ?_
    exact ⟨fun h => (Except.ok.inj h).symm, fun h => congrArg Except.ok h.symm⟩
  | mapping entries =>
    rw [substitute, Run.bind_eq_ok_iff, filled_mapping_iff]
    refine exists_congr fun others => and_congr substituteEntries_eq_ok_iff ?_
    exact ⟨fun h => (Except.ok.inj h).symm, fun h => congrArg Except.ok h.symm⟩
  | null =>
    constructor
    · rintro ⟨⟩
      exact .null
    · rintro ⟨⟩
      rfl
  | bool b =>
    constructor
    · rintro ⟨⟩
      exact .bool b
    · rintro ⟨⟩
      rfl
  | number n =>
    constructor
    · rintro ⟨⟩
      exact .number n
    · rintro ⟨⟩
      rfl
  | tagged tag value =>
    constructor
    · rintro ⟨⟩
      exact .tagged tag value
    · rintro ⟨⟩
      rfl

theorem substituteItems_eq_ok_iff {items filled : List Value} :
    substituteItems params items = .ok filled ↔
      List.Forall₂ (Filled params Entries.ofList) items filled := by
  cases items with
  | nil =>
    rw [substituteItems, List.forall₂_nil_left_iff]
    simp [eq_comm]
  | cons item items =>
    simp only [substituteItems, Run.bind_eq_ok_iff, List.forall₂_cons_left_iff]
    constructor
    · rintro ⟨first, hfirst, others, hothers, ⟨⟩⟩
      exact ⟨first, others, substitute_eq_ok_iff.1 hfirst, substituteItems_eq_ok_iff.1 hothers, rfl⟩
    · rintro ⟨first, others, hfirst, hothers, rfl⟩
      exact ⟨first, substitute_eq_ok_iff.2 hfirst, others, substituteItems_eq_ok_iff.2 hothers, rfl⟩

theorem substituteEntries_eq_ok_iff {entries filled : Mapping} :
    substituteEntries params entries = .ok filled ↔
      List.Forall₂ (FilledEntry params Entries.ofList) entries filled := by
  match entries with
  | [] =>
    rw [substituteEntries, List.forall₂_nil_left_iff]
    simp [eq_comm]
  | (key, value) :: entries =>
    simp only [substituteEntries, Run.bind_eq_ok_iff, List.forall₂_cons_left_iff]
    constructor
    · rintro ⟨key', hkey, value', hvalue, others, hothers, ⟨⟩⟩
      exact ⟨_, others, .entry (substituteKey_eq_ok_iff.1 hkey) (substitute_eq_ok_iff.1 hvalue),
        substituteEntries_eq_ok_iff.1 hothers, rfl⟩
    · rintro ⟨_, others, ⟨hkey, hvalue⟩, hothers, rfl⟩
      exact ⟨_, substituteKey_eq_ok_iff.2 hkey, _, substitute_eq_ok_iff.2 hvalue, others,
        substituteEntries_eq_ok_iff.2 hothers, rfl⟩

end

end Substitution

end PipelineTree
