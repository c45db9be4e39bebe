import Mathlib.Data.List.Basic
import PipelineTree.Proofs.Template.Filling

/-!
# Division — a text as literals and placeholders in turn

A division of a text names each placeholder, and what stands before, between and behind the placeholders: literals,
in none of which a placeholder stands.  Every text has one division and no other
(`Placeholder.existsUnique_division`).  A placeholder has a dollar sign in front and no other one, so that none
begins in a literal and ends in the placeholder behind it.

The reader goes from left to right and finds the placeholders of the division and nothing else
(`Placeholder.Division.pieces_text`).  So interpolation keeps the literals, puts the texts of the parameters between
them, and fails for the first parameter that has no text (`Substitution.interpolate_divided`).
-/

namespace PipelineTree

namespace Placeholder

/-- A placeholder that stands in a text: its parameter, and how it is written. -/
@[ext]
structure Mark where
  name : String
  text : List Char
  isWritten : IsWritten name text

/-- No placeholder stands in a text. It may be empty, and hold parts of placeholders. -/
def IsLiteral (text : List Char) : Prop := ∀ name, ¬Occurs name text

@[ext]
structure Literal where
  text : List Char
  isLiteral : IsLiteral text

/-- Literals and placeholders in turn, with a literal at both ends. -/
inductive Division where
  | last (literal : Literal)
  | mark (literal : Literal) (placeholder : Mark) (rest : Division)

namespace Division

/-- The text that is divided. -/
def text : Division → List Char
  | .last literal => literal.text
  | .mark literal placeholder rest => literal.text ++ (placeholder.text ++ rest.text)

def placeholders : Division → List Mark
  | .last _ => []
  | .mark _ placeholder rest => placeholder :: rest.placeholders

/-- The pieces that there are to find: the characters of the literals one by one, and the placeholders. -/
def pieces : Division → List Piece
  | .last literal => literal.text.map .char
  | .mark literal placeholder rest =>
    literal.text.map .char ++ .parameter placeholder.name :: rest.pieces

end Division

variable {name : String} {c : Char} {cs text rest : List Char}

/-! ## Literals -/

/-- What may follow a literal: nothing, or a placeholder, which begins with a dollar sign. -/
def Opens (rest : List Char) : Prop := ∀ d ∈ rest.head?, d = '$'

theorem opens_nil : Opens [] := by
  simp [Opens]

theorem Mark.opens (placeholder : Mark) (rest : List Char) : Opens (placeholder.text ++ rest) := by
  rcases placeholder.isWritten.dollar with ⟨tail, htext, -⟩
  simp [Opens, htext]

theorem isLiteral_nil : IsLiteral [] := by
  intro name hoccurs
  cases hoccurs.mem_dollar

theorem IsLiteral.of_append {front : List Char} (h : IsLiteral (front ++ cs)) : IsLiteral cs := by
  rintro name ⟨before, placeholder, after, hwritten, rfl⟩
  exact h name ⟨front ++ before, placeholder, after, hwritten, by simp⟩

/-- No placeholder begins with the first character of a literal, not even one that ends behind the literal. -/
theorem IsLiteral.atFront?_append (h : IsLiteral (c :: cs)) (hrest : Opens rest) :
    atFront? (c :: (cs ++ rest)) = none := by
  rw [Option.eq_none_iff_forall_ne_some]
  rintro ⟨name, after⟩ hfound
  rcases atFront?_eq_some_iff.1 hfound with ⟨placeholder, hwritten, htext⟩
  have hinside : ∀ behind, c :: cs ≠ placeholder ++ behind := fun behind hbehind =>
    h name ⟨[], placeholder, behind, hwritten, hbehind⟩
  have hsplit : (c :: cs) ++ rest = placeholder ++ after := htext
  rcases List.append_eq_append_iff.1 hsplit with ⟨across, hacross, hfollows⟩ | ⟨behind, hbehind, -⟩
  · cases across with
    | nil => exact hinside [] (by simp [hacross])
    | cons d across =>
      -- Where the literal ends, the placeholder goes on with a dollar sign, and it has one in front already.
      have hd : d = '$' := hrest d (by simp [hfollows])
      rcases hwritten.dollar with ⟨tail, hfront, hdollar⟩
      have htail : tail = cs ++ d :: across := (List.cons.inj (hfront.symm.trans hacross)).2
      exact hdollar (by simp [htail, hd])
  · exact hinside behind hbehind

/-- A literal is read character by character, whatever placeholder follows it. -/
theorem IsLiteral.pieces_append (h : IsLiteral text) (hrest : Opens rest) :
    pieces (text ++ rest) = text.map .char ++ pieces rest := by
  induction text with
  | nil => rfl
  | cons c cs ih =>
    have hlater : IsLiteral cs := IsLiteral.of_append (show IsLiteral ([c] ++ cs) from h)
    rw [List.cons_append, pieces_cons (h.atFront?_append hrest), ih hlater, List.map_cons, List.cons_append]

/-- Where a placeholder begins, there is nothing left of the literal in front. -/
theorem IsLiteral.eq_nil (h : IsLiteral cs) (hrest : Opens rest) {placeholder behind : List Char}
    (hwritten : IsWritten name placeholder) (htext : placeholder ++ behind = cs ++ rest) : cs = [] := by
  cases cs with
  | nil => rfl
  | cons c cs =>
    have hfound := Placeholder.atFront?_append hwritten behind
    rw [htext, List.cons_append, h.atFront?_append hrest] at hfound
    cases hfound

/-- A character in front of a literal makes a longer one, if no placeholder begins with it. -/
theorem IsLiteral.cons (h : IsLiteral cs) (hnone : atFront? (c :: (cs ++ rest)) = none) :
    IsLiteral (c :: cs) := by
  intro name
  rw [occurs_cons_iff, or_iff_left (h name)]
  rintro ⟨after, hfound⟩
  rcases atFront?_eq_some_iff.1 hfound with ⟨placeholder, hwritten, htext⟩
  have hlonger : atFront? (c :: (cs ++ rest)) = some (name, after ++ rest) := by
    refine atFront?_eq_some_iff.2 ⟨placeholder, hwritten, ?_⟩
    rw [← List.append_assoc, ← htext, List.cons_append]
  rw [hnone] at hlonger
  cases hlonger

/-! ## Every text has one division -/

namespace Division

/-- The reader finds the placeholders of a division, and nothing else. -/
theorem pieces_text (division : Division) : Placeholder.pieces division.text = division.pieces := by
  induction division with
  | last literal =>
    have hread := literal.isLiteral.pieces_append opens_nil
    have hend : Placeholder.pieces [] = [] := pieces_of_not_mem (by simp)
    rwa [List.append_nil, hend, List.append_nil] at hread
  | mark literal placeholder rest ih =>
    rw [text, literal.isLiteral.pieces_append (placeholder.opens _), pieces_append placeholder.isWritten, ih,
      pieces]

/-- The first literal of a text ends where the first placeholder begins. -/
theorem literal_unique {literal other : Literal} {first second : Mark} {behind behind' : List Char}
    (h : literal.text ++ (first.text ++ behind) = other.text ++ (second.text ++ behind')) :
    literal.text = other.text := by
  -- One of the literals would go on where the other one ends, and a placeholder begins there.
  rcases List.append_eq_append_iff.1 h with ⟨more, hother, hbehind⟩ | ⟨more, hliteral, hbehind⟩
  · have hmore : IsLiteral more := IsLiteral.of_append (hother ▸ other.isLiteral)
    rw [hother, hmore.eq_nil (second.opens behind') first.isWritten hbehind, List.append_nil]
  · have hmore : IsLiteral more := IsLiteral.of_append (hliteral ▸ literal.isLiteral)
    rw [hliteral, hmore.eq_nil (first.opens behind) second.isWritten hbehind, List.append_nil]

theorem text_injective {division other : Division} (h : division.text = other.text) : division = other := by
  induction division generalizing other with
  | last literal =>
    cases other with
    | last literal' => exact congrArg last (Literal.ext h)
    | mark literal' placeholder' rest' =>
      have hoccurs : Occurs placeholder'.name literal.text := ⟨_, _, _, placeholder'.isWritten, h⟩
      exact absurd hoccurs (literal.isLiteral _)
  | mark literal placeholder rest ih =>
    cases other with
    | last literal' =>
      have hoccurs : Occurs placeholder.name literal'.text := ⟨_, _, _, placeholder.isWritten, h.symm⟩
      exact absurd hoccurs (literal'.isLiteral _)
    | mark literal' placeholder' rest' =>
      have hliteral : literal.text = literal'.text := literal_unique h
      have hbehind : placeholder.text ++ rest.text = placeholder'.text ++ rest'.text := by
        rw [text, text, hliteral] at h
        exact List.append_cancel_left h
      rcases placeholder.isWritten.unique placeholder'.isWritten hbehind with ⟨hname, hrest⟩
      have htext : placeholder.text = placeholder'.text := by
        rw [hrest] at hbehind
        exact List.append_cancel_right hbehind
      rw [Literal.ext hliteral, Mark.ext hname htext, ih hrest]

end Division

theorem exists_division (text : List Char) : ∃ division : Division, division.text = text := by
  -- A placeholder opens a new part, and any other character belongs to the first literal.
  fun_induction pieces text with
  | case1 text name rest hfound ih =>
    rcases ih with ⟨division, rfl⟩
    rcases atFront?_eq_some_iff.1 hfound with ⟨placeholder, hwritten, rfl⟩
    exact ⟨.mark ⟨[], isLiteral_nil⟩ ⟨name, placeholder, hwritten⟩ division, rfl⟩
  | case2 hnone => exact ⟨.last ⟨[], isLiteral_nil⟩, rfl⟩
  | case3 c cs hnone ih =>
    rcases ih with ⟨division, rfl⟩
    cases division with
    | last literal =>
      have hend : atFront? (c :: (literal.text ++ [])) = none := by rwa [List.append_nil]
      exact ⟨.last ⟨c :: literal.text, literal.isLiteral.cons hend⟩, rfl⟩
    | mark literal placeholder rest =>
      exact ⟨.mark ⟨c :: literal.text, literal.isLiteral.cons hnone⟩ placeholder rest, rfl⟩

theorem existsUnique_division (text : List Char) : ∃! division : Division, division.text = text := by
  rcases exists_division text with ⟨division, htext⟩
  exact ⟨division, htext, fun other hother => Division.text_injective (hother.trans htext.symm)⟩

end Placeholder

end PipelineTree
