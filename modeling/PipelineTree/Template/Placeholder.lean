import PipelineTree.Text.Blank

/-!
# Placeholder — where parameters go in a text

A placeholder is `${{ params.NAME }}`, with any white space inside the braces.  A text is read as a row
of pieces: placeholders, and all other characters one by one.  Placeholders are found from left to
right and never overlap.
-/

namespace PipelineTree

namespace Placeholder

def isNameStart (c : Char) : Bool := c.isAlpha || c == '_'

def isNameRest (c : Char) : Bool := c.isAlphanum || c == '_' || c == '-'

def dropLiteral? : (literal text : List Char) → Option (List Char)
  | [], text => some text
  | _ :: _, [] => none
  | l :: ls, c :: cs => if l == c then dropLiteral? ls cs else none

theorem length_of_dropLiteral? {literal text rest : List Char}
    (dropped : dropLiteral? literal text = some rest) :
    rest.length + literal.length = text.length := by
  induction literal generalizing text with
  | nil => simp_all [dropLiteral?]
  | cons l ls ih =>
    cases text with
    | nil => simp [dropLiteral?] at dropped
    | cons c cs =>
      simp only [dropLiteral?] at dropped
      split at dropped
      · simp [← ih dropped]; omega
      · simp at dropped

/-- A placeholder at the front of a text: its parameter, and what follows it. -/
def atFront? (text : List Char) : Option (String × List Char) := do
  let afterOpen ← dropLiteral? ['$', '{', '{'] text
  let name ← dropLiteral? "params.".toList (dropBlank afterOpen)
  match name with
  | [] => none
  | c :: cs =>
    if isNameStart c then
      let rest ← dropLiteral? ['}', '}'] (dropBlank (cs.dropWhile isNameRest))
      some (String.ofList (c :: cs.takeWhile isNameRest), rest)
    else none

/-- What follows a placeholder is shorter. -/
theorem length_of_atFront? {text rest : List Char} {name : String}
    (found : atFront? text = some (name, rest)) : rest.length < text.length := by
  simp only [atFront?, Option.bind_eq_bind, Option.bind_eq_some_iff] at found
  obtain ⟨afterOpen, opened, named, dotted, found⟩ := found
  have open_length := length_of_dropLiteral? opened
  have dot_length := length_of_dropLiteral? dotted
  have blank_length := length_dropBlank_le afterOpen
  cases named with
  | nil => simp at found
  | cons c cs =>
    simp only at found
    split at found
    · simp only [Option.bind_eq_some_iff] at found
      obtain ⟨closed, dropped, same⟩ := found
      simp only [Option.some.injEq, Prod.mk.injEq] at same
      have close_length := length_of_dropLiteral? dropped
      have blank_length' := length_dropBlank_le (cs.dropWhile isNameRest)
      have name_length := (List.dropWhile_sublist isNameRest (l := cs)).length_le
      rw [← same.2]
      simp at open_length dot_length close_length
      omega
    · simp at found

/-- A piece of a text. -/
inductive Piece where
  | char (c : Char)
  | parameter (name : String)
  deriving DecidableEq, Repr

def pieces (text : List Char) : List Piece :=
  match _found : atFront? text with
  | some (name, rest) => .parameter name :: pieces rest
  | none =>
    match text with
    | [] => []
    | c :: cs => .char c :: pieces cs
termination_by text.length
decreasing_by
  · exact length_of_atFront? _found
  · simp

/-! ## Texts without placeholders -/

theorem atFront?_of_ne {c : Char} (h : c ≠ '$') (cs : List Char) : atFront? (c :: cs) = none := by
  simp [atFront?, dropLiteral?, h.symm]

theorem pieces_cons_of_ne {c : Char} (h : c ≠ '$') (cs : List Char) :
    pieces (c :: cs) = .char c :: pieces cs := by
  rw [pieces]
  split
  · rename_i found
    simp [atFront?_of_ne h] at found
  · rfl

theorem pieces_of_not_mem {text : List Char} (h : '$' ∉ text) : pieces text = text.map .char := by
  induction text with
  | nil =>
    rw [pieces]
    rfl
  | cons c cs ih =>
    rw [List.mem_cons, not_or] at h
    rw [pieces_cons_of_ne (Ne.symm h.1), ih h.2, List.map_cons]

/-! ## Texts that are a placeholder -/

/-- The first placeholder of a text: its parameter, and how it is written. -/
def first? : List Char → Option (String × List Char)
  | [] => none
  | c :: cs =>
    match atFront? (c :: cs) with
    | some (name, rest) => some (name, (c :: cs).take ((c :: cs).length - rest.length))
    | none => first? cs

/-- The number of bytes that a text takes up. -/
def byteLength : List Char → Nat
  | [] => 0
  | c :: cs => c.utf8Size + byteLength cs

/-- The parameter of the first placeholder of a text, if that is as long as the text without the white
space around it. -/
def whole? (text : List Char) : Option String :=
  match first? text with
  | some (name, placeholder) =>
    if byteLength placeholder = byteLength (trimBlank text) then some name else none
  | none => none

end Placeholder

end PipelineTree
