import Mathlib.Data.List.TakeWhile
import PipelineTree.Template.Placeholder

/-!
# Occurrence — where placeholders stand in a text

`Placeholder.IsWritten` says how a placeholder is written.  The reader finds one at the front of a text exactly
if one is written there (`atFront?_eq_some_iff`).  A placeholder begins with the only dollar sign that it has,
so that none begins inside another one.  Hence the pieces of a text name exactly the parameters of the
placeholders that stand anywhere in it (`mem_pieces_iff`).

For a text that is one placeholder the reader compares two lengths in bytes, and nothing else.  That is enough:
a text is read as one placeholder exactly if it is one with white space around it (`whole?_eq_some_iff`).
-/

namespace PipelineTree

/-! ## White space -/

def AllBlank (text : List Char) : Prop := ∀ c ∈ text, isBlank c = true

/-- White space is dropped up to the first visible character. -/
theorem dropBlank_append_cons (front : List Char) {c : Char} (hc : isBlank c = false)
    (rest : List Char) : dropBlank (front ++ c :: rest) = dropBlank front ++ c :: rest := by
  induction front with
  | nil => simp [dropBlank, hc]
  | cons d front ih =>
    by_cases hd : isBlank d = true
    · simpa [dropBlank, hd] using ih
    · simp [dropBlank, hd]

theorem dropBlank_eq_nil_iff {text : List Char} : dropBlank text = [] ↔ AllBlank text := by
  simp [dropBlank, AllBlank, List.dropWhile_eq_nil_iff]

theorem dropBlank_append {blanks rest : List Char} {c : Char} (hblanks : AllBlank blanks)
    (hc : isBlank c = false) : dropBlank (blanks ++ c :: rest) = c :: rest := by
  simp [dropBlank_append_cons blanks hc, dropBlank_eq_nil_iff.2 hblanks]

/-- A text is its white space in front, and what is left when that is dropped. -/
theorem exists_blanks_dropBlank (text : List Char) :
    ∃ blanks, AllBlank blanks ∧ text = blanks ++ dropBlank text :=
  ⟨text.takeWhile isBlank, fun _ hc => List.mem_takeWhile_imp hc, List.takeWhile_append_dropWhile.symm⟩

/-- What lies between two visible characters is kept, and around it the white space is dropped. -/
theorem trimBlank_append {before inner after : List Char} {first last : Char}
    {rest front : List Char} (hfirst : inner = first :: rest) (hlast : inner = front ++ [last])
    (hfirstBlank : isBlank first = false) (hlastBlank : isBlank last = false) :
    trimBlank (before ++ (inner ++ after)) =
      dropBlank before ++ (inner ++ (dropBlank after.reverse).reverse) := by
  have hfront : dropBlank (before ++ (inner ++ after)) = dropBlank before ++ (inner ++ after) := by
    simpa [hfirst] using dropBlank_append_cons before hfirstBlank (rest ++ after)
  -- From behind, the last character is the first one.
  have hback : dropBlank (dropBlank before ++ (inner ++ after)).reverse =
      dropBlank after.reverse ++ (dropBlank before ++ inner).reverse := by
    simpa [hlast] using
      dropBlank_append_cons after.reverse hlastBlank (front.reverse ++ (dropBlank before).reverse)
  calc
    trimBlank (before ++ (inner ++ after)) =
        (dropBlank (dropBlank before ++ (inner ++ after)).reverse).reverse := by
      rw [trimBlank, hfront]
    _ = (dropBlank after.reverse ++ (dropBlank before ++ inner).reverse).reverse := by rw [hback]
    _ = dropBlank before ++ (inner ++ (dropBlank after.reverse).reverse) := by simp

namespace Placeholder

/-! ## Written placeholders -/

/-- The names of parameters that a placeholder can have. -/
def IsName (name : List Char) : Prop :=
  ∃ c cs, name = c :: cs ∧ isNameStart c = true ∧ ∀ d ∈ cs, isNameRest d = true

/-- A text is a placeholder for a parameter, with any white space inside the braces. -/
def IsWritten (name : String) (text : List Char) : Prop :=
  ∃ before after, AllBlank before ∧ AllBlank after ∧ IsName name.toList ∧
    text = '$' :: '{' :: '{' ::
      (before ++ ("params.".toList ++ (name.toList ++ (after ++ ['}', '}']))))

/-- A placeholder as it is usually written, with one blank on each side. -/
theorem isWritten_spaced {name : String} (h : IsName name.toList) :
    IsWritten name ("$\x7b\x7b params." ++ name ++ " \x7d\x7d").toList := by
  refine ⟨[' '], [' '], by simp [AllBlank, isBlank], by simp [AllBlank, isBlank], h, ?_⟩
  simp

/-- A placeholder for a parameter stands somewhere in a text. -/
def Occurs (name : String) (text : List Char) : Prop :=
  ∃ before placeholder after, IsWritten name placeholder ∧ text = before ++ (placeholder ++ after)

/-- A text is one placeholder, with white space at most around it. -/
def IsWhole (name : String) (text : List Char) : Prop :=
  ∃ before placeholder after, AllBlank before ∧ AllBlank after ∧ IsWritten name placeholder ∧
    text = before ++ (placeholder ++ after)

variable {name : String} {placeholder text rest : List Char}

theorem dropLiteral?_eq_some_iff {literal : List Char} :
    dropLiteral? literal text = some rest ↔ text = literal ++ rest := by
  induction literal generalizing text with
  | nil => simp [dropLiteral?, eq_comm]
  | cons l ls ih =>
    cases text with
    | nil => simp [dropLiteral?]
    | cons c cs =>
      by_cases hc : l = c
      · simp [dropLiteral?, hc, ih]
      · simp [dropLiteral?, hc, Ne.symm hc]

theorem isNameRest_of_isBlank {c : Char} (h : isBlank c = true) : isNameRest c = false := by
  have hunderscore : (c == '_') = false := beq_eq_false_iff_ne.2 fun heq => by
    rw [heq] at h
    exact absurd h (by decide)
  have hhyphen : (c == '-') = false := beq_eq_false_iff_ne.2 fun heq => by
    rw [heq] at h
    exact absurd h (by decide)
  -- Letters and digits are told by their code points.
  have hrest : isNameRest c =
      (((decide ('A'.val ≤ c.val ∧ c.val ≤ 'Z'.val) || ('a'.val ≤ c.val && c.val ≤ 'z'.val)) ||
        ('0'.val ≤ c.val && c.val ≤ '9'.val)) || c == '_' || c == '-') := rfl
  rw [hrest, hunderscore, hhyphen]
  simp only [isBlank, Bool.or_eq_true, Bool.and_eq_true, decide_eq_true_eq, beq_iff_eq] at h
  simp only [Bool.or_false, Bool.or_eq_false_iff, Bool.and_eq_false_iff, decide_eq_false_iff_not,
    UInt32.le_iff_toNat_le, Char.toNat_val]
  simp
  omega

theorem IsName.not_mem_dollar {chars : List Char} (h : IsName chars) : '$' ∉ chars := by
  rcases h with ⟨c, cs, rfl, hstart, hrest⟩
  have hfirst : c ≠ '$' := by
    rintro rfl
    exact absurd hstart (by decide)
  have hothers : '$' ∉ cs := fun hmem => absurd (hrest _ hmem) (by decide)
  simpa [hfirst.symm] using hothers

theorem not_mem_dollar_of_allBlank {blanks : List Char} (h : AllBlank blanks) : '$' ∉ blanks :=
  fun hmem => absurd (h _ hmem) (by decide)

/-- A placeholder has a dollar sign in front and no other one. -/
theorem IsWritten.dollar (h : IsWritten name placeholder) :
    ∃ tail, placeholder = '$' :: tail ∧ '$' ∉ tail := by
  rcases h with ⟨before, after, hbefore, hafter, hname, rfl⟩
  refine ⟨_, rfl, ?_⟩
  simp [not_mem_dollar_of_allBlank hbefore, not_mem_dollar_of_allBlank hafter, hname.not_mem_dollar]

theorem Occurs.mem_dollar (h : Occurs name text) : '$' ∈ text := by
  rcases h with ⟨before, placeholder, after, hwritten, rfl⟩
  rcases hwritten.dollar with ⟨tail, rfl, -⟩
  simp

theorem IsWritten.brace (h : IsWritten name placeholder) : ∃ front, placeholder = front ++ ['}'] := by
  rcases h with ⟨before, after, -, -, -, rfl⟩
  exact ⟨'$' :: '{' :: '{' :: (before ++ ("params.".toList ++ (name.toList ++ (after ++ ['}'])))),
    by simp⟩

/-! ## Placeholders at the front -/

theorem atFront?_append (h : IsWritten name placeholder) (rest : List Char) :
    atFront? (placeholder ++ rest) = some (name, rest) := by
  rcases h with ⟨before, after, hbefore, hafter, ⟨c, cs, hchars, hstart, hrest⟩, rfl⟩
  have hbrace : isBlank '}' = false := by decide
  -- Behind the name comes white space or a brace, and neither belongs to a name.
  have hend : ∃ d tail, after ++ '}' :: '}' :: rest = d :: tail ∧ isNameRest d = false := by
    cases after with
    | nil => exact ⟨_, _, rfl, by decide⟩
    | cons d ds => exact ⟨_, _, rfl, isNameRest_of_isBlank (hafter d List.mem_cons_self)⟩
  rcases hend with ⟨d, tail, htail, hd⟩
  have hopen : dropLiteral? ['$', '{', '{'] ('$' :: '{' :: '{' :: (before ++ ("params.".toList ++
      (name.toList ++ (after ++ ['}', '}'])))) ++ rest) =
        some (before ++ 'p' :: ("arams.".toList ++ (c :: (cs ++ d :: tail)))) := by
    rw [dropLiteral?_eq_some_iff]
    simp [hchars, ← htail]
  have hblank : dropBlank (before ++ 'p' :: ("arams.".toList ++ (c :: (cs ++ d :: tail)))) =
      'p' :: ("arams.".toList ++ (c :: (cs ++ d :: tail))) := dropBlank_append hbefore (by decide)
  have hdot : dropLiteral? "params.".toList ('p' :: ("arams.".toList ++ (c :: (cs ++ d :: tail)))) =
      some (c :: (cs ++ d :: tail)) := dropLiteral?_eq_some_iff.2 (by simp)
  have hdropped : (cs ++ d :: tail).dropWhile isNameRest = d :: tail := by
    rw [List.dropWhile_append_of_pos hrest, List.dropWhile_cons_of_neg (by simp [hd])]
  have htaken : (cs ++ d :: tail).takeWhile isNameRest = cs := by
    rw [List.takeWhile_append_of_pos hrest, List.takeWhile_cons_of_neg (by simp [hd]), List.append_nil]
  have hclose : dropLiteral? ['}', '}'] (dropBlank (d :: tail)) = some rest := by
    rw [← htail, dropBlank_append hafter hbrace, dropLiteral?_eq_some_iff]
    rfl
  have hname : String.ofList (c :: cs) = name := by rw [← hchars, String.ofList_toList]
  rw [atFront?, hopen]
  simp only [Option.bind_eq_bind, Option.bind_some, hblank, hdot, hstart,
    if_true, hdropped, htaken, hclose, hname]

/-- A placeholder is found at the front of a text exactly if one is written there. -/
theorem atFront?_eq_some_iff :
    atFront? text = some (name, rest) ↔
      ∃ placeholder, IsWritten name placeholder ∧ text = placeholder ++ rest := by
  constructor
  · intro hfound
    simp only [atFront?, Option.bind_eq_bind, Option.bind_eq_some_iff] at hfound
    rcases hfound with ⟨afterOpen, hopen, named, hdot, hfound⟩
    cases named with
    | nil => simp at hfound
    | cons c cs =>
      simp only at hfound
      split at hfound
      next hstart =>
        rcases Option.bind_eq_some_iff.1 hfound with ⟨closed, hclose, hsame⟩
        rcases Prod.mk.inj (Option.some.inj hsame) with ⟨hname, rfl⟩
        rcases exists_blanks_dropBlank afterOpen with ⟨before, hbefore, hfront⟩
        rcases exists_blanks_dropBlank (cs.dropWhile isNameRest) with ⟨after, hafter, hback⟩
        have hchars : name.toList = c :: cs.takeWhile isNameRest := by
          rw [← hname, String.toList_ofList]
        have hcs : cs = cs.takeWhile isNameRest ++ (after ++ ('}' :: '}' :: closed)) := by
          calc
            cs = cs.takeWhile isNameRest ++ cs.dropWhile isNameRest :=
              List.takeWhile_append_dropWhile.symm
            _ = cs.takeWhile isNameRest ++ (after ++ dropBlank (cs.dropWhile isNameRest)) := by
              rw [← hback]
            _ = cs.takeWhile isNameRest ++ (after ++ ('}' :: '}' :: closed)) := by
              rw [dropLiteral?_eq_some_iff.1 hclose]
              rfl
        refine ⟨_, ⟨before, after, hbefore, hafter, ?_, rfl⟩, ?_⟩
        · exact ⟨c, cs.takeWhile isNameRest, hchars, hstart, fun _ hd => List.mem_takeWhile_imp hd⟩
        · calc
            text = '$' :: '{' :: '{' :: afterOpen := dropLiteral?_eq_some_iff.1 hopen
            _ = '$' :: '{' :: '{' :: (before ++ ("params.".toList ++ (c :: cs))) := by
              rw [hfront, dropLiteral?_eq_some_iff.1 hdot]
            _ = _ := by
              rw [hcs, hchars]
              simp
      next => simp at hfound
  · rintro ⟨placeholder, hwritten, rfl⟩
    exact atFront?_append hwritten rest

/-- Two placeholders at the front of one text are the same. -/
theorem IsWritten.unique {other : String} {placeholder' rest' : List Char}
    (h : IsWritten name placeholder) (h' : IsWritten other placeholder')
    (htext : placeholder ++ rest = placeholder' ++ rest') : name = other ∧ rest = rest' := by
  have hfound := atFront?_append h rest
  rw [htext, atFront?_append h' rest'] at hfound
  exact (Prod.mk.inj (Option.some.inj hfound)).imp Eq.symm Eq.symm

/-- A placeholder stands in front of a text, or further back. -/
theorem occurs_cons_iff {c : Char} {cs : List Char} :
    Occurs name (c :: cs) ↔ (∃ rest, atFront? (c :: cs) = some (name, rest)) ∨ Occurs name cs := by
  constructor
  · rintro ⟨before, placeholder, after, hwritten, htext⟩
    cases before with
    | nil => exact .inl ⟨after, atFront?_eq_some_iff.2 ⟨placeholder, hwritten, htext⟩⟩
    | cons d before => exact .inr ⟨before, placeholder, after, hwritten, (List.cons.inj htext).2⟩
  · rintro (⟨rest, hfound⟩ | ⟨before, placeholder, after, hwritten, rfl⟩)
    · rcases atFront?_eq_some_iff.1 hfound with ⟨placeholder, hwritten, htext⟩
      exact ⟨[], placeholder, rest, hwritten, htext⟩
    · exact ⟨c :: before, placeholder, after, hwritten, rfl⟩

/-! ## Pieces -/

theorem pieces_append (h : IsWritten name placeholder) (rest : List Char) :
    pieces (placeholder ++ rest) = .parameter name :: pieces rest := by
  have hfront := atFront?_append h rest
  rw [pieces]
  split
  next hfound =>
    rw [hfront] at hfound
    rcases Prod.mk.inj (Option.some.inj hfound) with ⟨rfl, rfl⟩
    rfl
  next hnone => rw [hfront] at hnone; cases hnone

theorem pieces_cons {c : Char} {cs : List Char} (h : atFront? (c :: cs) = none) :
    pieces (c :: cs) = .char c :: pieces cs := by
  rw [pieces]
  split
  next hfound => rw [h] at hfound; cases hfound
  next => rfl

/-- Nothing is found in what has no dollar sign, and what follows is read as it stands. -/
theorem pieces_append_of_not_mem {front : List Char} (h : '$' ∉ front) (rest : List Char) :
    pieces (front ++ rest) = front.map .char ++ pieces rest := by
  induction front with
  | nil => rfl
  | cons c cs ih =>
    rw [List.mem_cons, not_or] at h
    rw [List.cons_append, pieces_cons_of_ne (Ne.symm h.1), ih h.2, List.map_cons, List.cons_append]

/-- A placeholder behind another one does not begin inside it. -/
theorem occurs_of_append {other : String} {placeholder' : List Char} (h : IsWritten other placeholder')
    (hoccurs : Occurs name (placeholder' ++ rest)) : name = other ∨ Occurs name rest := by
  rcases hoccurs with ⟨before, placeholder, after, hwritten, htext⟩
  cases before with
  | nil => exact .inl (hwritten.unique h htext.symm).1
  | cons c before =>
    refine .inr ?_
    rcases hwritten.dollar with ⟨tail, hplaceholder, -⟩
    rcases h.dollar with ⟨tail', hplaceholder', hdollar⟩
    rcases List.append_eq_append_iff.1 htext with ⟨inside, hbefore, hrest⟩ | ⟨inside, houter, hrest⟩
    · exact ⟨inside, placeholder, after, hwritten, hrest⟩
    · cases inside with
      | nil => exact ⟨[], placeholder, after, hwritten, hrest.symm⟩
      | cons d inside =>
        -- The first character of the placeholder behind would be another dollar sign in the one in front.
        have hd : d = '$' := by
          rw [hplaceholder] at hrest
          exact (List.cons.inj hrest).1.symm
        rw [hplaceholder', List.cons_append] at houter
        have hmem : '$' ∈ tail' := by simp [(List.cons.inj houter).2, hd]
        exact absurd hmem hdollar

/-- The pieces of a text name the parameters of the placeholders that stand in it. -/
theorem mem_pieces_iff : .parameter name ∈ pieces text ↔ Occurs name text := by
  -- A placeholder that stands further back is one of what follows the first piece.
  fun_induction pieces text with
  | case1 text other rest hfound ih =>
    rcases atFront?_eq_some_iff.1 hfound with ⟨placeholder, hwritten, rfl⟩
    rw [List.mem_cons, Piece.parameter.injEq, ih]
    constructor
    · rintro (rfl | ⟨before, inner, after, hinner, rfl⟩)
      · exact ⟨[], placeholder, rest, hwritten, rfl⟩
      · exact ⟨placeholder ++ before, inner, after, hinner, (List.append_assoc _ _ _).symm⟩
    · exact occurs_of_append hwritten
  | case2 hnone =>
    constructor
    · intro hmem
      cases hmem
    · intro hoccurs
      cases hoccurs.mem_dollar
  | case3 c cs hnone ih =>
    rw [List.mem_cons, or_iff_right (by simp), ih, occurs_cons_iff]
    simp [hnone]

/-! ## Texts that are a placeholder -/

/-- Nothing is found in what has no dollar sign. -/
theorem first?_append_of_not_mem {front : List Char} (h : '$' ∉ front) (rest : List Char) :
    first? (front ++ rest) = first? rest := by
  induction front with
  | nil => rfl
  | cons c cs ih =>
    have hc : c ≠ '$' := fun heq => h (by simp [heq])
    have hcs : '$' ∉ cs := fun hmem => h (by simp [hmem])
    simp [first?, atFront?_of_ne hc, ih hcs]

theorem first?_append (h : IsWritten name placeholder) (rest : List Char) :
    first? (placeholder ++ rest) = some (name, placeholder) := by
  rcases h.dollar with ⟨tail, hplaceholder, -⟩
  have hfront : atFront? ('$' :: (tail ++ rest)) = some (name, rest) := by
    simpa [hplaceholder] using atFront?_append h rest
  have hlength : tail.length + rest.length + 1 - rest.length = tail.length + 1 := by omega
  simp [hplaceholder, first?, hfront, hlength]

/-- What is found first is a placeholder that stands in the text. -/
theorem of_first?_eq_some (h : first? text = some (name, placeholder)) :
    IsWritten name placeholder ∧ ∃ before after, text = before ++ (placeholder ++ after) := by
  induction text with
  | nil => simp [first?] at h
  | cons c cs ih =>
    cases hfront : atFront? (c :: cs) with
    | some found =>
      rcases atFront?_eq_some_iff.1 hfront with ⟨written, hwritten, htext⟩
      have hfirst := first?_append hwritten found.2
      rw [← htext, h] at hfirst
      cases hfirst
      exact ⟨hwritten, [], found.2, htext⟩
    | none =>
      have hlater : first? cs = some (name, placeholder) := by simpa [first?, hfront] using h
      rcases ih hlater with ⟨hwritten, before, after, rfl⟩
      exact ⟨hwritten, c :: before, after, rfl⟩

theorem byteLength_append (front back : List Char) :
    byteLength (front ++ back) = byteLength front + byteLength back := by
  induction front with
  | nil => simp [byteLength]
  | cons c cs ih => simp [byteLength, ih, Nat.add_assoc]

theorem byteLength_eq_zero_iff : byteLength text = 0 ↔ text = [] := by
  cases text with
  | nil => simp [byteLength]
  | cons c cs =>
    have hpos : 0 < c.utf8Size := c.utf8Size_pos
    simp [byteLength]
    omega

theorem IsWritten.trimBlank_eq (h : IsWritten name placeholder) (before after : List Char) :
    trimBlank (before ++ (placeholder ++ after)) =
      dropBlank before ++ (placeholder ++ (dropBlank after.reverse).reverse) := by
  rcases h.dollar with ⟨tail, hfirst, -⟩
  rcases h.brace with ⟨front, hlast⟩
  exact trimBlank_append hfirst hlast (by decide) (by decide)

/--
The first placeholder of a text is as long as what is left without the white space around it exactly if
there is nothing else in the text: a placeholder begins and ends with visible characters, so what is left
holds the whole of it, and every character takes up some bytes.
-/
theorem whole?_eq_some_iff : whole? text = some name ↔ IsWhole name text := by
  constructor
  · intro hwhole
    cases hfirst : first? text with
    | none => simp [whole?, hfirst] at hwhole
    | some found =>
      rcases found with ⟨other, placeholder⟩
      simp only [whole?, hfirst, Option.ite_none_right_eq_some, Option.some.injEq] at hwhole
      rcases hwhole with ⟨hlength, rfl⟩
      rcases of_first?_eq_some hfirst with ⟨hwritten, before, after, rfl⟩
      rw [hwritten.trimBlank_eq] at hlength
      simp only [byteLength_append] at hlength
      have hbefore : byteLength (dropBlank before) = 0 := by omega
      have hafter : byteLength (dropBlank after.reverse).reverse = 0 := by omega
      rw [byteLength_eq_zero_iff, dropBlank_eq_nil_iff] at hbefore
      rw [byteLength_eq_zero_iff, List.reverse_eq_nil_iff, dropBlank_eq_nil_iff] at hafter
      exact ⟨before, placeholder, after, hbefore, fun c hc => hafter c (List.mem_reverse.2 hc),
        hwritten, rfl⟩
  · rintro ⟨before, placeholder, after, hbefore, hafter, hwritten, rfl⟩
    have hfirst : first? (before ++ (placeholder ++ after)) = some (name, placeholder) :=
      (first?_append_of_not_mem (not_mem_dollar_of_allBlank hbefore) _).trans
        (first?_append hwritten after)
    have hreversed : AllBlank after.reverse := fun c hc => hafter c (List.mem_reverse.1 hc)
    have htrimmed : trimBlank (before ++ (placeholder ++ after)) = placeholder := by
      simp [hwritten.trimBlank_eq, dropBlank_eq_nil_iff.2 hbefore, dropBlank_eq_nil_iff.2 hreversed]
    simp [whole?, hfirst, htrimmed]

/-- In a text that is one placeholder there is no other one. -/
theorem IsWhole.occurs_iff {other : String} (h : IsWhole name text) :
    Occurs other text ↔ other = name := by
  rcases h with ⟨before, placeholder, after, hbefore, hafter, hwritten, rfl⟩
  have hpieces : pieces (before ++ (placeholder ++ after)) =
      before.map .char ++ .parameter name :: after.map .char := by
    calc
      pieces (before ++ (placeholder ++ after)) = before.map .char ++ pieces (placeholder ++ after) :=
        pieces_append_of_not_mem (not_mem_dollar_of_allBlank hbefore) _
      _ = before.map .char ++ .parameter name :: pieces after := by rw [pieces_append hwritten]
      _ = before.map .char ++ .parameter name :: after.map .char := by
        rw [pieces_of_not_mem (not_mem_dollar_of_allBlank hafter)]
  rw [← mem_pieces_iff, hpieces]
  simp

end Placeholder

end PipelineTree
