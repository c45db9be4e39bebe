import Mathlib.Data.List.Basic
import PipelineTree.Proofs.Template.Filling

/-!
# Whole — texts that become the value of a parameter

A text that is one placeholder, with white space at most around it, becomes the value of the parameter itself,
of whatever sort that is.  Any other text stays a text (`Substitution.substituteText_decides`).  The reader only
compares the lengths of the first placeholder and of the text without the white space around it; that this
comes to the same is `Placeholder.whole?_eq_some_iff`.  In a text that is one placeholder, whatever placeholder
one finds has only white space around it (`Placeholder.IsWhole.blank_around`), so that a second placeholder, or
a visible character beside one, is enough for the text to stay a text.
-/

namespace PipelineTree

namespace Placeholder

/-- A visible character stands beside a placeholder. -/
def IsAccompanied (text : List Char) : Prop :=
  ∃ name before placeholder after, IsWritten name placeholder ∧
    text = before ++ (placeholder ++ after) ∧ ∃ c ∈ before ++ after, isBlank c = false

/-- Two placeholders stand in a text, one behind the other. -/
def OccurTwice (text : List Char) : Prop :=
  ∃ name other before first between second after, IsWritten name first ∧ IsWritten other second ∧
    text = before ++ (first ++ (between ++ (second ++ after)))

variable {name : String} {text : List Char}

/-- Where a text is one placeholder, every placeholder in it has only white space around it. -/
theorem IsWhole.blank_around (h : IsWhole name text) {other : String}
    {before placeholder after : List Char} (hwritten : IsWritten other placeholder)
    (htext : text = before ++ (placeholder ++ after)) : AllBlank before ∧ AllBlank after := by
  rcases h with ⟨blanks, whole, blanks', hblanks, hblanks', hwhole, rfl⟩
  rcases hwhole.dollar with ⟨tail, rfl, htail⟩
  rcases hwritten.dollar with ⟨tail', rfl, -⟩
  -- There is one dollar sign in the text, and both placeholders begin with it.
  have hfront : '$' ∉ blanks := not_mem_dollar_of_allBlank hblanks
  have hback : '$' ∉ tail ++ blanks' := by simp [htail, not_mem_dollar_of_allBlank hblanks']
  rcases (List.append_cons_inj_of_notMem hfront hback).1 htext with ⟨hbefore, -, hbehind⟩
  have hsame : '$' :: tail ++ blanks' = '$' :: tail' ++ after := by simp [hbehind]
  have hafter : blanks' = after := (hwhole.unique hwritten hsame).2
  exact ⟨hbefore ▸ hblanks, hafter ▸ hblanks'⟩

theorem OccurTwice.isAccompanied (h : OccurTwice text) : IsAccompanied text := by
  rcases h with ⟨name, other, before, first, between, second, after, hfirst, hsecond, rfl⟩
  rcases hsecond.dollar with ⟨tail, rfl, -⟩
  -- The dollar sign of the second placeholder is visible.
  exact ⟨name, before, first, _, hfirst, rfl, '$', by simp, by decide⟩

theorem IsAccompanied.not_isWhole (h : IsAccompanied text) (name : String) : ¬IsWhole name text := by
  rcases h with ⟨other, before, placeholder, after, hwritten, htext, c, hc, hvisible⟩
  intro hwhole
  rcases hwhole.blank_around hwritten htext with ⟨hbefore, hafter⟩
  have hblank : isBlank c = true := by
    rcases List.mem_append.1 hc with hfront | hback
    · exact hbefore c hfront
    · exact hafter c hback
  simp [hvisible] at hblank

end Placeholder

namespace Substitution

open Placeholder

variable {params : Props} {name s : String}

theorem substituteText_of_isWhole (h : IsWhole name s.toList) :
    substituteText params s = parameter params name := by
  simp [substituteText, whole?_eq_some_iff.2 h]

theorem substituteText_of_not_isWhole (h : ∀ name, ¬IsWhole name s.toList) :
    substituteText params s = (interpolate params s).map .text := by
  have hnone : whole? s.toList = none := by
    rw [Option.eq_none_iff_forall_ne_some]
    exact fun name hwhole => h name (whole?_eq_some_iff.1 hwhole)
  simp [substituteText, hnone]
  rfl

/--
A text that is one placeholder, with white space at most around it, becomes the value of the parameter as it
is, or fails if there is none; every other text becomes the text that interpolation gives, or fails as
interpolation does.  The latter is the case wherever two placeholders stand in the text, or a visible character
beside one.
-/
theorem substituteText_decides (params : Props) (s : String) :
    (∀ name, IsWhole name s.toList →
      (∀ value, params.lookup name = some value → substituteText params s = .ok value) ∧
        (params.lookup name = none →
          substituteText params s = .error (.unknownParameter name))) ∧
      ((∀ name, ¬IsWhole name s.toList) →
        substituteText params s = (interpolate params s).map .text) ∧
      (OccurTwice s.toList ∨ IsAccompanied s.toList →
        substituteText params s = (interpolate params s).map .text) := by
  refine ⟨?_, substituteText_of_not_isWhole, ?_⟩
  · intro name hwhole
    constructor
    · intro value hvalue
      simp [substituteText_of_isWhole hwhole, parameter, hvalue]
    · intro hunbound
      simp [substituteText_of_isWhole hwhole, parameter, hunbound]
  · intro hmore
    have haccompanied : IsAccompanied s.toList := by
      rcases hmore with htwice | hbeside
      · exact htwice.isAccompanied
      · exact hbeside
    exact substituteText_of_not_isWhole haccompanied.not_isWhole

/-- A placeholder in a number of minutes, as usually written. -/
def minutes : String := "$\x7b\x7b params.minutes \x7d\x7d"

theorem isWritten_minutes : IsWritten "minutes" minutes.toList :=
  isWritten_spaced ⟨'m', "inutes".toList, rfl, rfl, by simp [isNameRest]⟩

/-- With an em space in front and a line feed behind, the placeholder becomes the number; with a letter behind,
it becomes the digits. -/
theorem substituteText_decides_minutes :
    IsWhole "minutes" ("\u2003" ++ minutes ++ "\n").toList ∧
      substituteText [("minutes", .number (.int 5))] ("\u2003" ++ minutes ++ "\n") =
        .ok (.number (.int 5)) ∧
      substituteText [] ("\u2003" ++ minutes ++ "\n") = .error (.unknownParameter "minutes") ∧
      IsAccompanied (minutes ++ "m").toList ∧
      substituteText [("minutes", .number (.int 5))] (minutes ++ "m") = .ok (.text "5m") := by
  have hwhole : IsWhole "minutes" ("\u2003" ++ minutes ++ "\n").toList :=
    ⟨['\u2003'], minutes.toList, ['\n'], by simp [AllBlank, isBlank], by simp [AllBlank, isBlank],
      isWritten_minutes, by simp⟩
  have hbeside : IsAccompanied (minutes ++ "m").toList :=
    ⟨"minutes", [], minutes.toList, ['m'], isWritten_minutes, by simp, 'm', by simp, by decide⟩
  have hfilled : FilledText [("minutes", .number (.int 5))] (minutes ++ "m").toList "5m".toList := by
    have hletter : FilledText [("minutes", .number (.int 5))] ['m'] ['m'] := by
      rw [← piecesText_eq_ok_iff, pieces_of_not_mem (by simp)]
      exact piecesText_map_char _ ['m']
    have hdigits : (Number.int 5).text.toList ++ ['m'] = "5m".toList := by rfl
    have hplaced := FilledText.placeholder isWritten_minutes rfl rfl hletter
    rw [hdigits] at hplaced
    simpa using hplaced
  have hvalue := (substituteText_decides [("minutes", .number (.int 5))] _).1 _ hwhole
  have hunbound := (substituteText_decides [] _).1 _ hwhole
  have htext := (substituteText_decides [("minutes", .number (.int 5))] _).2.2 (.inr hbeside)
  rw [interpolate_eq_ok_iff.2 hfilled] at htext
  exact ⟨hwhole, hvalue.1 _ rfl, hunbound.2 rfl, hbeside, htext⟩

end Substitution

end PipelineTree
