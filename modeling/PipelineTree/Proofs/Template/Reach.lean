import PipelineTree.Proofs.Template.Filling
import PipelineTree.Proofs.Value.Pairing

/-!
# Reach — the texts that substitution looks at

Substitution goes through sequences, the values of mappings, and keys that are texts.  What stands under a tag,
or in a key that is a sequence, a mapping or a tagged value, is passed over: the placeholders in it are left as
they are written, whether they have parameters or not (`Substitution.tagged_placeholder_left`).  In all other
texts a placeholder without a parameter is an error (`Substitution.placeholders_answered`).
-/

namespace PipelineTree

open Placeholder

/-- A text stands somewhere in a value: alone, in a sequence, as a key or in one, as a value, or under a tag. -/
inductive Value.Mentions : Value → String → Prop where
  | text (s : String) : Mentions (.text s) s
  | item {items : List Value} {item : Value} {s : String} :
      item ∈ items → Mentions item s → Mentions (.sequence items) s
  | key {entries : Mapping} {key value : Value} {s : String} :
      (key, value) ∈ entries → Mentions key s → Mentions (.mapping entries) s
  | value {entries : Mapping} {key value : Value} {s : String} :
      (key, value) ∈ entries → Mentions value s → Mentions (.mapping entries) s
  | tagged {tag : String} {value : Value} {s : String} :
      Mentions value s → Mentions (.tagged tag value) s

namespace Substitution

/-- The texts of a value that are searched for placeholders. -/
inductive Reaches : Value → String → Prop where
  | text (s : String) : Reaches (.text s) s
  | item {items : List Value} {item : Value} {s : String} :
      item ∈ items → Reaches item s → Reaches (.sequence items) s
  | key {entries : Mapping} {value : Value} {s : String} :
      (.text s, value) ∈ entries → Reaches (.mapping entries) s
  | value {entries : Mapping} {key value : Value} {s : String} :
      (key, value) ∈ entries → Reaches value s → Reaches (.mapping entries) s

/-- The texts of a value that are not: those under a tag, and those in keys that are no texts. -/
inductive PassesOver : Value → String → Prop where
  | tagged {tag : String} {value : Value} {s : String} :
      value.Mentions s → PassesOver (.tagged tag value) s
  | key {entries : Mapping} {key value : Value} {s : String} :
      (key, value) ∈ entries → (∀ t, key ≠ .text t) → key.Mentions s →
        PassesOver (.mapping entries) s
  | item {items : List Value} {item : Value} {s : String} :
      item ∈ items → PassesOver item s → PassesOver (.sequence items) s
  | value {entries : Mapping} {key value : Value} {s : String} :
      (key, value) ∈ entries → PassesOver value s → PassesOver (.mapping entries) s

variable {params : Props} {body filled : Value} {s name : String}

/-! ## All texts of a value -/

theorem Reaches.mentions (h : Reaches body s) : body.Mentions s := by
  induction h with
  | text s => exact .text s
  | item hmem _ ih => exact .item hmem ih
  | key hmem => exact .key hmem (.text _)
  | value hmem _ ih => exact .value hmem ih

theorem PassesOver.mentions (h : PassesOver body s) : body.Mentions s := by
  induction h with
  | tagged hmentions => exact .tagged hmentions
  | key hmem _ hmentions => exact .key hmem hmentions
  | item hmem _ ih => exact .item hmem ih
  | value hmem _ ih => exact .value hmem ih

/-- Each text of a value is searched, or passed over. -/
theorem mentions_iff : body.Mentions s ↔ Reaches body s ∨ PassesOver body s := by
  constructor
  · intro hmentions
    induction hmentions with
    | text s => exact .inl (.text s)
    | item hmem _ ih => exact ih.imp (.item hmem) (.item hmem)
    | @key entries key value s hmem hkey _ =>
      by_cases htext : ∃ t, key = .text t
      · rcases htext with ⟨t, rfl⟩
        cases hkey with
        | text s => exact .inl (.key hmem)
      · exact .inr (.key hmem (not_exists.1 htext) hkey)
    | value hmem _ ih => exact ih.imp (.value hmem) (.value hmem)
    | tagged hinner _ => exact .inr (.tagged hinner)
  · rintro (hreaches | hpasses)
    · exact hreaches.mentions
    · exact hpasses.mentions

/-! ## Placeholders in the texts that are searched -/

/-- In a text that is filled as a value, all placeholders have parameters. -/
theorem Filled.bound_text {gather : Mapping → Mapping} (h : Filled params gather (.text s) filled)
    (hoccurs : Occurs name s.toList) : ∃ value, params.lookup name = some value := by
  cases h with
  | whole hwhole hvalue =>
    have hsame := hwhole.occurs_iff.1 hoccurs
    exact ⟨filled, hsame ▸ hvalue⟩
  | woven _ htext => exact htext.bound hoccurs

theorem Filled.bound {gather : Mapping → Mapping} (h : Filled params gather body filled)
    (hreaches : Reaches body s) (hoccurs : Occurs name s.toList) :
    ∃ value, params.lookup name = some value := by
  -- The parts of a filled value are filled, so that the text is filled where it stands.
  induction hreaches generalizing filled with
  | text s => exact h.bound_text hoccurs
  | item hmem _ ih =>
    cases h with
    | sequence hitems =>
      rcases exists_of_mem_left hitems hmem with ⟨other, -, hitem⟩
      exact ih hitem hoccurs
  | key hmem =>
    cases h with
    | mapping hentries =>
      rcases exists_of_mem_left hentries hmem with ⟨_, -, ⟨hkey, -⟩⟩
      cases hkey with
      | text htext => exact htext.bound hoccurs
      | other hnot => exact absurd rfl (hnot _)
  | value hmem _ ih =>
    cases h with
    | mapping hentries =>
      rcases exists_of_mem_left hentries hmem with ⟨_, -, ⟨-, hvalue⟩⟩
      exact ih hvalue hoccurs

/--
A placeholder without a parameter is an error in each text of a value that is not passed over.  Where there is
no error, the value is filled: each placeholder in a text that is searched has become its parameter, and all
else is as it was.
-/
theorem placeholders_answered (params : Props) (body : Value) :
    (∀ s, body.Mentions s ↔ Reaches body s ∨ PassesOver body s) ∧
      (∀ s name, Reaches body s → Occurs name s.toList → params.lookup name = none →
        ∃ error, substitute params body = .error error) ∧
      ∀ filled, substitute params body = .ok filled ↔ Filled params Entries.ofList body filled := by
  refine ⟨fun s => mentions_iff, ?_, fun filled => substitute_eq_ok_iff⟩
  intro s name hreaches hoccurs hunbound
  cases hsubstitute : substitute params body with
  | error error => exact ⟨error, rfl⟩
  | ok filled =>
    rcases (substitute_eq_ok_iff.1 hsubstitute).bound hreaches hoccurs with ⟨value, hvalue⟩
    rw [hunbound] at hvalue
    cases hvalue

/-- A command with a placeholder in it. -/
def greeting : String := "echo $\x7b\x7b params.name \x7d\x7d"

theorem occurs_greeting : Occurs "name" greeting.toList := by
  have hwritten : IsWritten "name" "$\x7b\x7b params.name \x7d\x7d".toList :=
    isWritten_spaced ⟨'n', ['a', 'm', 'e'], rfl, rfl, by simp [isNameRest]⟩
  exact ⟨"echo ".toList, _, [], hwritten, by decide⟩

/-- As the command of a step it needs the parameter. -/
theorem placeholders_answered_greeting :
    Reaches (.mapping [(.text "run", .text greeting)]) greeting ∧ Occurs "name" greeting.toList ∧
      ∃ error, substitute [] (.mapping [(.text "run", .text greeting)]) = .error error := by
  have hreaches : Reaches (.mapping [(.text "run", .text greeting)]) greeting :=
    .value (List.mem_singleton_self _) (.text greeting)
  rcases placeholders_answered [] (.mapping [(.text "run", .text greeting)]) with ⟨-, hanswered, -⟩
  exact ⟨hreaches, occurs_greeting, hanswered greeting "name" hreaches occurs_greeting rfl⟩

/-- The properties of a step whose command is under a tag. -/
def taggedGreeting : Value := .mapping [(.text "run", .tagged "sh" (.text greeting))]

/-- Under a tag, a placeholder without a parameter is no error, and it is left as it is written. -/
theorem tagged_placeholder_left :
    taggedGreeting.Mentions greeting ∧ Occurs "name" greeting.toList ∧
      List.lookup "name" ([] : Props) = none ∧ substitute [] taggedGreeting = .ok taggedGreeting := by
  have hkey := substituteKey_of_not_mem [] (show '$' ∉ "run".toList by decide)
  have hsubstitute : substitute [] taggedGreeting = .ok taggedGreeting := by
    simp only [taggedGreeting, substitute, substituteEntries, hkey]
    rfl
  have hmentions : taggedGreeting.Mentions greeting :=
    .value (List.mem_singleton_self _) (.tagged (.text greeting))
  exact ⟨hmentions, occurs_greeting, rfl, hsubstitute⟩

end Substitution

end PipelineTree
