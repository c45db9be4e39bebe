import PipelineTree.Proofs.Value.Entries
import PipelineTree.Value.Rename

/-!
# Renaming — what a table of spellings replaces and what it leaves alone

A table is closed if no replacement is itself replaced; then no spelling of the table is left among the
keys of a renamed mapping.  A key that no row mentions is read in the renamed mapping as before, and texts
that are values stay what they are.
-/

namespace PipelineTree

/-- What a mapping holds under a text. -/
def Value.field? (name : String) : Value → Option Value
  | .mapping entries => entries.lookup (.text name)
  | _ => none

/-- A value that is a text, or a sequence in which the text occurs. -/
inductive Value.Names : Value → String → Prop where
  | text (s : String) : Names (.text s) s
  | item {items : List Value} {s : String} : .text s ∈ items → Names (.sequence items) s

namespace RenameTable

/-- The table has a row for a spelling. -/
def Respells (table : RenameTable) (name : String) : Prop := name ∈ table.map Prod.fst

instance (table : RenameTable) : DecidablePred table.Respells := fun name =>
  inferInstanceAs (Decidable (name ∈ table.map Prod.fst))

/-- No replacement is itself replaced. -/
def Closed (table : RenameTable) : Prop := ∀ row ∈ table, ¬table.Respells row.2

instance (table : RenameTable) : Decidable table.Closed :=
  inferInstanceAs (Decidable (∀ row ∈ table, ¬table.Respells row.2))

/-- No row of the table mentions a spelling. -/
def Unmentioned (table : RenameTable) (name : String) : Prop :=
  ∀ row ∈ table, row.1 ≠ name ∧ row.2 ≠ name

instance (table : RenameTable) (name : String) : Decidable (table.Unmentioned name) :=
  inferInstanceAs (Decidable (∀ row ∈ table, row.1 ≠ name ∧ row.2 ≠ name))

variable {table : RenameTable}

/-! ## Spellings -/

theorem apply_eq_self {name : String} (h : ¬table.Respells name) : table.apply name = name := by
  have hlookup : table.lookup name = none := by
    rw [List.lookup_eq_none_iff]
    intro row hrow
    rw [bne_iff_ne]
    rintro rfl
    exact h (List.mem_map_of_mem hrow)
  rw [apply, hlookup]
  rfl

theorem apply_cases (table : RenameTable) (name : String) :
    table.apply name = name ∧ ¬table.Respells name ∨ ∃ row ∈ table, row.2 = table.apply name := by
  cases hlookup : table.lookup name with
  | none =>
    have hnone : ¬table.Respells name := by
      intro hname
      rcases List.mem_map.1 hname with ⟨row, hrow, rfl⟩
      have hne := List.lookup_eq_none_iff.1 hlookup row hrow
      simp at hne
    exact .inl ⟨apply_eq_self hnone, hnone⟩
  | some replacement =>
    have hsplit := List.lookup_eq_some_iff.1 hlookup
    rcases hsplit with ⟨front, back, htable, -⟩
    refine .inr ⟨(name, replacement), by simp [htable], ?_⟩
    rw [apply, hlookup]
    rfl

/-- After a closed table has been applied there is nothing left to replace. -/
theorem Closed.not_respells_apply (h : table.Closed) (name : String) :
    ¬table.Respells (table.apply name) := by
  rcases table.apply_cases name with ⟨hsame, hnone⟩ | ⟨row, hrow, hreplacement⟩
  · rw [hsame]
    exact hnone
  · rw [← hreplacement]
    exact h row hrow

theorem apply_eq_iff_of_unmentioned {name : String} (h : table.Unmentioned name) {other : String} :
    table.apply other = name ↔ other = name := by
  constructor
  · intro happly
    rcases table.apply_cases other with ⟨hsame, -⟩ | ⟨row, hrow, hreplacement⟩
    · exact hsame.symm.trans happly
    · exact absurd (hreplacement.trans happly) (h row hrow).2
  · rintro rfl
    apply apply_eq_self
    intro hother
    rcases List.mem_map.1 hother with ⟨row, hrow, hname⟩
    exact (h row hrow).1 hname

/-! ## Mappings -/

theorem renameEntries_eq_map (table : RenameTable) (entries : Mapping) :
    table.renameEntries entries = entries.map fun e => (table.renameKey e.1, table.rename e.2) := by
  induction entries with
  | nil => rfl
  | cons e entries ih =>
    rcases e with ⟨key, value⟩
    rw [renameEntries, ih]
    rfl

theorem renameItems_eq_map (table : RenameTable) (items : List Value) :
    table.renameItems items = items.map table.rename := by
  induction items with
  | nil => rfl
  | cons item items ih =>
    rw [renameItems, ih]
    rfl

theorem renameKey_eq_text_iff {name : String} (h : table.Unmentioned name) {key : Value} :
    table.renameKey key = .text name ↔ key = .text name := by
  cases key with
  | text other => simpa [renameKey] using apply_eq_iff_of_unmentioned h
  | _ => simp [renameKey]

theorem lookup_renameEntries {name : String} (h : table.Unmentioned name) (entries : Mapping) :
    (table.renameEntries entries).lookup (.text name) =
      (entries.lookup (.text name)).map table.rename := by
  induction entries with
  | nil => rfl
  | cons e entries ih =>
    rcases e with ⟨key, value⟩
    rw [renameEntries, Entries.lookup_cons_text, Entries.lookup_cons_text, ih]
    by_cases hkey : key = .text name
    · have hrenamed := (renameKey_eq_text_iff h).2 hkey
      rw [hrenamed, hkey]
      simp
    · have hrenamed := mt (renameKey_eq_text_iff h).1 hkey
      simp [Entries.beq_text_eq_false hkey, Entries.beq_text_eq_false hrenamed]

/-- A key that no row mentions is read after renaming as before; the last entry for it counts. -/
theorem field?_rename_mapping {name : String} (h : table.Unmentioned name) (entries : Mapping) :
    (table.rename (.mapping entries)).field? name =
      (entries.reverse.lookup (.text name)).map table.rename := by
  calc
    (table.rename (.mapping entries)).field? name =
        (Entries.ofList (table.renameEntries entries)).lookup (.text name) := by
      rw [rename, Value.field?]
    _ = (table.renameEntries entries).reverse.lookup (.text name) :=
      Entries.lookup_ofList_text _ _
    _ = (table.renameEntries entries.reverse).lookup (.text name) := by
      rw [renameEntries_eq_map, renameEntries_eq_map, List.map_reverse]
    _ = (entries.reverse.lookup (.text name)).map table.rename := lookup_renameEntries h _

/-- No spelling of a closed table is left among the keys of a renamed mapping. -/
theorem Closed.not_respells_key (h : table.Closed) {entries : Mapping} {name : String}
    {entry : Value × Value} (hentry : entry ∈ Entries.ofList (table.renameEntries entries))
    (hkey : entry.1 = .text name) : ¬table.Respells name := by
  rcases Entries.key_of_mem_ofList hentry with ⟨written, hwritten, hsame⟩
  rw [renameEntries_eq_map] at hwritten
  rcases List.mem_map.1 hwritten with ⟨⟨key, value⟩, -, rfl⟩
  have htext : table.renameKey key = .text name := hsame.trans hkey
  cases key with
  | text other =>
    have hname : table.apply other = name := by simpa [renameKey] using htext
    rw [← hname]
    exact h.not_respells_apply other
  | _ => simp [renameKey] at htext

/-- Entries under texts that have no row, and that all differ, keep their keys and their places. -/
theorem renameEntries_keys {entries : Mapping} (hdistinct : Entries.Distinct entries)
    (hkeys : ∀ entry ∈ entries, ∃ name, entry.1 = .text name ∧ ¬table.Respells name) :
    Entries.ofList (table.renameEntries entries) =
      entries.map fun e => (e.1, table.rename e.2) := by
  have hsame : table.renameEntries entries = entries.map fun e => (e.1, table.rename e.2) := by
    rw [renameEntries_eq_map]
    apply List.map_congr_left
    intro entry hentry
    rcases hkeys entry hentry with ⟨name, hname, hnone⟩
    rw [hname, renameKey, apply_eq_self hnone]
  rw [hsame]
  apply Entries.ofList_eq_self
  rw [List.pairwise_map]
  exact hdistinct

/-! ## Values -/

theorem rename_eq_text_iff {value : Value} {s : String} :
    table.rename value = .text s ↔ value = .text s := by
  cases value <;> simp [rename]

/-- Texts that are values are never renamed. -/
theorem names_rename_iff {value : Value} {s : String} :
    (table.rename value).Names s ↔ value.Names s := by
  cases value with
  | text t => simp [rename]
  | sequence items =>
    rw [rename, renameItems_eq_map]
    constructor
    · rintro (_ | hmem)
      rcases List.mem_map.1 hmem with ⟨item, hitem, htext⟩
      exact .item (rename_eq_text_iff.1 htext ▸ hitem)
    · rintro (_ | hmem)
      exact .item (List.mem_map.2 ⟨.text s, hmem, rename_eq_text_iff.2 rfl⟩)
  | _ =>
    constructor
    · rintro ⟨⟩
    · rintro ⟨⟩

end RenameTable

end PipelineTree
