import PipelineTree.Proofs.Value.Respelling

/-!
# Settling — a second renaming changes nothing

A value is settled for a table if renaming has nothing left to do in it: in every mapping that is reached
through values, sequences and tags, the keys differ and the table lists none of them.  Settled values are
exactly those that renaming returns as they are, provided that no replacement of the table is itself replaced
(`RenameTable.Closed.settled_iff`).

Renaming settles every value (`RenameTable.Closed.settled_rename`), also one in which two keys become the same:
the entries are written into a new dictionary, whose keys always differ.  So a second renaming meets nothing to
do (`RenameTable.rename_settles`).
-/

namespace PipelineTree

/-- A value stands in another one: as the value of an entry, in a sequence, under a tag, or as the whole. -/
inductive Value.Encloses : Value → Value → Prop where
  | whole (value : Value) : Encloses value value
  | entry {entries : Mapping} {key value inner : Value} :
      (key, value) ∈ entries → Encloses value inner → Encloses (.mapping entries) inner
  | item {items : List Value} {item inner : Value} :
      item ∈ items → Encloses item inner → Encloses (.sequence items) inner
  | tagged {tag : String} {value inner : Value} :
      Encloses value inner → Encloses (.tagged tag value) inner

namespace RenameTable

/-- The table lists none of the keys of a mapping. -/
def Spares (table : RenameTable) (entries : Mapping) : Prop :=
  ∀ entry ∈ entries, ∀ name, entry.1 = .text name → ¬table.Respells name

/-- In every mapping of a value, the keys differ and the table lists none of them. -/
inductive Settled (table : RenameTable) : Value → Prop where
  | null : Settled table .null
  | bool (b : Bool) : Settled table (.bool b)
  | number (n : Number) : Settled table (.number n)
  | text (s : String) : Settled table (.text s)
  | sequence {items : List Value} :
      (∀ item ∈ items, Settled table item) → Settled table (.sequence items)
  | mapping {entries : Mapping} :
      Entries.Distinct entries → Spares table entries → (∀ entry ∈ entries, Settled table entry.2) →
        Settled table (.mapping entries)
  | tagged (tag : String) {value : Value} :
      Settled table value → Settled table (.tagged tag value)

variable {table : RenameTable} {value : Value} {entries : Mapping}

/-! ## Settled values -/

theorem renameKey_eq_self {key : Value} (h : ∀ name, key = .text name → ¬table.Respells name) :
    table.renameKey key = key := by
  cases key with
  | text name => simp [renameKey, apply_eq_self (h name rfl)]
  | _ => simp [renameKey]

/-- Renaming returns a settled value as it is. -/
theorem Settled.rename_eq (h : Settled table value) : table.rename value = value := by
  induction h with
  | null => rfl
  | bool b => rfl
  | number n => rfl
  | text s => rfl
  | @sequence items _ ih =>
    have hitems : table.renameItems items = items := by
      calc
        table.renameItems items = items.map table.rename := renameItems_eq_map table items
        _ = items.map id := List.map_congr_left ih
        _ = items := List.map_id items
    simp [rename, hitems]
  | @mapping entries hdistinct hspares _ ih =>
    have hsame : ∀ entry ∈ entries, (table.renameKey entry.1, table.rename entry.2) = id entry :=
      fun entry hentry => Prod.ext (renameKey_eq_self (hspares entry hentry)) (ih entry hentry)
    have hentries : table.renameEntries entries = entries := by
      calc
        table.renameEntries entries = entries.map fun e => (table.renameKey e.1, table.rename e.2) :=
          renameEntries_eq_map table entries
        _ = entries.map id := List.map_congr_left hsame
        _ = entries := List.map_id entries
    -- The entries are written as they are, and as their keys differ none of them is lost.
    simp [rename, hentries, Entries.ofList_eq_self hdistinct]
  | tagged tag _ ih => simp [rename, ih]

theorem Settled.spares (h : Settled table value) (hencloses : value.Encloses (.mapping entries)) :
    Spares table entries := by
  generalize hinner : Value.mapping entries = inner at hencloses
  induction hencloses with
  | whole value =>
    cases hinner
    cases h with
    | mapping _ hspares _ => exact hspares
  | entry hmem _ ih =>
    cases h with
    | mapping _ _ hvalues => exact ih (hvalues _ hmem) hinner
  | item hmem _ ih =>
    cases h with
    | sequence hitems => exact ih (hitems _ hmem) hinner
  | tagged _ ih =>
    cases h with
    | tagged _ hvalue => exact ih hvalue hinner

/-! ## What renaming leaves -/

mutual

/-- Renaming settles a value, whatever keys collide in it. -/
theorem Closed.settled_rename (h : table.Closed) (value : Value) :
    Settled table (table.rename value) := by
  -- Mutual, as renaming is: values, items and entries.
  cases value with
  | null => exact .null
  | bool b => exact .bool b
  | number n => exact .number n
  | text s => exact .text s
  | sequence items => exact .sequence (h.settled_renameItems items)
  | mapping entries =>
    refine .mapping (Entries.pairwise_ofList _) ?_ ?_
    · exact fun entry hentry name hkey => h.not_respells_key hentry hkey
    · intro entry hentry
      rcases Entries.value_of_mem_ofList hentry with ⟨written, hwritten, hvalue⟩
      exact hvalue ▸ h.settled_renameEntries entries written hwritten
  | tagged tag value => exact .tagged tag (h.settled_rename value)

theorem Closed.settled_renameItems (h : table.Closed) (items : List Value) :
    ∀ item ∈ table.renameItems items, Settled table item := by
  cases items with
  | nil => simp [renameItems]
  | cons item items =>
    exact List.forall_mem_cons.2 ⟨h.settled_rename item, h.settled_renameItems items⟩

theorem Closed.settled_renameEntries (h : table.Closed) (entries : Mapping) :
    ∀ entry ∈ table.renameEntries entries, Settled table entry.2 := by
  match entries with
  | [] => simp [renameEntries]
  | (_, value) :: entries =>
    exact List.forall_mem_cons.2 ⟨h.settled_rename value, h.settled_renameEntries entries⟩

end

/-- Under a closed table the settled values are the fixed points of renaming. -/
theorem Closed.settled_iff (h : table.Closed) : Settled table value ↔ table.rename value = value := by
  constructor
  · exact Settled.rename_eq
  · intro hfixed
    exact hfixed ▸ h.settled_rename value

/--
If no replacement of a table is itself replaced, as in the tables of the platforms, then no mapping of a
renamed value has a key that the table lists, and a second renaming returns the value as it is.
-/
theorem rename_settles :
    (∀ table ∈ [Github.renames, Azure.renames], Closed table) ∧
      ∀ table : RenameTable, table.Closed → ∀ value,
        (∀ entries, (table.rename value).Encloses (.mapping entries) → Spares table entries) ∧
          table.rename (table.rename value) = table.rename value := by
  refine ⟨fun table htable => (apart_of_platform htable).closed, ?_⟩
  intro table hclosed value
  have hsettled := hclosed.settled_rename value
  exact ⟨fun entries hencloses => hsettled.spares hencloses, hsettled.rename_eq⟩

/-- A table whose replacements are replaced in turn needs a second renaming. -/
example : rename [("runner", "runsOn"), ("runsOn", "runs-on")] (.mapping [(.text "runner", .null)]) =
    .mapping [(.text "runsOn", .null)] := rfl

/-- Two spellings of one key, under a tag and in a sequence. -/
def runners : Value := .sequence [.tagged "matrix" (.mapping twiceOn)]

/-- The two entries collide in the first renaming, and the second one finds nothing to do. -/
theorem rename_settles_runners :
    Github.renames.Closed ∧
      Github.renames.rename runners =
        .sequence [.tagged "matrix" (.mapping [(.text "runs-on", .text "windows")])] ∧
      Spares Github.renames [(.text "runs-on", .text "windows")] ∧
      Github.renames.rename (Github.renames.rename runners) = Github.renames.rename runners := by
  have hclosed : Github.renames.Closed := rename_settles.1 _ (by simp)
  have hrename : Github.renames.rename runners =
      .sequence [.tagged "matrix" (.mapping [(.text "runs-on", .text "windows")])] := rfl
  rcases rename_settles.2 _ hclosed runners with ⟨hspares, htwice⟩
  refine ⟨hclosed, hrename, hspares _ ?_, htwice⟩
  exact hrename ▸ .item (List.mem_singleton_self _) (.tagged (.whole _))

end RenameTable

end PipelineTree
