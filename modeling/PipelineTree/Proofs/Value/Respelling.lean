import PipelineTree.Platform.Azure
import PipelineTree.Platform.Github
import PipelineTree.Proofs.Value.Renaming

/-!
# Respelling — which entries survive a renaming

Renaming writes the entries of a mapping one after the other under their new keys.  Where a spelling of the
table and its replacement are both keys, the two entries become one.  `RenameTable.Respelled` says what a
renaming would be that loses nothing: the same tree, in which keys that the table lists are spelled as it
says.  For the tables of the platforms, a renaming is of that sort exactly if no mapping, however deep, holds
both spellings of a row (`RenameTable.rename_keeps_iff`); `RenameTable.entry_lost` is the smallest mapping that
does.
-/

namespace PipelineTree

namespace RenameTable

/-! ## Renamings that lose nothing -/

/-- How a key may be spelled: as the table says, or as it is if the table does not list it. -/
inductive Spells (table : RenameTable) : Value → Value → Prop where
  | kept {key : Value} : (∀ name, key = .text name → ¬table.Respells name) → Spells table key key
  | replaced {name wire : String} :
      (name, wire) ∈ table → Spells table (.text name) (.text wire)

mutual

/-- Two values are the same but for the spelling of keys: entry by entry, item by item, tag by tag. -/
inductive Respelled (table : RenameTable) : Value → Value → Prop where
  | null : Respelled table .null .null
  | bool (b : Bool) : Respelled table (.bool b) (.bool b)
  | number (n : Number) : Respelled table (.number n) (.number n)
  | text (s : String) : Respelled table (.text s) (.text s)
  | sequence {items others : List Value} :
      List.Forall₂ (Respelled table) items others →
        Respelled table (.sequence items) (.sequence others)
  | mapping {entries others : Mapping} :
      List.Forall₂ (RespelledEntry table) entries others →
        Respelled table (.mapping entries) (.mapping others)
  | tagged (tag : String) {value other : Value} :
      Respelled table value other → Respelled table (.tagged tag value) (.tagged tag other)

inductive RespelledEntry (table : RenameTable) : Value × Value → Value × Value → Prop where
  | entry {key spelled value other : Value} :
      Spells table key spelled → Respelled table value other →
        RespelledEntry table (key, value) (spelled, other)

end

/-- Two entries of a mapping are under a spelling of the table and under its replacement. -/
def MixedEntries (table : RenameTable) (entries : Mapping) : Prop :=
  ∃ row ∈ table, (∃ value, (.text row.1, value) ∈ entries) ∧ ∃ value, (.text row.2, value) ∈ entries

/-- Some mapping of the value, however deep, holds both spellings of a row. -/
inductive Mixed (table : RenameTable) : Value → Prop where
  | here {entries : Mapping} : MixedEntries table entries → Mixed table (.mapping entries)
  | entry {entries : Mapping} {key value : Value} :
      (key, value) ∈ entries → Mixed table value → Mixed table (.mapping entries)
  | item {items : List Value} {item : Value} :
      item ∈ items → Mixed table item → Mixed table (.sequence items)
  | tagged {tag : String} {value : Value} : Mixed table value → Mixed table (.tagged tag value)

/-- All spellings and replacements of the table differ. -/
def Apart (table : RenameTable) : Prop := (table.map Prod.fst ++ table.map Prod.snd).Nodup

instance (table : RenameTable) : Decidable table.Apart :=
  inferInstanceAs (Decidable (List.Nodup _))

variable {table : RenameTable} {entries : Mapping}

/-! ## Spellings that differ -/

theorem mem_of_respells {name : String} (h : table.Respells name) :
    (name, table.apply name) ∈ table := by
  rcases List.mem_map.1 h with ⟨⟨spelling, wire⟩, hrow, hspelling⟩
  cases hspelling
  cases hlookup : table.lookup spelling with
  | none =>
    have hne := List.lookup_eq_none_iff.1 hlookup _ hrow
    simp at hne
  | some replacement =>
    have happly : table.apply spelling = replacement := by simp [apply, hlookup]
    simpa [happly] using Entries.mem_of_lookup hlookup

theorem Apart.closed (h : table.Apart) : table.Closed := by
  rintro row hrow hagain
  exact List.disjoint_of_nodup_append h hagain (List.mem_map_of_mem hrow)

theorem Apart.apply_of_mem (h : table.Apart) {name wire : String} (hrow : (name, wire) ∈ table) :
    table.apply name = wire := by
  have hlookup := Entries.lookup_of_mem (List.Nodup.of_append_left h) hrow
  simp [apply, hlookup]

theorem Apart.spelling_unique (h : table.Apart) {first second wire : String}
    (hfirst : (first, wire) ∈ table) (hsecond : (second, wire) ∈ table) : first = second := by
  have htargets : (table.map Prod.snd).Nodup := List.Nodup.of_append_right h
  have hsame : (first, wire) = (second, wire) :=
    List.inj_on_of_nodup_map htargets hfirst hsecond rfl
  exact congrArg Prod.fst hsame

/-- Two spellings that come to the same are those of a row. -/
theorem Apart.row_of_apply_eq (h : table.Apart) {first second : String} (hne : first ≠ second)
    (heq : table.apply first = table.apply second) :
    (first, second) ∈ table ∨ (second, first) ∈ table := by
  -- Two rows never have one replacement, so that only one of the two can be a spelling of the table.
  by_cases hfirst : table.Respells first
  · have hfirstRow := mem_of_respells hfirst
    by_cases hsecond : table.Respells second
    · have hsecondRow := mem_of_respells hsecond
      rw [← heq] at hsecondRow
      exact absurd (h.spelling_unique hfirstRow hsecondRow) hne
    · -- The second is no spelling: it is what the first is replaced by.
      rw [heq, apply_eq_self hsecond] at hfirstRow
      exact .inl hfirstRow
  · by_cases hsecond : table.Respells second
    · have hsecondRow := mem_of_respells hsecond
      rw [← heq, apply_eq_self hfirst] at hsecondRow
      exact .inr hsecondRow
    · rw [apply_eq_self hfirst, apply_eq_self hsecond] at heq
      exact absurd heq hne

theorem spells_renameKey (table : RenameTable) (key : Value) :
    Spells table key (table.renameKey key) := by
  cases key with
  | text name =>
    by_cases hname : table.Respells name
    · exact .replaced (mem_of_respells hname)
    · have hsame : table.renameKey (.text name) = .text name := by
        simp [renameKey, apply_eq_self hname]
      rw [hsame]
      exact .kept fun other hother => Value.text.inj hother ▸ hname
  | _ => exact .kept fun name hname => by simp at hname

/-! ## One mapping -/

/-- The entries of a mapping are written under keys that differ, if no two of them are mixed. -/
theorem Apart.distinct_renameEntries (h : table.Apart) (hdistinct : Entries.Distinct entries)
    (hunmixed : ¬MixedEntries table entries) : Entries.Distinct (table.renameEntries entries) := by
  rw [renameEntries_eq_map, Entries.Distinct, List.pairwise_map]
  refine hdistinct.imp_of_mem ?_
  rintro ⟨first, value⟩ ⟨second, other⟩ hvalue hother hne
  -- Only texts are renamed, and a text never equals a key of another sort.
  cases first with
  | text name =>
    cases second with
    | text name' =>
      have hnames : name ≠ name' := by simpa using hne
      have happly : table.apply name ≠ table.apply name' := by
        intro heq
        rcases h.row_of_apply_eq hnames heq with hrow | hrow
        · exact hunmixed ⟨_, hrow, ⟨value, hvalue⟩, other, hother⟩
        · exact hunmixed ⟨_, hrow, ⟨other, hother⟩, value, hvalue⟩
      simpa [renameKey] using happly
    | _ => exact Entries.text_beq_eq_false (by simp [renameKey])
  | _ =>
    cases second with
    | text name' => exact Entries.beq_text_eq_false (by simp [renameKey])
    | _ => simpa [renameKey] using hne

/-- Of two mixed entries one is lost. -/
theorem Apart.not_distinct_renameEntries (h : table.Apart) (hmixed : MixedEntries table entries) :
    ¬Entries.Distinct (table.renameEntries entries) := by
  rcases hmixed with ⟨⟨name, wire⟩, hrow, ⟨value, hvalue⟩, other, hother⟩
  intro hdistinct
  rw [renameEntries_eq_map, Entries.Distinct, List.pairwise_map] at hdistinct
  -- The replacement of a row is no spelling itself, so that both keys are written under it.
  have hwire : table.apply wire = wire := apply_eq_self (h.closed _ hrow)
  have hnames : name ≠ wire := by
    rintro rfl
    exact h.closed _ hrow (List.mem_map_of_mem hrow)
  have hentries : ((.text name, value) : Value × Value) ≠ (.text wire, other) := by simp [hnames]
  have hfirst : table.renameKey (.text name) = .text wire := by simp [renameKey, h.apply_of_mem hrow]
  have hsecond : table.renameKey (.text wire) = .text wire := by simp [renameKey, hwire]
  exact Entries.ne_text_of_pairwise hdistinct hvalue hother hentries hfirst hsecond

/-- A mapping keeps the number of its entries exactly if no two of them are mixed. -/
theorem Apart.length_rename_iff (h : table.Apart) (hdistinct : Entries.Distinct entries) :
    (Entries.ofList (table.renameEntries entries)).length = entries.length ↔
      ¬MixedEntries table entries := by
  have hlength : (table.renameEntries entries).length = entries.length := by
    simp [renameEntries_eq_map]
  rw [← hlength, Entries.length_ofList_eq_iff]
  constructor
  · intro hkept hmixed
    exact h.not_distinct_renameEntries hmixed hkept
  · exact h.distinct_renameEntries hdistinct

/-- The entries of a mapping without mixed entries are written as they come. -/
theorem Apart.ofList_renameEntries (h : table.Apart) (hdistinct : Entries.Distinct entries)
    (hunmixed : ¬MixedEntries table entries) :
    Entries.ofList (table.renameEntries entries) =
      entries.map fun e => (table.renameKey e.1, table.rename e.2) := by
  rw [Entries.ofList_eq_self (h.distinct_renameEntries hdistinct hunmixed), renameEntries_eq_map]

/-! ## Whole values -/

theorem Apart.respelled_of_not_mixed (h : table.Apart) {value : Value} (hproper : value.Proper)
    (hunmixed : ¬Mixed table value) : Respelled table value (table.rename value) := by
  induction hproper with
  | null => exact .null
  | bool b => exact .bool b
  | number n => exact .number n
  | text s => exact .text s
  | @sequence items _ ih =>
    simp only [rename, renameItems_eq_map]
    refine .sequence (List.forall₂_map_right_iff.2 (List.forall₂_same.2 ?_))
    intro item hitem
    exact ih item hitem fun hmixed => hunmixed (.item hitem hmixed)
  | @mapping entries hdistinct _ _ _ ih =>
    have hhere : ¬MixedEntries table entries := fun hmixed => hunmixed (.here hmixed)
    simp only [rename, h.ofList_renameEntries hdistinct hhere]
    refine .mapping (List.forall₂_map_right_iff.2 (List.forall₂_same.2 ?_))
    rintro ⟨key, value⟩ hentry
    have hvalue := ih (key, value) hentry fun hmixed => hunmixed (.entry hentry hmixed)
    exact .entry (spells_renameKey table key) hvalue
  | tagged tag _ ih => exact .tagged tag (ih fun hmixed => hunmixed (.tagged hmixed))

theorem Mixed.not_respelled (h : table.Apart) {value : Value} (hmixed : Mixed table value)
    (hproper : value.Proper) : ¬Respelled table value (table.rename value) := by
  induction hmixed with
  | @here entries hentries =>
    intro hkept
    rw [rename] at hkept
    cases hkept with
    | mapping hrows =>
      cases hproper with
      | mapping hdistinct _ _ =>
        exact (h.length_rename_iff hdistinct).1 hrows.length_eq.symm hentries
  | @entry entries key value hmem _ ih =>
    intro hkept
    rw [rename] at hkept
    cases hkept with
    | mapping hrows =>
      -- As no entry is lost, the entries are written as they come, and this one is among them.
      have hlength : (Entries.ofList (table.renameEntries entries)).length =
          (table.renameEntries entries).length := by
        simpa [renameEntries_eq_map] using hrows.length_eq.symm
      rw [Entries.ofList_eq_self (Entries.length_ofList_eq_iff.1 hlength), renameEntries_eq_map] at hrows
      have hrow := List.forall₂_same.1 (List.forall₂_map_right_iff.1 hrows) (key, value) hmem
      cases hproper with
      | mapping _ _ hvalues =>
        cases hrow with
        | entry _ hvalue => exact ih (hvalues _ hmem) hvalue
  | @item items item hmem _ ih =>
    intro hkept
    rw [rename, renameItems_eq_map] at hkept
    cases hkept with
    | sequence hitems =>
      cases hproper with
      | sequence hproperItems =>
        have hitem := List.forall₂_same.1 (List.forall₂_map_right_iff.1 hitems) item hmem
        exact ih (hproperItems item hmem) hitem
  | tagged _ ih =>
    intro hkept
    rw [rename] at hkept
    cases hkept with
    | tagged _ hvalue =>
      cases hproper with
      | tagged _ hinner => exact ih hinner hvalue

theorem Apart.respelled_rename_iff (h : table.Apart) {value : Value} (hproper : value.Proper) :
    Respelled table value (table.rename value) ↔ ¬Mixed table value :=
  ⟨fun hkept hmixed => hmixed.not_respelled h hproper hkept, h.respelled_of_not_mixed hproper⟩

/-! ## The tables of the platforms -/

theorem apart_of_platform (h : table ∈ [Github.renames, Azure.renames]) : table.Apart := by
  rcases List.mem_pair.1 h with rfl | rfl
  · decide
  · decide

/--
The table of a platform keeps a document, all but the spelling of keys, exactly if no mapping in it holds both
spellings of a row; and each mapping keeps the number of its entries exactly if it does not itself hold both
spellings of a row.
-/
theorem rename_keeps_iff (htable : table ∈ [Github.renames, Azure.renames]) {document : Value}
    (hproper : document.Proper) :
    (Respelled table document (table.rename document) ↔ ¬Mixed table document) ∧
      ∀ entries, document = .mapping entries → ∃ written, table.rename document = .mapping written ∧
        (written.length = entries.length ↔ ¬MixedEntries table entries) := by
  have hapart := apart_of_platform htable
  refine ⟨hapart.respelled_rename_iff hproper, ?_⟩
  rintro entries rfl
  cases hproper with
  | mapping hdistinct _ _ =>
    exact ⟨_, by rw [rename], hapart.length_rename_iff hdistinct⟩

/-- The variables of a step, two of which are a spelling and its replacement. -/
def stepVariables : Mapping :=
  [(.text "timeoutInMinutes", .number (.int 5)), (.text "timeoutMinutes", .number (.int 6))]

def stepWithVariables : Value :=
  .sequence [.mapping [(.text "script", .text "make"), (.text "env", .mapping stepVariables)]]

theorem proper_stepVariables : (Value.mapping stepVariables).Proper := by
  refine .mapping (by simp [Entries.Distinct, stepVariables]) ?_ ?_
  · simpa [stepVariables] using And.intro (Value.Proper.text "timeoutInMinutes") (.text "timeoutMinutes")
  · simpa [stepVariables] using And.intro (Value.Proper.number (.int 5)) (.number (.int 6))

theorem proper_stepWithVariables : stepWithVariables.Proper := by
  refine .sequence (List.forall_mem_singleton.2 (.mapping (by simp [Entries.Distinct]) ?_ ?_))
  · simpa using And.intro (Value.Proper.text "script") (.text "env")
  · simpa using And.intro (Value.Proper.text "make") proper_stepVariables

theorem rename_keeps_iff_stepWithVariables :
    Azure.renames ∈ [Github.renames, Azure.renames] ∧ stepWithVariables.Proper ∧
      Mixed Azure.renames stepWithVariables ∧
      ¬Respelled Azure.renames stepWithVariables (Azure.renames.rename stepWithVariables) := by
  have htable : Azure.renames ∈ [Github.renames, Azure.renames] := by simp
  have hentries : MixedEntries Azure.renames stepVariables :=
    ⟨("timeoutMinutes", "timeoutInMinutes"), by decide,
      ⟨.number (.int 6), by simp [stepVariables]⟩, .number (.int 5), by simp [stepVariables]⟩
  have hstep : Mixed Azure.renames
      (.mapping [(.text "script", .text "make"), (.text "env", .mapping stepVariables)]) :=
    .entry (List.mem_cons_of_mem _ (List.mem_singleton_self _)) (.here hentries)
  have hmixed : Mixed Azure.renames stepWithVariables := .item (List.mem_singleton_self _) hstep
  have hkept := rename_keeps_iff htable proper_stepWithVariables
  exact ⟨htable, proper_stepWithVariables, hmixed, fun h => hkept.1.1 h hmixed⟩

/-- A mapping with two spellings of one key, of which the table lists only the second. -/
def twiceOn : Mapping := [(.text "runs-on", .text "linux"), (.text "runsOn", .text "windows")]

/-- The entry under the key that is not listed is lost. -/
theorem entry_lost :
    (Value.mapping twiceOn).Proper ∧
      Github.renames.rename (.mapping twiceOn) = .mapping [(.text "runs-on", .text "windows")] ∧
      ¬Respelled Github.renames (.mapping twiceOn) (Github.renames.rename (.mapping twiceOn)) := by
  refine ⟨.mapping (by simp [Entries.Distinct, twiceOn]) ?_ ?_, rfl, ?_⟩
  · simpa [twiceOn] using And.intro (Value.Proper.text "runs-on") (.text "runsOn")
  · simpa [twiceOn] using And.intro (Value.Proper.text "linux") (.text "windows")
  · intro hkept
    -- There is one entry instead of two.
    cases hkept with
    | mapping hrows => exact absurd hrows.length_eq (by decide)

end RenameTable

end PipelineTree
