import Mathlib.Data.List.Sort
import PipelineTree.Proofs.Files.Answers
import PipelineTree.Proofs.Files.Effects
import PipelineTree.Proofs.Value.Entries

/-!
# Listing — what well-formed directories hold, by name

In a well-formed tree the names in each directory are distinct and may stand in paths.  What is listed there
is then told by the sorted names and by what stands under each of them, and a tree can be compared with one
that holds more name by name.  All scripts keep trees well-formed.
-/

namespace PipelineTree

/-! ## Well-formed trees -/

/-- The names in each directory are distinct, and they are names. -/
inductive Entry.WellFormed : Entry → Prop where
  | file (text : Option String) : WellFormed (.file text)
  | directory {entries : List (String × Entry)} (distinct : (entries.map (·.1)).Nodup)
      (names : ∀ e ∈ entries, Path.IsName e.1.toList) (inner : ∀ e ∈ entries, WellFormed e.2) :
      WellFormed (.directory entries)

section

variable {β : Type} {key : String} {value : β} {entries : List (String × β)}

theorem Entries.mem_insert {e : String × β} (h : e ∈ Entries.insert key value entries) :
    e = (key, value) ∨ e ∈ entries := by
  induction entries with
  | nil => exact .inl (by simpa using h)
  | cons first rest ih =>
    rcases first with ⟨k, v⟩
    by_cases hk : k = key
    · rw [Entries.insert, if_pos (beq_iff_eq.2 hk)] at h
      rcases List.mem_cons.1 h with hfirst | hrest
      · exact .inl (by rw [hfirst, hk])
      · exact .inr (List.mem_cons_of_mem _ hrest)
    · have hne : (k == key) = false := beq_eq_false_iff_ne.2 hk
      rw [Entries.insert, hne, if_neg Bool.false_ne_true] at h
      rcases List.mem_cons.1 h with hfirst | hrest
      · exact .inr (hfirst ▸ List.mem_cons_self)
      · exact (ih hrest).imp_right (List.mem_cons_of_mem _)

theorem Entries.nodup_insert (h : (entries.map (·.1)).Nodup) :
    ((Entries.insert key value entries).map (·.1)).Nodup := by
  cases hcontains : Entries.contains key entries with
  | true => rwa [Entries.keys_insert_of_contains hcontains]
  | false =>
    have hnew : key ∉ entries.map (·.1) := by
      intro hmem
      rcases List.mem_map.1 hmem with ⟨e, he, hkey⟩
      have hfound : Entries.contains key entries = true :=
        List.any_eq_true.2 ⟨e, he, beq_iff_eq.2 hkey⟩
      exact absurd (hcontains.symm.trans hfound) (by simp)
    rw [Entries.insert_of_not_contains hcontains, List.map_append, List.nodup_append]
    refine ⟨h, List.nodup_singleton key, ?_⟩
    intro a ha b hb
    have hkey : b = key := List.mem_singleton.1 hb
    rintro rfl
    exact hnew (hkey ▸ ha)

end

namespace Entry

variable {entry inner new : Entry} {name : String}

/-- What stands under a name in an entry. -/
def child? (entry : Entry) (name : String) : Option Entry :=
  match entry with
  | .file _ => none
  | .directory entries => entries.lookup name

theorem find?_cons (entry : Entry) (name : String) (names : List String) :
    entry.find? (name :: names) = (entry.child? name).bind (·.find? names) := by
  cases entry <;> rfl

theorem WellFormed.child (h : entry.WellFormed) (hchild : entry.child? name = some inner) :
    Path.IsName name.toList ∧ inner.WellFormed := by
  cases h with
  | file text => exact absurd hchild (by simp [child?])
  | directory distinct names inner =>
    have hmem := Entries.mem_of_lookup hchild
    exact ⟨names _ hmem, inner _ hmem⟩

/-- The names that lead to something are names. -/
theorem WellFormed.isName {names : List String} (h : entry.WellFormed)
    (hfind : entry.find? names = some inner) : ∀ name ∈ names, Path.IsName name.toList := by
  induction names generalizing entry with
  | nil => exact fun name hname => absurd hname (by simp)
  | cons first rest ih =>
    rw [find?_cons, Option.bind_eq_some_iff] at hfind
    rcases hfind with ⟨next, hnext, hrest⟩
    rcases h.child hnext with ⟨hfirst, hinner⟩
    intro name hname
    rcases List.mem_cons.1 hname with rfl | hmem
    · exact hfirst
    · exact ih hinner hrest name hmem

theorem WellFormed.find {names : List String} (h : entry.WellFormed)
    (hfind : entry.find? names = some inner) : inner.WellFormed := by
  induction names generalizing entry with
  | nil =>
    have hsame : entry = inner := Option.some.inj hfind
    exact hsame ▸ h
  | cons first rest ih =>
    rw [find?_cons, Option.bind_eq_some_iff] at hfind
    rcases hfind with ⟨next, hnext, hrest⟩
    exact ih (h.child hnext).2 hrest

theorem WellFormed.insert {entries : List (String × Entry)}
    (h : WellFormed (.directory entries)) (hname : Path.IsName name.toList) (hnew : new.WellFormed) :
    WellFormed (.directory (Entries.insert name new entries)) := by
  cases h with
  | directory distinct names inner =>
    refine .directory (Entries.nodup_insert distinct) ?_ ?_
    · intro e he
      rcases Entries.mem_insert he with rfl | hold
      · exact hname
      · exact names e hold
    · intro e he
      rcases Entries.mem_insert he with rfl | hold
      · exact hnew
      · exact inner e hold

theorem WellFormed.put (h : entry.WellFormed) (hname : Path.IsName name.toList)
    (hnew : new.WellFormed) (before : List String) :
    (Entry.put new (before ++ [name]) entry).WellFormed := by
  induction before generalizing entry with
  | nil =>
    cases entry with
    | file text => exact h
    | directory entries =>
      have hput : Entry.put new [name] (.directory entries) =
          .directory (Entries.insert name new entries) := by
        cases hlookup : entries.lookup name <;> simp [Entry.put, hlookup]
      rw [List.nil_append, hput]
      exact h.insert hname hnew
  | cons first rest ih =>
    cases entry with
    | file text => exact h
    | directory entries =>
      rw [List.cons_append]
      cases hlookup : entries.lookup first with
      | none =>
        have hput : Entry.put new (first :: (rest ++ [name])) (.directory entries) =
            .directory entries := by
          cases rest <;> simp [Entry.put, hlookup]
        rwa [hput]
      | some inner =>
        have hput : Entry.put new (first :: (rest ++ [name])) (.directory entries) =
            .directory (Entries.insert first (Entry.put new (rest ++ [name]) inner) entries) := by
          simp [Entry.put, hlookup]
        have hchild : child? (.directory entries) first = some inner := hlookup
        rcases h.child hchild with ⟨hfirst, hinner⟩
        rw [hput]
        exact h.insert hfirst (ih hinner)

/-! ## Names in order -/

/-- The names that a directory shows, in order. -/
def shown : Entry → List String
  | .file _ => []
  | .directory entries => ((entries.map (·.1)).filter (!isHidden ·)).mergeSort fun a b => a ≤ b

/-- What stands under a name that a directory holds. -/
def childOf (entry : Entry) (name : String) : Entry := (entry.child? name).getD default

theorem childOf_of_child? (h : entry.child? name = some inner) : entry.childOf name = inner := by
  rw [childOf, h]
  rfl

theorem mem_shown_iff : name ∈ entry.shown ↔ isHidden name = false ∧ entry.child? name ≠ none := by
  cases entry with
  | file text => simp [shown, child?]
  | directory entries =>
    have hkeys : name ∈ entries.map (·.1) ↔ entries.lookup name ≠ none := by
      rw [← Entries.contains_iff, Entries.contains, List.any_eq_true]
      simp only [List.mem_map, beq_iff_eq]
    rw [shown, List.mem_mergeSort, List.mem_filter, hkeys, child?]
    simp [and_comm]

theorem shown_pairwise (h : entry.WellFormed) : entry.shown.Pairwise (· < ·) := by
  cases h with
  | file text => exact .nil
  | @directory entries distinct names inner =>
    have hsorted : (shown (.directory entries)).Pairwise (· ≤ ·) := by
      have htrans : ∀ a b c : String, decide (a ≤ b) = true → decide (b ≤ c) = true →
          decide (a ≤ c) = true := by
        intro a b c hab hbc
        exact decide_eq_true (String.le_trans (of_decide_eq_true hab) (of_decide_eq_true hbc))
      have htotal : ∀ a b : String, (decide (a ≤ b) || decide (b ≤ a)) = true := by
        intro a b
        simpa using String.le_total a b
      have hpairwise := List.pairwise_mergeSort htrans htotal
        ((entries.map (·.1)).filter (!isHidden ·))
      simpa [shown] using hpairwise
    have hdistinct : (shown (.directory entries)).Nodup := by
      have hfilter := distinct.filter (!isHidden ·)
      exact (List.mergeSort_perm _ _).nodup_iff.2 hfilter
    exact (hsorted.and hdistinct).imp fun hab => Std.lt_of_le_of_ne hab.1 hab.2

/-- Branches of shown entries, each made from a name and what stands there. -/
theorem sorted_map_shown {entries : List (String × Entry)} (h : WellFormed (.directory entries))
    (make : String → Entry → Branch) (hmake : ∀ name entry, (make name entry).name = name) :
    sorted ((entries.filter (!isHidden ·.1)).map fun e => make e.1 e.2) =
      (shown (.directory entries)).map fun name => make name (childOf (.directory entries) name) := by
  cases h with
  | directory distinct names inner =>
    have hchild : ∀ e ∈ entries.filter (!isHidden ·.1),
        make e.1 e.2 = make e.1 (childOf (.directory entries) e.1) := by
      intro e he
      have hlookup : child? (.directory entries) e.1 = some e.2 :=
        Entries.lookup_of_mem distinct (List.mem_of_mem_filter he)
      rw [childOf_of_child? hlookup]
    have hnames : (entries.filter (!isHidden ·.1)).map (fun e => make e.1 e.2) =
        ((entries.map (·.1)).filter (!isHidden ·)).map
          fun name => make name (childOf (.directory entries) name) := by
      rw [List.map_congr_left hchild, List.filter_map, List.map_map]
      rfl
    rw [sorted, hnames, shown, List.map_mergeSort]
    intro a _ b _
    rw [hmake, hmake]

theorem branches_eq_map (entries : List (String × Entry)) :
    branches entries = (entries.filter (!isHidden ·.1)).map fun e => branch e.1 e.2 := by
  induction entries with
  | nil => rfl
  | cons e rest ih =>
    rcases e with ⟨name, entry⟩
    cases hhidden : isHidden name with
    | true => simp [branches, hhidden, ih]
    | false => simp [branches, hhidden, ih]

theorem name_branch (name : String) (entry : Entry) : (branch name entry).name = name := by
  cases entry <;> rfl

theorem name_stub (name : String) (entry : Entry) : (stub name entry).name = name := by
  cases entry <;> rfl

theorem contents_eq_map (h : entry.WellFormed) :
    entry.contents = entry.shown.map fun name => stub name (entry.childOf name) := by
  cases entry with
  | file text => rfl
  | directory entries => exact sorted_map_shown h stub name_stub

theorem descendants_eq_map (h : entry.WellFormed) :
    entry.descendants = entry.shown.map fun name => branch name (entry.childOf name) := by
  cases entry with
  | file text => rfl
  | directory entries =>
    rw [descendants, branches_eq_map]
    exact sorted_map_shown h branch name_branch

/-- What holds of an entry if it holds of all that stands under a name in it holds of every entry. -/
theorem induct {motive : Entry → Prop}
    (step : ∀ entry, (∀ name inner, entry.child? name = some inner → motive inner) → motive entry)
    (entry : Entry) : motive entry := by
  apply step
  intro name inner hchild
  match entry, hchild with
  | .directory entries, hchild =>
    have hmem := Entries.mem_of_lookup hchild
    have hsmaller : sizeOf inner < 1 + sizeOf entries := by
      have hlist := List.sizeOf_lt_of_mem hmem
      simp only [Prod.mk.sizeOf_spec] at hlist
      omega
    exact induct step inner
termination_by sizeOf entry

end Entry

/-- A list of names that only grows by names without anything behind them. -/
theorem flatMap_eq_of_subset {α : Type} {xs ys : List String} (hxs : xs.Pairwise (· < ·))
    (hys : ys.Pairwise (· < ·)) (hsubset : ∀ x ∈ xs, x ∈ ys) (f : String → List α)
    (hnew : ∀ y ∈ ys, y ∉ xs → f y = []) : ys.flatMap f = xs.flatMap f := by
  have hsame : ys.filter (· ∈ xs) = xs := by
    refine List.Pairwise.eq_of_mem_iff (hys.filter _) hxs ?_
    intro a
    simp only [List.mem_filter, decide_eq_true_eq]
    exact ⟨And.right, fun ha => ⟨hsubset a ha, ha⟩⟩
  have hfilter : ∀ zs : List String, (∀ z ∈ zs, z ∈ ys) →
      zs.flatMap f = (zs.filter (· ∈ xs)).flatMap f := by
    intro zs hzs
    induction zs with
    | nil => rfl
    | cons z zs ih =>
      have hrest := ih fun w hw => hzs w (List.mem_cons_of_mem z hw)
      by_cases hz : z ∈ xs
      · simp [hz, hrest]
      · simp [hz, hrest, hnew z (hzs z List.mem_cons_self) hz]
  rw [hfilter ys fun _ hz => hz, hsame]

/-! ## Scripts keep trees well-formed -/

namespace Disk

variable {disk after : Disk} {path : Path} {text : Option String} {spot : Spot}

/-- A disk whose tree is well-formed and whose working directory is there. -/
structure WellFormed (disk : Disk) : Prop where
  root : disk.root.WellFormed
  location : disk.face? disk.location = some .directory

theorem entry?_cons (disk : Disk) (name : String) (spot : Spot) :
    disk.entry? (name :: spot) = (disk.entry? spot).bind (·.child? name) := by
  have hlast : ∀ entry : Entry, entry.find? [name] = entry.child? name := by
    intro entry
    rw [Entry.find?_cons]
    cases entry.child? name <;> rfl
  rw [ entry?, entry?, List.reverse_cons, Entry.find?_append]
  simp only [hlast]

theorem isName_of_face? (h : disk.root.WellFormed) (hface : disk.face? spot ≠ none) :
    ∀ name ∈ spot, Path.IsName name.toList := by
  intro name hname
  cases hfind : disk.entry? spot with
  | none => exact absurd (by rw [face?, hfind]; rfl) hface
  | some entry => exact h.isName hfind name (List.mem_reverse.2 hname)

theorem root_put {name : String} {new : Entry} (h : disk.root.WellFormed)
    (hname : Path.IsName name.toList) (hnew : new.WellFormed) :
    (disk.put (name :: spot) new).root.WellFormed := by
  rw [put, List.reverse_cons]
  exact h.put hname hnew spot.reverse

theorem endsIn_of_write (h : disk.write path (.file text) = .ok after) : ∃ name, path.EndsIn name := by
  rw [write] at h
  cases hends : endsInName (withoutEnding path) with
  | false =>
    simp only [hends, Bool.false_eq_true, if_false, bind, Except.bind] at h
    cases hresolve : disk.resolve path with
    | ok spot => simp [hresolve] at h
    | error fault => simp [hresolve] at h
  | true =>
    rcases Path.endsInName_iff.1 hends with ⟨name, hname⟩
    have hbare : withoutEnding path = path := by
      by_contra hne
      simp only [hends, if_true, bind, Except.bind] at h
      cases hnew : disk.resolveNew (withoutEnding path) with
      | ok spot => simp [hnew, hne] at h
      | error fault => simp [hnew] at h
    rw [hbare] at hname
    exact ⟨name, hname⟩

/-- Entering a directory leaves the tree as it is. -/
theorem root_of_enter (h : disk.enter path = .ok after) : after.root = disk.root := by
  rw [enter] at h
  cases hresolve : disk.resolve path with
  | error fault => simp [hresolve, bind, Except.bind] at h
  | ok spot =>
    simp only [hresolve, bind, Except.bind] at h
    split at h
    · rw [← Except.ok.inj h]
    · exact absurd h (by simp)
    · exact absurd h (by simp)

end Disk

theorem Action.root_run {β : Type} (action : Action β) (workspace : Workspace)
    (h : workspace.disk.root.WellFormed) : (action.run workspace).2.disk.root.WellFormed := by
  have hupdate : ∀ changed : Except FileFault Disk,
      (∀ disk, changed = .ok disk → disk.root.WellFormed) →
        (workspace.update changed).2.disk.root.WellFormed := by
    intro changed hchanged
    cases changed with
    | ok disk => exact hchanged disk rfl
    | error fault => exact h
  cases action with
  | enter directory =>
    apply hupdate
    intro disk hdisk
    rw [Disk.root_of_enter hdisk]
    exact h
  | makeDirectory directory =>
    apply hupdate
    intro disk hdisk
    rcases Disk.makeDirectory_eq_ok hdisk with ⟨-, -, ⟨name, before, hgoal, hname, -⟩, rfl⟩
    rw [hgoal]
    exact Disk.root_put h hname (.directory (by simp) (by simp) (by simp))
  | write file text =>
    apply hupdate
    intro disk hdisk
    rcases Disk.endsIn_of_write hdisk with ⟨name, hends⟩
    rcases (Disk.write_eq_ok_iff hends).1 hdisk with ⟨-, -, rfl⟩
    rcases Disk.goal_of_endsIn hends workspace.disk with ⟨before, hgoal, -⟩
    rw [hgoal]
    exact Disk.root_put h hends.isName (.file (some text))
  | _ => exact h

theorem Script.root_run {α : Type} (script : Script α) (workspace : Workspace)
    (h : workspace.disk.root.WellFormed) : (script.run workspace).2.disk.root.WellFormed := by
  induction script generalizing workspace with
  | done value => exact h
  | act action next ih => exact ih _ _ (action.root_run workspace h)

end PipelineTree
