import Mathlib.Data.List.Sort
import PipelineTree.Proofs.Files.Lookup

/-!
# Gathering — the inputs of several patterns in one list

Paths are ordered by their components, and paths with the same components count as one.  What patterns find is
put into a list that increases strictly in this order.  So the list is the union of what the patterns find,
each path as it was found first, and only what the patterns find together decides which paths it holds, not
in which order or how often it is found (`Inputs.resolve_gathers`).
-/

namespace PipelineTree

namespace Path

/-! ## The order of paths -/

/-- Two paths with the same components, however they are written. -/
def Same (p q : Path) : Prop := p.components = q.components

instance (p q : Path) : Decidable (p.Same q) := inferInstanceAs (Decidable (p.components = q.components))

/-- The name that a component is, or nothing. -/
def Component.spelling : Component → String
  | .name text => text
  | _ => ""

/-- Components are ordered by their sort first, and names by their characters. -/
theorem Component.compare_eq (a b : Component) :
    a.compare b = compareLex (compareOn rank) (compareOn spelling) a b := by
  cases a <;> cases b <;> simp [compare, compareLex, compareOn, rank, spelling] <;> rfl

instance : Std.TransCmp Component.compare := by
  have heq : Component.compare = compareLex (compareOn Component.rank) (compareOn Component.spelling) := by
    funext a b
    exact a.compare_eq b
  rw [heq]
  infer_instance

instance : Std.LawfulEqCmp Component.compare where
  compare_self {a} := by
    cases a <;> simp [Component.compare]
  eq_of_compare {a b} h := by
    cases a <;> cases b <;> simp_all [Component.compare, Component.rank]

theorem compareComponents_eq (as bs : List Component) :
    compareComponents as bs = List.compareLex Component.compare as bs := by
  induction as generalizing bs with
  | nil => cases bs <;> rfl
  | cons a as ih =>
    cases bs with
    | nil => rfl
    | cons b bs => rw [compareComponents, List.compareLex_cons_cons, ih]

/-- A path comes before another one. -/
def Before (p q : Path) : Prop := p.compare q = .lt

theorem compare_eq (p q : Path) :
    p.compare q = List.compareLex Component.compare p.components q.components :=
  compareComponents_eq p.components q.components

theorem compare_eq_eq_iff {p q : Path} : p.compare q = .eq ↔ p.Same q := by
  rw [compare_eq, Std.LawfulEqCmp.compare_eq_iff_eq]
  rfl

theorem before_of_compare_gt {p q : Path} (h : p.compare q = .gt) : q.Before p := by
  rw [compare_eq] at h
  rw [Before, compare_eq]
  exact Std.OrientedCmp.lt_of_gt h

theorem Before.trans {p q r : Path} (h : p.Before q) (hnext : q.Before r) : p.Before r := by
  rw [Before, compare_eq] at *
  exact Std.TransCmp.lt_trans h hnext

theorem Before.not_same {p q : Path} (h : p.Before q) : ¬p.Same q := by
  intro hsame
  cases h.symm.trans (compare_eq_eq_iff.2 hsame)

theorem Same.symm {p q : Path} (h : p.Same q) : q.Same p := Eq.symm h

theorem Same.trans {p q r : Path} (h : p.Same q) (hnext : q.Same r) : p.Same r := Eq.trans h hnext

theorem components_subset {ps qs : List Path}
    (h : ∀ path, (∃ p ∈ ps, p.Same path) → ∃ q ∈ qs, q.Same path) :
    ∀ as ∈ ps.map components, as ∈ qs.map components := by
  intro as has
  rcases List.mem_map.1 has with ⟨p, hp, rfl⟩
  rcases h p ⟨p, hp, rfl⟩ with ⟨q, hq, hsame⟩
  exact List.mem_map.2 ⟨q, hq, hsame⟩

/-- Lists that increase strictly and hold the same paths agree path by path. -/
theorem forall₂_same {ps qs : List Path} (hps : ps.Pairwise Before) (hqs : qs.Pairwise Before)
    (h : ∀ path, (∃ p ∈ ps, p.Same path) ↔ ∃ q ∈ qs, q.Same path) : List.Forall₂ Same ps qs := by
  -- The components of both lists are strictly sorted, and there is only one such list of the same ones.
  let less (as bs : List Component) : Prop := List.compareLex Component.compare as bs = .lt
  have hirrefl : Std.Irrefl less := ⟨fun as has => by simp [less, Std.ReflCmp.compare_self] at has⟩
  have hantisymm : Std.Antisymm less := by
    constructor
    intro as bs hab hba
    cases (Std.OrientedCmp.gt_of_lt hab).symm.trans hba
  have hless {paths : List Path} (hpaths : paths.Pairwise Before) :
      (paths.map components).Pairwise less := by
    refine List.pairwise_map.2 (hpaths.imp ?_)
    intro p q hbefore
    exact (compare_eq p q).symm.trans hbefore
  have hmem : ∀ as, as ∈ ps.map components ↔ as ∈ qs.map components := by
    intro as
    exact ⟨components_subset (fun path => (h path).1) as, components_subset (fun path => (h path).2) as⟩
  have heq : ps.map components = qs.map components := (hless hps).eq_of_mem_iff (hless hqs) hmem
  rw [← List.forall₂_eq_eq_eq, List.forall₂_map_left_iff, List.forall₂_map_right_iff] at heq
  exact heq

end Path

namespace Inputs

open PipelineTree.Path

/-! ## A list that paths are put into -/

variable {disk : Disk} {base : Path} {pattern : String} {patterns : List String} {path : Path}
  {found sorted inputs : List Path} {error : Error}

/-- A path is the first of those with its components. -/
def IsFirst (found : List Path) (path : Path) : Prop :=
  found.find? (fun p => decide (p.Same path)) = some path

theorem isFirst_append {path : Path} (found : List Path) (new : Path) :
    IsFirst (found ++ [new]) path ↔
      IsFirst found path ∨ (path = new ∧ ∀ p ∈ found, ¬p.Same new) := by
  rw [IsFirst, IsFirst, List.find?_append]
  cases hfirst : found.find? (fun p => decide (p.Same path)) with
  | some first =>
    have hmem := List.mem_of_find?_eq_some hfirst
    have hsame : first.Same path := by simpa using List.find?_some hfirst
    have hold : ¬(path = new ∧ ∀ p ∈ found, ¬p.Same new) := by
      rintro ⟨rfl, hnew⟩
      exact hnew first hmem hsame
    simp only [Option.some_or, hold, or_false]
  | none =>
    have hnone : ∀ p ∈ found, ¬p.Same path := by
      simpa using hfirst
    simp only [Option.none_or, List.find?_singleton, Option.ite_none_right_eq_some, decide_eq_true_eq,
      Option.some.injEq, reduceCtorEq, false_or]
    constructor
    · rintro ⟨-, rfl⟩
      exact ⟨rfl, hnone⟩
    · rintro ⟨rfl, -⟩
      exact ⟨rfl, rfl⟩

theorem exists_isFirst (h : path ∈ found) : ∃ first, IsFirst found first ∧ first.Same path := by
  have hsome : (found.find? fun p => decide (p.Same path)).isSome := by
    rw [List.find?_isSome]
    exact ⟨path, h, decide_eq_true rfl⟩
  rcases Option.isSome_iff_exists.1 hsome with ⟨first, hfirst⟩
  have hsame : first.Same path := by simpa using List.find?_some hfirst
  have hpick : (fun p : Path => decide (p.Same first)) = fun p => decide (p.Same path) := by
    funext p
    exact decide_eq_decide.2 ⟨fun h => h.trans hsame, fun h => h.trans hsame.symm⟩
  exact ⟨first, (congrArg found.find? hpick).trans hfirst, hsame⟩

/-- A list that increases strictly, of the paths that were found, each as it was found first. -/
structure Gathers (found inputs : List Path) : Prop where
  increasing : inputs.Pairwise Path.Before
  mem_iff : ∀ path, path ∈ inputs ↔ IsFirst found path

theorem Gathers.mem_found (h : Gathers found inputs) : ∀ input ∈ inputs, input ∈ found := by
  intro input hinput
  exact List.mem_of_find?_eq_some ((h.mem_iff input).1 hinput)

theorem Gathers.exists_same (h : Gathers found inputs) : ∀ path ∈ found, ∃ input ∈ inputs, input.Same path := by
  intro path hpath
  rcases exists_isFirst hpath with ⟨first, hfirst, hsame⟩
  exact ⟨first, (h.mem_iff first).2 hfirst, hsame⟩

theorem mem_insert_iff (h : sorted.Pairwise Path.Before) {p : Path} :
    p ∈ insert path sorted ↔ p ∈ sorted ∨ (p = path ∧ ∀ q ∈ sorted, ¬q.Same path) := by
  induction sorted with
  | nil => simp [insert]
  | cons q qs ih =>
    rcases List.pairwise_cons.1 h with ⟨hq, hqs⟩
    rw [insert]
    cases horder : path.compare q with
    | lt =>
      -- All that follow come after the path, too.
      have hnew : ∀ r ∈ q :: qs, ¬r.Same path := by
        intro r hr hsame
        rcases List.mem_cons.1 hr with rfl | hr
        · exact Before.not_same horder hsame.symm
        · exact Before.not_same (Before.trans horder (hq r hr)) hsame.symm
      simp only [List.mem_cons (a := p) (b := path), and_iff_left hnew]
      exact or_comm
    | eq =>
      -- The path that is there already is kept, and the new one is left out.
      have hsame : q.Same path := (compare_eq_eq_iff.1 horder).symm
      have hold : ¬∀ r ∈ q :: qs, ¬r.Same path := fun hnew => hnew q List.mem_cons_self hsame
      simp only [and_false, or_false, hold]
    | gt =>
      have hother : ¬q.Same path := Before.not_same (before_of_compare_gt horder)
      rw [List.mem_cons, ih hqs, List.mem_cons, List.forall_mem_cons, and_iff_right hother, or_assoc]

theorem increasing_insert (h : sorted.Pairwise Path.Before) (path : Path) :
    (insert path sorted).Pairwise Path.Before := by
  induction sorted with
  | nil => simp [insert]
  | cons q qs ih =>
    rcases List.pairwise_cons.1 h with ⟨hq, hqs⟩
    rw [insert]
    cases horder : path.compare q with
    | lt =>
      refine List.pairwise_cons.2 ⟨?_, h⟩
      intro r hr
      rcases List.mem_cons.1 hr with rfl | hr
      · exact horder
      · exact Before.trans horder (hq r hr)
    | eq => exact h
    | gt =>
      refine List.pairwise_cons.2 ⟨?_, ih hqs⟩
      intro r hr
      rcases mem_insert hr with rfl | hr
      · exact before_of_compare_gt horder
      · exact hq r hr

/-- What putting one more path into the list keeps. -/
theorem Gathers.insert (h : Gathers found sorted) (path : Path) :
    Gathers (found ++ [path]) (Inputs.insert path sorted) := by
  have hnew : (∀ q ∈ sorted, ¬q.Same path) ↔ ∀ p ∈ found, ¬p.Same path := by
    constructor
    · intro hnew p hp hsame
      rcases h.exists_same p hp with ⟨q, hq, hqsame⟩
      exact hnew q hq (hqsame.trans hsame)
    · intro hnew q hq
      exact hnew q (h.mem_found q hq)
  refine ⟨increasing_insert h.increasing path, ?_⟩
  intro p
  rw [mem_insert_iff h.increasing, isFirst_append, h.mem_iff, hnew]

theorem Gathers.insertAll (h : Gathers found sorted) (paths : List Path) :
    Gathers (found ++ paths) (Inputs.insertAll paths sorted) := by
  induction paths generalizing found sorted with
  | nil => simpa [Inputs.insertAll] using h
  | cons path paths ih =>
    have hrest := ih (h.insert path)
    rwa [List.append_assoc] at hrest

/-! ## What patterns find -/

/-- A pattern below a base finds an input on a disk: a file that is neither generated nor the settings. -/
def Finds (disk : Disk) (base : Path) (pattern : String) (path : Path) : Prop :=
  ∃ search, Search.ofText? (fullPattern base pattern) = some search ∧ path ∈ search.found disk ∧
    disk.isDirectory? path = some false ∧ path.isGenerated = false ∧ path.isSettings = false

/-- The inputs that a pattern finds, in the order in which it finds them. -/
def matched (disk : Disk) (base : Path) (pattern : String) : List Path :=
  match Search.ofText? (fullPattern base pattern) with
  | none => []
  | some search => (search.found disk).filter disk.holdsInput

/-- The error for a pattern that finds no input. -/
def refusal (base : Path) (pattern : String) : Error :=
  if (Search.ofText? (fullPattern base pattern)).isSome then .noInputFiles pattern
  else .globPattern pattern

theorem mem_matched_iff : path ∈ matched disk base pattern ↔ Finds disk base pattern path := by
  rw [matched, Finds]
  cases Search.ofText? (fullPattern base pattern) with
  | none => simp
  | some search => simp [Disk.holdsInput, Path.isAuthored]

theorem matched_ne_nil_iff : matched disk base pattern ≠ [] ↔ ∃ path, Finds disk base pattern path := by
  constructor
  · intro h
    rcases List.exists_mem_of_ne_nil _ h with ⟨path, hpath⟩
    exact ⟨path, mem_matched_iff.1 hpath⟩
  · rintro ⟨path, hfinds⟩
    exact List.ne_nil_of_mem (mem_matched_iff.2 hfinds)

theorem inputsOf_eq_ok (h : matched disk base pattern ≠ []) :
    inputsOf disk base pattern = .ok (matched disk base pattern) := by
  rw [inputsOf]
  rw [matched] at h ⊢
  cases hsearch : Search.ofText? (fullPattern base pattern) with
  | none => simp [hsearch] at h
  | some search =>
    simp only [hsearch] at h ⊢
    rw [if_neg (by simpa using h)]

theorem inputsOf_eq_error (h : matched disk base pattern = []) :
    inputsOf disk base pattern = .error (refusal base pattern) := by
  rw [inputsOf, refusal]
  rw [matched] at h
  cases hsearch : Search.ofText? (fullPattern base pattern) with
  | none => rfl
  | some search =>
    simp only [hsearch] at h
    simp [h]

/-- If all patterns find inputs, these are put into the list in turn. -/
theorem resolved_eq_ok (h : ∀ pattern ∈ patterns, matched disk base pattern ≠ []) :
    resolved disk base sorted patterns = .ok (insertAll (patterns.flatMap (matched disk base)) sorted) := by
  induction patterns generalizing sorted with
  | nil => rfl
  | cons pattern patterns ih =>
    rcases List.forall_mem_cons.1 h with ⟨hpattern, hpatterns⟩
    rw [resolved, inputsOf_eq_ok hpattern, Run.ok_bind, ih hpatterns, List.flatMap_cons, insertAll,
      insertAll, insertAll, List.foldl_append]

/-- The first pattern that finds nothing is refused, whatever comes after it. -/
theorem resolved_eq_error {before after : List String}
    (hbefore : ∀ other ∈ before, matched disk base other ≠ []) (h : matched disk base pattern = []) :
    resolved disk base sorted (before ++ pattern :: after) = .error (refusal base pattern) := by
  induction before generalizing sorted with
  | nil => rw [List.nil_append, resolved, inputsOf_eq_error h, Run.error_bind]
  | cons other before ih =>
    rcases List.forall_mem_cons.1 hbefore with ⟨hother, hrest⟩
    rw [List.cons_append, resolved, inputsOf_eq_ok hother, Run.ok_bind, ih hrest]

/-- Either all patterns find inputs, or one is the first that finds none. -/
theorem all_or_first (disk : Disk) (base : Path) (patterns : List String) :
    (∀ pattern ∈ patterns, matched disk base pattern ≠ []) ∨
      ∃ before pattern after, patterns = before ++ pattern :: after ∧
        (∀ other ∈ before, matched disk base other ≠ []) ∧ matched disk base pattern = [] := by
  cases hfirst : patterns.find? fun pattern => (matched disk base pattern).isEmpty with
  | none => exact .inl (by simpa using hfirst)
  | some pattern =>
    rcases List.find?_eq_some_iff_append.1 hfirst with ⟨hnone, before, after, hpatterns, hbefore⟩
    exact .inr ⟨before, pattern, after, hpatterns, by simpa using hbefore, by simpa using hnone⟩

/-! ## The resolved list -/

/-- Some of the patterns finds a path, however it is written. -/
def Named (disk : Disk) (base : Path) (patterns : List String) (path : Path) : Prop :=
  ∃ pattern ∈ patterns, ∃ found, Finds disk base pattern found ∧ found.Same path

/-- A list is the union of what patterns find, in the order of paths and each path as it was found first. -/
structure IsUnion (disk : Disk) (base : Path) (patterns : List String) (inputs : List Path) : Prop where
  increasing : inputs.Pairwise Path.Before
  distinct : inputs.Pairwise fun input other => ¬input.Same other
  found : ∀ input ∈ inputs, ∃ pattern ∈ patterns, Finds disk base pattern input
  covers : ∀ pattern ∈ patterns, ∀ path, Finds disk base pattern path → ∃ input ∈ inputs, input.Same path
  first : ∀ input ∈ inputs, IsFirst (patterns.flatMap (matched disk base)) input

theorem isUnion_insertAll (disk : Disk) (base : Path) (patterns : List String) :
    IsUnion disk base patterns (insertAll (patterns.flatMap (matched disk base)) []) := by
  have hempty : Gathers [] [] := ⟨List.Pairwise.nil, by simp [IsFirst]⟩
  have hgathers := hempty.insertAll (patterns.flatMap (matched disk base))
  rw [List.nil_append] at hgathers
  exact
    { increasing := hgathers.increasing
      distinct := hgathers.increasing.imp Before.not_same
      found := by
        intro input hinput
        rcases List.mem_flatMap.1 (hgathers.mem_found input hinput) with ⟨pattern, hpattern, hmem⟩
        exact ⟨pattern, hpattern, mem_matched_iff.1 hmem⟩
      covers := by
        intro pattern hpattern path hfinds
        exact hgathers.exists_same path
          (List.mem_flatMap.2 ⟨pattern, hpattern, mem_matched_iff.2 hfinds⟩)
      first := fun input hinput => (hgathers.mem_iff input).1 hinput }

theorem IsUnion.named_iff (h : IsUnion disk base patterns inputs) (path : Path) :
    (∃ input ∈ inputs, input.Same path) ↔ Named disk base patterns path := by
  constructor
  · rintro ⟨input, hinput, hsame⟩
    rcases h.found input hinput with ⟨pattern, hpattern, hfinds⟩
    exact ⟨pattern, hpattern, input, hfinds, hsame⟩
  · rintro ⟨pattern, hpattern, found, hfinds, hsame⟩
    rcases h.covers pattern hpattern found hfinds with ⟨input, hinput, hfound⟩
    exact ⟨input, hinput, hfound.trans hsame⟩

/-- What patterns find together decides which paths the list holds. -/
theorem IsUnion.agree {others : List String} {same : List Path} (h : IsUnion disk base patterns inputs)
    (hothers : IsUnion disk base others same)
    (hnamed : ∀ path, Named disk base patterns path ↔ Named disk base others path) :
    List.Forall₂ Path.Same inputs same := by
  refine forall₂_same h.increasing hothers.increasing ?_
  intro path
  rw [h.named_iff, hothers.named_iff, hnamed]

variable {workspace : Workspace}

theorem resolve_eq_ok (h : ∀ pattern ∈ patterns, ∃ path, Finds workspace.disk base pattern path) :
    ((resolve patterns base).run.run workspace).1 =
      .ok (insertAll (patterns.flatMap (matched workspace.disk base)) []) := by
  rw [Script.run_fst, on_resolve]
  exact resolved_eq_ok fun pattern hpattern => matched_ne_nil_iff.2 (h pattern hpattern)

/-- Patterns that do not all find inputs are refused for the first one that finds none. -/
theorem exists_refused (h : ¬∀ pattern ∈ patterns, ∃ path, Finds workspace.disk base pattern path) :
    ∃ before pattern after, patterns = before ++ pattern :: after ∧
      (∀ other ∈ before, ∃ path, Finds workspace.disk base other path) ∧
      (¬∃ path, Finds workspace.disk base pattern path) ∧
      ((resolve patterns base).run.run workspace).1 = .error (refusal base pattern) := by
  rcases all_or_first workspace.disk base patterns with hall | ⟨before, pattern, after, rfl, hbefore, hnone⟩
  · exact absurd (fun pattern hpattern => matched_ne_nil_iff.1 (hall pattern hpattern)) h
  · refine ⟨before, pattern, after, rfl, ?_, ?_, ?_⟩
    · exact fun other hother => matched_ne_nil_iff.1 (hbefore other hother)
    · exact fun hfinds => matched_ne_nil_iff.2 hfinds hnone
    · rw [Script.run_fst, on_resolve]
      exact resolved_eq_error hbefore hnone

/-- The resolved list is the union of what the patterns find, and each of them finds an input. -/
theorem isUnion_of_resolve (h : ((resolve patterns base).run.run workspace).1 = .ok inputs) :
    (∀ pattern ∈ patterns, ∃ path, Finds workspace.disk base pattern path) ∧
      IsUnion workspace.disk base patterns inputs := by
  by_cases hall : ∀ pattern ∈ patterns, ∃ path, Finds workspace.disk base pattern path
  · rw [resolve_eq_ok hall] at h
    exact ⟨hall, Except.ok.inj h ▸ isUnion_insertAll workspace.disk base patterns⟩
  · rcases exists_refused hall with ⟨_, _, _, -, -, -, hrefused⟩
    cases hrefused.symm.trans h

/--
Patterns resolve if and only if each of them finds an input.  The result is then the union of what they find,
and patterns that find the same together resolve to the same, whatever their order, their number and what they
have in common.  Otherwise the error is that of the first pattern that finds no input, and names it.
Two paths are the same if they have the same components.
-/
theorem resolve_gathers (patterns : List String) (base : Path) (workspace : Workspace) :
    ((∃ inputs, ((resolve patterns base).run.run workspace).1 = .ok inputs) ↔
        ∀ pattern ∈ patterns, ∃ path, Finds workspace.disk base pattern path) ∧
      (∀ inputs, ((resolve patterns base).run.run workspace).1 = .ok inputs →
        IsUnion workspace.disk base patterns inputs ∧
          ∀ others, (∀ pattern ∈ others, ∃ path, Finds workspace.disk base pattern path) →
            (∀ path, Named workspace.disk base patterns path ↔ Named workspace.disk base others path) →
            ∃ same, ((resolve others base).run.run workspace).1 = .ok same ∧
              List.Forall₂ Path.Same inputs same) ∧
      ∀ error, ((resolve patterns base).run.run workspace).1 = .error error →
        ∃ before pattern after, patterns = before ++ pattern :: after ∧
          (∀ other ∈ before, ∃ path, Finds workspace.disk base other path) ∧
          (¬∃ path, Finds workspace.disk base pattern path) ∧ error = refusal base pattern := by
  refine ⟨⟨?_, fun hall => ⟨_, resolve_eq_ok hall⟩⟩, ?_, ?_⟩
  · rintro ⟨inputs, hinputs⟩
    exact (isUnion_of_resolve hinputs).1
  · intro inputs hinputs
    have hunion := (isUnion_of_resolve hinputs).2
    refine ⟨hunion, ?_⟩
    intro others hothers hnamed
    exact ⟨_, resolve_eq_ok hothers, hunion.agree (isUnion_insertAll workspace.disk base others) hnamed⟩
  · intro error herror
    have hnot : ¬∀ pattern ∈ patterns, ∃ path, Finds workspace.disk base pattern path := by
      intro hall
      cases (resolve_eq_ok hall).symm.trans herror
    rcases exists_refused hnot with ⟨before, pattern, after, hpatterns, hbefore, hnone, hrefused⟩
    exact ⟨before, pattern, after, hpatterns, hbefore, hnone, Except.error.inj (herror.symm.trans hrefused)⟩

/-- A name and the same name behind a dot find the same input, written in two ways. -/
theorem finds_twice : ∀ pattern ∈ ["./ci.yaml", "ci.yaml"],
    ∃ path, Finds (projectIn "project").disk ⟨"/project"⟩ pattern path := by
  have hdotted : Search.ofText? (fullPattern ⟨"/project"⟩ "./ci.yaml") = some
      ⟨⟨"/"⟩, [.literal "project".toList, .literal ".".toList, .literal "ci.yaml".toList], false⟩ := by
    decide +kernel
  have hplain : Search.ofText? (fullPattern ⟨"/project"⟩ "ci.yaml") = some
      ⟨⟨"/"⟩, [.literal "project".toList, .literal "ci.yaml".toList], false⟩ := by
    decide +kernel
  simp only [List.forall_mem_cons, List.not_mem_nil, false_implies, implies_true, and_true]
  refine ⟨⟨⟨"/project/./ci.yaml"⟩, _, hdotted, ?_, ?_, ?_, ?_⟩, ⟨⟨"/project/ci.yaml"⟩, _, hplain, ?_, ?_, ?_, ?_⟩⟩
  all_goals decide +kernel

/-- Whichever of the two patterns comes first, the same file is resolved, and once. -/
theorem resolve_gathers_twice :
    ∃ inputs same,
      ((resolve ["./ci.yaml", "ci.yaml"] ⟨"/project"⟩).run.run (projectIn "project")).1 = .ok inputs ∧
      ((resolve ["ci.yaml", "./ci.yaml"] ⟨"/project"⟩).run.run (projectIn "project")).1 = .ok same ∧
      List.Forall₂ Path.Same inputs same := by
  have hswapped : ∀ pattern, pattern ∈ ["./ci.yaml", "ci.yaml"] ↔ pattern ∈ ["ci.yaml", "./ci.yaml"] := by
    simp [or_comm]
  rcases resolve_gathers ["./ci.yaml", "ci.yaml"] ⟨"/project"⟩ (projectIn "project") with
    ⟨hresolves, hunion, -⟩
  rcases hresolves.2 finds_twice with ⟨inputs, hinputs⟩
  have hothers := (hunion inputs hinputs).2 ["ci.yaml", "./ci.yaml"]
    (fun pattern hpattern => finds_twice pattern ((hswapped pattern).2 hpattern))
    fun path => exists_congr fun pattern => and_congr_left fun _ => hswapped pattern
  rcases hothers with ⟨same, hsame, hforall⟩
  exact ⟨inputs, same, hinputs, hsame, hforall⟩

end Inputs

end PipelineTree
