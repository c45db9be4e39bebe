import PipelineTree.Proofs.Files.Growth
import PipelineTree.Proofs.Files.Listing
import PipelineTree.Proofs.Files.Lookup

/-!
# Rediscovery — the same inputs on a disk that has grown

A search that never goes up finds the same inputs again after documents were written and directories made.
A path that never goes up leads somewhere only if all directories on its way are there, so that what is new
on the disk is only found below new directories or at marked names, and no input is there.
-/

namespace PipelineTree

/-! ## Straight paths -/

/-- An absolute path that never goes up. -/
structure Path.Straight (path : Path) : Prop where
  absolute : path.isAbsolute = true
  down : ['.', '.'] ∉ path.steps

namespace Spot

/-- Steps down lead to where their names say, through all that is above. -/
theorem goal_eq_of_down {steps : List Path.Segment} (h : ['.', '.'] ∉ steps) (spot : Spot) :
    goal spot steps = (steps.map String.ofList).reverse ++ spot := by
  induction steps generalizing spot with
  | nil => rfl
  | cons s ss ih =>
    have hs : s ≠ ['.', '.'] := fun heq => h (heq ▸ List.mem_cons_self)
    have hss : ['.', '.'] ∉ ss := fun hmem => h (List.mem_cons_of_mem s hmem)
    have hrest : goal spot (s :: ss) = goal (spot.step s) ss := rfl
    rw [hrest, ih hss, step_name spot hs]
    simp

theorem exists_names_of_mem_way {steps : List Path.Segment} (h : ['.', '.'] ∉ steps) {spot on : Spot}
    (hon : on ∈ spot.way steps) : ∃ name names, goal spot steps = name :: names ++ on := by
  induction steps generalizing spot with
  | nil => exact absurd hon (by simp [way])
  | cons s ss ih =>
    have hs : s ≠ ['.', '.'] := fun heq => h (heq ▸ List.mem_cons_self)
    have hss : ['.', '.'] ∉ ss := fun hmem => h (List.mem_cons_of_mem s hmem)
    have hrest : goal spot (s :: ss) = goal (spot.step s) ss := rfl
    rcases List.mem_cons.1 hon with rfl | hlater
    · -- The first spot is left by the first step and never entered again.
      have hgoal : goal on (s :: ss) = (ss.map String.ofList).reverse ++ [String.ofList s] ++ on := by
        rw [hrest, goal_eq_of_down hss, step_name on hs]
        simp
      cases hnames : (ss.map String.ofList).reverse ++ [String.ofList s] with
      | nil => simp at hnames
      | cons name names => exact ⟨name, names, by rw [hgoal, hnames]⟩
    · rw [hrest]
      exact ih hss hlater

end Spot

namespace Disk

variable {disk before after : Disk} {path : Path} {spot : Spot} {directories : Spot → Prop}

/-- All that is above something is a directory. -/
theorem face?_of_append {name : String} {names : List String}
    (h : disk.face? (name :: names ++ spot) ≠ none) : disk.face? spot = some .directory := by
  induction names generalizing name with
  | nil => exact face?_tail h
  | cons next rest ih =>
    have habove : disk.face? (next :: rest ++ spot) = some .directory := face?_tail h
    exact ih (by rw [habove]; simp)

theorem goal_of_straight (h : path.Straight) (disk : Disk) :
    disk.goal path = (path.steps.map String.ofList).reverse := by
  rw [goal, startOf, if_pos h.absolute, Spot.goal_eq_of_down h.down, List.append_nil]

/-- A straight path is open if there is something where it leads. -/
theorem opens_of_straight (h : path.Straight) (hface : disk.face? (disk.goal path) ≠ none) :
    disk.Opens path := by
  intro spot hspot
  rcases Spot.exists_names_of_mem_way h.down hspot with ⟨name, names, hgoal⟩
  rw [goal, hgoal] at hface
  exact face?_of_append hface

theorem text_of_isAbsolute (h : path.isAbsolute = true) : path.text ≠ "" ∧ path.text ≠ "." := by
  have htext := Path.text_of_isAbsolute h
  constructor
  · intro hempty
    simp [hempty] at htext
  · intro hdot
    simp [hdot] at htext

theorem isDirectory?_eq_true_iff_of_straight (h : path.Straight) :
    disk.isDirectory? path = some true ↔ disk.face? (disk.goal path) = some .directory := by
  rw [isDirectory?_eq_true_iff]
  constructor
  · exact fun hall => hall.2.2
  · intro hface
    exact ⟨(text_of_isAbsolute h.absolute).1, opens_of_straight h (by simp [hface]), hface⟩

/-- A straight path names an input on a disk that has grown exactly if it did so before. -/
theorem holdsInput_grown (hgrows : before.Grows Spot.Marked directories after) (h : path.Straight) :
    after.holdsInput path = before.holdsInput path := by
  rw [Bool.eq_iff_iff, holdsInput_iff, holdsInput_iff]
  constructor
  · rintro ⟨text, name, hnames, hends, hunmarked, hsettings⟩
    rcases hnames with ⟨htext, -, hface, hcounts⟩
    have hnot : ¬Spot.Marked (before.goal path) := by
      rw [marked_goal_iff hends, hunmarked]
      simp
    have hbecomes := hgrows.becomes (before.goal path)
    rw [hgrows.goal] at hface
    rw [hface] at hbecomes
    have hold := hbecomes.of_file hnot
    have hopens : before.Opens path := opens_of_straight h (by simp [hold])
    exact ⟨text, name, ⟨htext, hopens, hold, hcounts⟩, hends, hunmarked, hsettings⟩
  · rintro ⟨text, name, hnames, hends, hunmarked, hsettings⟩
    have hnot : ¬Spot.Marked (before.goal path) := by
      rw [marked_goal_iff hends, hunmarked]
      simp
    exact ⟨text, name, hgrows.namesFile hnames hnot, hends, hunmarked, hsettings⟩

end Disk

/-! ## Searches that never go up -/

namespace Pattern

/-- A pattern for one component that does not lead up. -/
structure Descends (pattern : Pattern) : Prop where
  within : .char '/' ∉ pattern
  down : ".." ∉ Search.specialNames pattern

theorem eq_literal_of_literal? {pattern : Pattern} {name : List Char}
    (h : pattern.literal? = some name) : pattern = literal name := by
  induction pattern generalizing name with
  | nil =>
    have hname : [] = name := Option.some.inj h
    rw [← hname]
    rfl
  | cons token rest ih =>
    cases token <;> simp only [literal?, Option.map_eq_some_iff, reduceCtorEq] at h
    rcases h with ⟨tail, htail, rfl⟩
    rw [ih htail]
    rfl

theorem Descends.plain {pattern : Pattern} {name : List Char} (h : pattern.Descends)
    (hname : pattern.literal? = some name) : '/' ∉ name := by
  intro hslash
  apply h.within
  rw [eq_literal_of_literal? hname]
  exact List.mem_map_of_mem hslash

theorem Descends.ne_dots {pattern : Pattern} {name : List Char} (h : pattern.Descends)
    (hname : pattern.literal? = some name) : name ≠ ['.', '.'] := by
  rintro rfl
  apply h.down
  have hdescribes : pattern.describes ".." = true := by
    rw [describes, matchesFrom_of_literal hname]
    rfl
  have hhead : pattern.head? = some (.char '.') := by
    rw [eq_literal_of_literal? hname]
    rfl
  rw [Search.specialNames, if_pos (beq_iff_eq.2 hhead)]
  exact List.mem_filter.2 ⟨by simp, hdescribes⟩

theorem Descends.special {pattern : Pattern} (h : pattern.Descends) {name : String}
    (hname : name ∈ Search.specialNames pattern) : name = "." := by
  have hmem : name ∈ ["..", "."] := by
    rw [Search.specialNames] at hname
    split at hname
    · exact List.mem_of_mem_filter hname
    · exact absurd hname (by simp)
  have hne : name ≠ ".." := by
    rintro rfl
    exact h.down hname
  simpa [hne] using hmem

end Pattern

namespace Search

open PipelineTree.Path

variable {disk before after : Disk} {directory path : Path} {pattern : Pattern} {rest : List Pattern}
  {s : Segment} {name : String} {directoriesOnly : Bool} {directories : Spot → Prop}

theorem Leads.straight (h : Leads directory s path) (hdirectory : directory.Straight)
    (hs : s ≠ ['.', '.']) : path.Straight := by
  refine ⟨h.isAbsolute.trans hdirectory.absolute, ?_⟩
  rw [h.steps]
  intro hmem
  rcases List.mem_append.1 hmem with hfront | hlast
  · exact hdirectory.down hfront
  · have heq : ['.', '.'] = s := List.mem_singleton.1 (List.mem_of_mem_filter hlast)
    exact hs heq.symm

/-- Only a directory leads on to something. -/
theorem isDirectory?_of_leads (h : Leads directory s path) (htext : directory.text ≠ "")
    (hsome : (disk.isDirectory? path).isSome = true) : disk.isDirectory? directory = some true := by
  rcases Disk.isDirectory?_isSome_iff.1 hsome with ⟨-, hopens, hstands⟩
  have hway := h.way disk
  have hgoal := h.goal disk
  refine Disk.isDirectory?_eq_true_iff.2 ⟨htext, ?_, ?_⟩
  · intro spot hspot
    exact hopens spot (hway ▸ List.mem_append_left _ hspot)
  · cases hidle : isIdle s with
    | true =>
      have hsame : disk.goal path = disk.goal directory := by
        rw [hgoal, stepsOf_cons_idle hidle]
        rfl
      exact hsame ▸ (hstands s h.last).2 hidle
    | false =>
      apply hopens
      rw [hway, stepsOf_cons_step hidle]
      exact List.mem_append_right _ List.mem_cons_self

/-- What a row of patterns finds below a directory, as far as these are inputs. -/
def inputsBelow (disk : Disk) (directoriesOnly : Bool) (patterns : List Pattern) (directory : Path) :
    List Path :=
  (foundBelow disk directoriesOnly patterns directory).filter disk.holdsInput

/-- Where there is nothing, no input is found. -/
theorem inputsBelow_of_none (directoriesOnly : Bool) {patterns : List Pattern}
    (hpatterns : ∀ p ∈ patterns, p.Descends) (htext : directory.text ≠ "")
    (h : disk.isDirectory? directory = none) :
    inputsBelow disk directoriesOnly patterns directory = [] := by
  have hno : disk.isDirectory? directory ≠ some true := by simp [h]
  cases patterns with
  | nil =>
    have hinput : disk.holdsInput directory = false := by simp [Disk.holdsInput, h]
    rw [inputsBelow, foundBelow_nil]
    split
    · rfl
    · simp [hinput]
  | cons pattern rest =>
    have hpattern := hpatterns pattern List.mem_cons_self
    have hfound : foundBelow disk directoriesOnly (pattern :: rest) directory = [] := by
      cases hname : pattern.literal? with
      | none => exact foundBelow_nowhere hname hno
      | some s =>
        by_cases hdot : s = ['.']
        · rw [foundBelow_dots hname (.inl hdot), if_neg hno]
        · have hleads := leads_within (hpattern.plain hname) directory
          rw [foundBelow_literal hname hdot (hpattern.ne_dots hname), if_neg]
          exact fun hsome => hno (isDirectory?_of_leads hleads htext hsome)
    rw [inputsBelow, hfound]
    rfl

/-- A name that is looked up is followed, whether it is there or not. -/
theorem inputsBelow_literal (hpatterns : ∀ p ∈ pattern :: rest, p.Descends)
    (hdirectory : directory.Straight) (hname : pattern.literal? = some s) :
    inputsBelow disk directoriesOnly (pattern :: rest) directory =
      inputsBelow disk directoriesOnly rest (within directory (String.ofList s)) := by
  have hpattern := hpatterns pattern List.mem_cons_self
  have hrest : ∀ p ∈ rest, p.Descends := fun p hp => hpatterns p (List.mem_cons_of_mem pattern hp)
  have htext := (Disk.text_of_isAbsolute hdirectory.absolute).1
  have hleads := leads_within (hpattern.plain hname) directory
  have hnext := hleads.straight hdirectory (hpattern.ne_dots hname)
  have hnextText := (Disk.text_of_isAbsolute hnext.absolute).1
  by_cases hdot : s = ['.']
  · rw [inputsBelow, foundBelow_dots hname (.inl hdot)]
    split
    · rfl
    · next hno =>
      have hnothing : disk.isDirectory? (within directory (String.ofList s)) = none := by
        rw [← Option.not_isSome_iff_eq_none]
        exact fun hsome => hno (isDirectory?_of_leads hleads htext hsome)
      rw [inputsBelow_of_none _ hrest hnextText hnothing]
      rfl
  · rw [inputsBelow, foundBelow_literal hname hdot (hpattern.ne_dots hname)]
    split
    · rfl
    · next hno =>
      have hnothing := Option.not_isSome_iff_eq_none.1 hno
      rw [inputsBelow_of_none _ hrest hnextText hnothing]
      rfl

/-- Outside of directories nothing is listed or walked. -/
theorem list_walk_of_not_directory (h : disk.isDirectory? directory ≠ some true) :
    disk.list directory = [] ∧ disk.walk directory = [] := by
  rw [Disk.list, Disk.walk]
  rw [Disk.isDirectory?] at h
  cases hget : disk.get directory with
  | error fault => exact ⟨rfl, rfl⟩
  | ok entry =>
    cases entry with
    | file text => exact ⟨rfl, rfl⟩
    | directory entries => simp [hget, Entry.isDirectory] at h

theorem inputsBelow_list (hpatterns : ∀ p ∈ pattern :: rest, p.Descends)
    (hdirectory : directory.Straight) (hname : pattern.literal? = none)
    (hrecursive : pattern.isRecursive = false) :
    inputsBelow disk directoriesOnly (pattern :: rest) directory =
      (specialNames pattern).flatMap
          (fun name => inputsBelow disk directoriesOnly rest (directory.join name)) ++
        ((disk.list directory).map Branch.name).flatMap fun name =>
          if pattern.describes name
          then inputsBelow disk directoriesOnly rest (within directory name) else [] := by
  have hpattern := hpatterns pattern List.mem_cons_self
  have hrest : ∀ p ∈ rest, p.Descends := fun p hp => hpatterns p (List.mem_cons_of_mem pattern hp)
  by_cases hthere : disk.isDirectory? directory = some true
  · rw [inputsBelow, foundBelow_list hname hthere hrecursive, List.filter_append, List.filter_flatMap,
      List.filter_flatMap, List.flatMap_map]
    congr 1
    refine List.flatMap_congr ?_
    intro branch _
    split <;> rfl
  · have hspecial : (specialNames pattern).flatMap
        (fun name => inputsBelow disk directoriesOnly rest (directory.join name)) = [] := by
      rw [List.flatMap_eq_nil_iff]
      intro name hmem
      have hdot := hpattern.special hmem
      have hleads : Leads directory ['.'] (directory.join name) := by
        rw [hdot]
        exact leads_join (by decide) directory
      have hnext := hleads.straight hdirectory (by decide)
      have htext := (Disk.text_of_isAbsolute hdirectory.absolute).1
      apply inputsBelow_of_none _ hrest (Disk.text_of_isAbsolute hnext.absolute).1
      rw [← Option.not_isSome_iff_eq_none]
      exact fun hsome => hthere (isDirectory?_of_leads hleads htext hsome)
    rw [inputsBelow, foundBelow_nowhere hname hthere, hspecial,
      (list_walk_of_not_directory hthere).1]
    rfl

mutual

theorem filter_gather (keep : Path → Bool) (deep : Path → Branch → List Path) (directory : Path)
    (branches : List Branch) :
    (gather deep directory branches).filter keep =
      gather (fun path branch => (deep path branch).filter keep) directory branches := by
  match branches with
  | [] => rfl
  | branch :: rest =>
    rw [gather, gather, List.filter_append, filter_gatherOne keep deep directory branch,
      filter_gather keep deep directory rest]

theorem filter_gatherOne (keep : Path → Bool) (deep : Path → Branch → List Path) (directory : Path)
    (branch : Branch) :
    (gatherOne deep directory branch).filter keep =
      gatherOne (fun path branch => (deep path branch).filter keep) directory branch := by
  match branch with
  | .file name => rfl
  | .directory name inner =>
    rw [gatherOne, gatherOne, List.filter_append, filter_gather keep deep _ inner]

end

/-- What is found where a pattern stands for any directories, as far as these are inputs. -/
def inputsDeep (disk : Disk) (directoriesOnly : Bool) (rest : List Pattern) (path : Path)
    (branch : Branch) : List Path :=
  (foundDeep disk directoriesOnly rest path branch).filter disk.holdsInput

theorem inputsBelow_deep (hname : pattern.literal? = none) (hrecursive : pattern.isRecursive = true) :
    inputsBelow disk directoriesOnly (pattern :: rest) directory =
      gather (inputsDeep disk directoriesOnly rest) directory (disk.walk directory) := by
  by_cases hthere : disk.isDirectory? directory = some true
  · rw [inputsBelow, foundBelow_deep hname hthere hrecursive, filter_gather]
    rfl
  · rw [inputsBelow, foundBelow_nowhere hname hthere, (list_walk_of_not_directory hthere).2]
    rfl

/-! ## Going through a tree that has grown -/

theorem gather_eq_flatMap (deep : Path → Branch → List Path) (directory : Path)
    (branches : List Branch) :
    gather deep directory branches = branches.flatMap (gatherOne deep directory) := by
  induction branches with
  | nil => rfl
  | cons branch rest ih => rw [gather, List.flatMap_cons, ih]

theorem gatherOne_branch (deep : Path → Branch → List Path) (directory : Path) (name : String)
    (entry : Entry) :
    gatherOne deep directory (Entry.branch name entry) =
      deep (within directory name) (Entry.branch name entry) ++
        gather deep (within directory name) entry.descendants := by
  cases entry with
  | file text => exact (List.append_nil _).symm
  | directory entries => rfl

theorem gather_descendants {entry : Entry} (h : entry.WellFormed)
    (deep : Path → Branch → List Path) (directory : Path) :
    gather deep directory entry.descendants =
      entry.shown.flatMap fun name =>
        deep (within directory name) (Entry.branch name (entry.childOf name)) ++
          gather deep (within directory name) (entry.childOf name).descendants := by
  rw [gather_eq_flatMap, Entry.descendants_eq_map h, List.flatMap_map]
  refine List.flatMap_congr ?_
  intro name _
  exact gatherOne_branch deep directory name _

theorem leads_name (h : IsName name.toList) (directory : Path) :
    Leads directory name.toList (within directory name) := by
  have hleads := leads_within h.plain directory
  rwa [String.ofList_toList] at hleads

theorem goal_within (h : IsName name.toList) (directory : Path) (disk : Disk) :
    disk.goal (within directory name) = name :: disk.goal directory := by
  rw [(leads_name h directory).goal, h.stepsOf]
  simp [Spot.goal, Spot.step, h.down]

/-- The names that a directory shows lead straight on to what stands under them. -/
theorem leads_shown {entry : Entry} (hentry : entry.WellFormed) (hname : name ∈ entry.shown)
    (hdirectory : directory.Straight) (hspot : disk.entry? (before.goal directory) = some entry) :
    (within directory name).Straight ∧
      before.goal (within directory name) = name :: before.goal directory ∧
      disk.entry? (before.goal (within directory name)) = some (entry.childOf name) := by
  rcases Option.ne_none_iff_exists'.1 (Entry.mem_shown_iff.1 hname).2 with ⟨inner, hchild⟩
  have hisName := (hentry.child hchild).1
  have hgoal := goal_within hisName directory before
  refine ⟨(leads_name hisName directory).straight hdirectory hisName.down, hgoal, ?_⟩
  rw [hgoal, Disk.entry?_cons, hspot, Entry.childOf_of_child? hchild]
  exact hchild

/-- A directory goes on to show what it showed. -/
theorem shown_grown {old new : Entry} (hbefore : before.root.WellFormed)
    (hgrows : before.Grows Spot.Marked directories after) (hdirectory : directory.Straight)
    (hold : before.entry? (before.goal directory) = some old)
    (hspot : after.entry? (before.goal directory) = some new) : ∀ name ∈ old.shown, name ∈ new.shown := by
  intro name hname
  rcases leads_shown (hbefore.find hold) hname hdirectory hold with ⟨-, hgoal, hbelow⟩
  have hpresent : after.face? (name :: before.goal directory) ≠ none := by
    apply hgrows.face?_ne_none
    rw [← hgoal, Disk.face?, hbelow]
    simp
  rw [Disk.face?, Disk.entry?_cons, hspot] at hpresent
  refine Entry.mem_shown_iff.2 ⟨(Entry.mem_shown_iff.1 hname).1, ?_⟩
  intro hnone
  have hchild : (some new).bind (·.child? name) = none := hnone
  rw [hchild] at hpresent
  exact hpresent rfl

/-- Under a name that a directory could show but does not there is nothing. -/
theorem face?_of_not_shown {entry : Entry} {spot : Spot} (hspot : disk.entry? spot = some entry)
    (hvisible : Entry.isHidden name = false) (hnot : name ∉ entry.shown) :
    disk.face? (name :: spot) = none := by
  rw [Disk.face?, Disk.entry?_cons, hspot]
  by_contra hsome
  refine hnot (Entry.mem_shown_iff.2 ⟨hvisible, ?_⟩)
  intro hchild
  have hbind : (some entry).bind (·.child? name) = none := hchild
  exact hsome (by rw [hbind]; rfl)

section

variable {deepBefore deepAfter : Path → Branch → List Path}

/-- Nothing is gathered below what was no directory. -/
theorem gather_new (hafter : after.root.WellFormed)
    (hnew : ∀ path name entry, path.Straight → before.face? (before.goal path) = none →
      after.entry? (before.goal path) = some entry → deepAfter path (Entry.branch name entry) = [])
    (entry : Entry) :
    ∀ {directory : Path}, directory.Straight →
      after.entry? (before.goal directory) = some entry →
      before.face? (before.goal directory) ≠ some .directory →
      gather deepAfter directory entry.descendants = [] := by
  induction entry using Entry.induct with
  | step entry ih =>
    intro directory hdirectory hspot hmissing
    have hentry : entry.WellFormed := hafter.find hspot
    rw [gather_descendants hentry, List.flatMap_eq_nil_iff]
    intro name hname
    rcases leads_shown hentry hname hdirectory hspot with ⟨hstraight, hgoal, hbelow⟩
    rcases Option.ne_none_iff_exists'.1 (Entry.mem_shown_iff.1 hname).2 with ⟨inner, hchild⟩
    have hnone : before.face? (before.goal (within directory name)) = none := by
      rw [hgoal]
      by_contra hsome
      exact hmissing (Disk.face?_tail hsome)
    have hchildOf := Entry.childOf_of_child? hchild
    rw [hchildOf] at hbelow ⊢
    have hhere := hnew (within directory name) name inner hstraight hnone hbelow
    have hdeeper := ih name inner hchild hstraight hbelow (by simp [hnone])
    rw [hhere, hdeeper]
    rfl

/-- What is gathered in a tree stays the same when it grows, if nothing is gathered at what is new. -/
theorem gather_grown (hbefore : before.root.WellFormed) (hafter : after.root.WellFormed)
    (hgrows : before.Grows Spot.Marked directories after)
    (hsame : ∀ path name old new, path.Straight → before.entry? (before.goal path) = some old →
      after.entry? (before.goal path) = some new →
      deepAfter path (Entry.branch name new) = deepBefore path (Entry.branch name old))
    (hnew : ∀ path name entry, path.Straight → before.face? (before.goal path) = none →
      after.entry? (before.goal path) = some entry → deepAfter path (Entry.branch name entry) = [])
    (new : Entry) :
    ∀ {directory : Path} {old : Entry}, directory.Straight →
      before.entry? (before.goal directory) = some old →
      after.entry? (before.goal directory) = some new →
      gather deepAfter directory new.descendants = gather deepBefore directory old.descendants := by
  induction new using Entry.induct with
  | step new ih =>
    intro directory old hdirectory hold hspot
    have hnewEntry : new.WellFormed := hafter.find hspot
    have holdEntry : old.WellFormed := hbefore.find hold
    have hshown := shown_grown hbefore hgrows hdirectory hold hspot
    rw [gather_descendants hnewEntry, gather_descendants holdEntry,
      flatMap_eq_of_subset (Entry.shown_pairwise holdEntry) (Entry.shown_pairwise hnewEntry) hshown]
    · -- What was there before is followed on both disks.
      refine List.flatMap_congr ?_
      intro name hname
      rcases leads_shown holdEntry hname hdirectory hold with ⟨hstraight, -, holdBelow⟩
      rcases leads_shown hnewEntry (hshown name hname) hdirectory hspot with ⟨-, -, hnewBelow⟩
      rcases Option.ne_none_iff_exists'.1 (Entry.mem_shown_iff.1 (hshown name hname)).2 with
        ⟨inner, hchild⟩
      have hchildOf := Entry.childOf_of_child? hchild
      rw [hchildOf] at hnewBelow ⊢
      rw [hsame _ name _ _ hstraight holdBelow hnewBelow,
        ih name inner hchild hstraight holdBelow hnewBelow]
    · intro name hname hmissing
      rcases leads_shown hnewEntry hname hdirectory hspot with ⟨hstraight, hgoal, hbelow⟩
      have hnone : before.face? (before.goal (within directory name)) = none := by
        rw [hgoal]
        exact face?_of_not_shown hold (Entry.mem_shown_iff.1 hname).1 hmissing
      have hhere := hnew _ name _ hstraight hnone hbelow
      have hdeeper := gather_new hafter hnew (new.childOf name) hstraight hbelow (by simp [hnone])
      rw [hhere, hdeeper]
      rfl

end

/-! ## The same inputs -/

/-- A pattern that only stands for directories finds no input. -/
theorem inputsDeep_nil {entry : Entry} (hstraight : path.Straight)
    (hspot : disk.entry? (disk.goal path) = some entry) :
    inputsDeep disk directoriesOnly [] path (Entry.branch name entry) = [] := by
  cases entry with
  | file text => rfl
  | directory entries =>
    have hface : disk.face? (disk.goal path) = some .directory := by
      rw [Disk.face?, hspot]
      rfl
    have hdirectory := (Disk.isDirectory?_eq_true_iff_of_straight hstraight).2 hface
    have hinput : disk.holdsInput path = false := by simp [Disk.holdsInput, hdirectory]
    simp [inputsDeep, foundDeep, Entry.branch, Branch.isDirectory, hinput]

theorem inputsDeep_cons {next : Pattern} {entry : Entry} :
    inputsDeep disk directoriesOnly (next :: rest) path (Entry.branch name entry) =
      if next.describes name then inputsBelow disk directoriesOnly rest path else [] := by
  rw [inputsDeep, foundDeep, Entry.name_branch]
  split <;> rfl

theorem list_names (hdisk : disk.root.WellFormed) (hthere : disk.isDirectory? directory = some true) :
    ∃ entry, disk.entry? (disk.goal directory) = some entry ∧ entry.WellFormed ∧
      (disk.list directory).map Branch.name = entry.shown ∧
      disk.walk directory = entry.descendants := by
  cases hget : disk.get directory with
  | error fault => simp [Disk.isDirectory?, hget] at hthere
  | ok entry =>
    have hspot := (Disk.get_eq_ok_iff.1 hget).2
    have hentry : entry.WellFormed := hdisk.find hspot
    refine ⟨entry, hspot, hentry, ?_, by simp [Disk.walk, hget]⟩
    have hlist : disk.list directory = entry.contents := by simp [Disk.list, hget]
    rw [hlist, Entry.contents_eq_map hentry, List.map_map]
    have hnames : (Branch.name ∘ fun name => Entry.stub name (entry.childOf name)) = id := by
      funext name
      exact Entry.name_stub name _
    rw [hnames, List.map_id]

/-- A directory goes on to show what it showed; what is new there was nothing before. -/
theorem list_grown (hbefore : before.root.WellFormed) (hafter : after.root.WellFormed)
    (hgrows : before.Grows Spot.Marked directories after) (hdirectory : directory.Straight)
    (f g : String → List Path) (hsame : ∀ name : String, IsName name.toList → f name = g name)
    (hnew : ∀ name, before.face? (name :: before.goal directory) = none → IsName name.toList →
      f name = []) :
    ((after.list directory).map Branch.name).flatMap f =
      ((before.list directory).map Branch.name).flatMap g := by
  by_cases hthere : after.isDirectory? directory = some true
  · rcases list_names hafter hthere with ⟨new, hspot, hnewEntry, hnewNames, -⟩
    rw [hgrows.goal] at hspot
    have hmissing : ∀ name ∈ new.shown, before.face? (name :: before.goal directory) = none →
        f name = [] := by
      intro name hname hnone
      rcases Option.ne_none_iff_exists'.1 (Entry.mem_shown_iff.1 hname).2 with ⟨inner, hchild⟩
      exact hnew name hnone (hnewEntry.child hchild).1
    by_cases hold : before.isDirectory? directory = some true
    · rcases list_names hbefore hold with ⟨old, holdSpot, holdEntry, holdNames, -⟩
      have hshown := shown_grown hbefore hgrows hdirectory holdSpot hspot
      have hsubset := flatMap_eq_of_subset (Entry.shown_pairwise holdEntry)
        (Entry.shown_pairwise hnewEntry) hshown f fun name hname hnot =>
          hmissing name hname (face?_of_not_shown holdSpot (Entry.mem_shown_iff.1 hname).1 hnot)
      rw [hnewNames, holdNames, hsubset]
      refine List.flatMap_congr ?_
      intro name hname
      rcases Option.ne_none_iff_exists'.1 (Entry.mem_shown_iff.1 hname).2 with ⟨inner, hchild⟩
      exact hsame name (holdEntry.child hchild).1
    · have hface : before.face? (before.goal directory) ≠ some .directory :=
        fun hface => hold ((Disk.isDirectory?_eq_true_iff_of_straight hdirectory).2 hface)
      rw [hnewNames, (list_walk_of_not_directory hold).1, List.map_nil, List.flatMap_nil,
        List.flatMap_eq_nil_iff]
      intro name hname
      refine hmissing name hname ?_
      by_contra hsome
      exact hface (Disk.face?_tail hsome)
  · have hold : before.isDirectory? directory ≠ some true := fun hold => hthere (hgrows.isDirectory? hold)
    rw [(list_walk_of_not_directory hthere).1, (list_walk_of_not_directory hold).1]
    rfl

/-- What is gathered in all that is below a directory stays the same if nothing is gathered at what is new. -/
theorem walk_grown {deepBefore deepAfter : Path → Branch → List Path}
    (hbefore : before.root.WellFormed) (hafter : after.root.WellFormed)
    (hgrows : before.Grows Spot.Marked directories after) (hdirectory : directory.Straight)
    (hsame : ∀ path name old new, path.Straight → before.entry? (before.goal path) = some old →
      after.entry? (before.goal path) = some new →
      deepAfter path (Entry.branch name new) = deepBefore path (Entry.branch name old))
    (hnew : ∀ path name entry, path.Straight → before.face? (before.goal path) = none →
      after.entry? (before.goal path) = some entry → deepAfter path (Entry.branch name entry) = []) :
    gather deepAfter directory (after.walk directory) =
      gather deepBefore directory (before.walk directory) := by
  by_cases hthere : after.isDirectory? directory = some true
  · rcases list_names hafter hthere with ⟨new, hspot, -, -, hnewWalk⟩
    rw [hgrows.goal] at hspot
    by_cases hold : before.isDirectory? directory = some true
    · rcases list_names hbefore hold with ⟨old, holdSpot, -, -, holdWalk⟩
      rw [hnewWalk, holdWalk]
      exact gather_grown hbefore hafter hgrows hsame hnew new hdirectory holdSpot hspot
    · have hface : before.face? (before.goal directory) ≠ some .directory :=
        fun hface => hold ((Disk.isDirectory?_eq_true_iff_of_straight hdirectory).2 hface)
      rw [hnewWalk, (list_walk_of_not_directory hold).2, gather]
      exact gather_new hafter hnew new hdirectory hspot hface
  · have hold : before.isDirectory? directory ≠ some true := fun hold => hthere (hgrows.isDirectory? hold)
    rw [(list_walk_of_not_directory hthere).2, (list_walk_of_not_directory hold).2]
    rfl

section

variable {deeper : List Pattern}

/-- Where there was nothing, no input was found. -/
theorem inputsBelow_of_missing (hpatterns : ∀ p ∈ deeper, p.Descends) (hstraight : path.Straight)
    (hnone : before.face? (before.goal path) = none) :
    inputsBelow before directoriesOnly deeper path = [] :=
  inputsBelow_of_none directoriesOnly hpatterns (Disk.text_of_isAbsolute hstraight.absolute).1
    (Disk.isDirectory?_eq_none hnone)

/-- What is a directory is no input. -/
theorem inputsBelow_directories (disk : Disk) (directory : Path) :
    inputsBelow disk true [] directory = [] := by
  rw [inputsBelow, foundBelow_nil]
  split
  · rfl
  · next hthere =>
    have hdirectory : disk.isDirectory? directory = some true := by simpa using hthere
    simp [Disk.holdsInput, hdirectory]

theorem inputsBelow_nil_grown (hgrows : before.Grows Spot.Marked directories after)
    (hdirectory : directory.Straight) :
    inputsBelow after directoriesOnly [] directory = inputsBelow before directoriesOnly [] directory := by
  cases directoriesOnly with
  | false =>
    have hinput := Disk.holdsInput_grown hgrows hdirectory
    simp [inputsBelow, foundBelow_nil, List.filter_cons, hinput]
  | true => rw [inputsBelow_directories, inputsBelow_directories]

theorem inputsBelow_list_grown (hbefore : before.root.WellFormed) (hafter : after.root.WellFormed)
    (hgrows : before.Grows Spot.Marked directories after)
    (hpatterns : ∀ p ∈ pattern :: rest, p.Descends) (hdirectory : directory.Straight)
    (hname : pattern.literal? = none) (hrecursive : pattern.isRecursive = false)
    (hnext : ∀ path : Path, path.Straight →
      inputsBelow after directoriesOnly rest path = inputsBelow before directoriesOnly rest path) :
    inputsBelow after directoriesOnly (pattern :: rest) directory =
      inputsBelow before directoriesOnly (pattern :: rest) directory := by
  have hpattern := hpatterns pattern List.mem_cons_self
  have hrest : ∀ p ∈ rest, p.Descends := fun p hp => hpatterns p (List.mem_cons_of_mem pattern hp)
  rw [inputsBelow_list hpatterns hdirectory hname hrecursive,
    inputsBelow_list hpatterns hdirectory hname hrecursive]
  have hspecial : ∀ name ∈ specialNames pattern,
      inputsBelow after directoriesOnly rest (directory.join name) =
        inputsBelow before directoriesOnly rest (directory.join name) := by
    intro name hmem
    have hleads : Leads directory ['.'] (directory.join name) := by
      rw [hpattern.special hmem]
      exact leads_join (by decide) directory
    exact hnext _ (hleads.straight hdirectory (by decide))
  rw [List.flatMap_congr hspecial]
  congr 1
  apply list_grown hbefore hafter hgrows hdirectory
  · intro name hisName
    have hstraight := (leads_name hisName directory).straight hdirectory hisName.down
    rw [hnext _ hstraight]
  · intro name hnone hisName
    have hstraight := (leads_name hisName directory).straight hdirectory hisName.down
    rw [← goal_within hisName directory before] at hnone
    rw [hnext _ hstraight, inputsBelow_of_missing hrest hstraight hnone]
    split <;> rfl

theorem inputsBelow_deep_nil_grown (hbefore : before.root.WellFormed) (hafter : after.root.WellFormed)
    (hgrows : before.Grows Spot.Marked directories after) (hdirectory : directory.Straight)
    (hname : pattern.literal? = none) (hrecursive : pattern.isRecursive = true) :
    inputsBelow after directoriesOnly [pattern] directory =
      inputsBelow before directoriesOnly [pattern] directory := by
  rw [inputsBelow_deep hname hrecursive, inputsBelow_deep hname hrecursive]
  refine walk_grown hbefore hafter hgrows hdirectory ?_ ?_
  · intro path name old new hstraight hold hspot
    rw [inputsDeep_nil hstraight hold]
    rw [← hgrows.goal] at hspot
    exact inputsDeep_nil hstraight hspot
  · intro path name entry hstraight _ hspot
    rw [← hgrows.goal] at hspot
    exact inputsDeep_nil hstraight hspot

theorem inputsBelow_deep_cons_grown (hbefore : before.root.WellFormed) (hafter : after.root.WellFormed)
    (hgrows : before.Grows Spot.Marked directories after) {next : Pattern}
    (hdeeper : ∀ p ∈ deeper, p.Descends) (hdirectory : directory.Straight)
    (hname : pattern.literal? = none) (hrecursive : pattern.isRecursive = true)
    (hbelow : ∀ path : Path, path.Straight →
      inputsBelow after directoriesOnly deeper path = inputsBelow before directoriesOnly deeper path) :
    inputsBelow after directoriesOnly (pattern :: next :: deeper) directory =
      inputsBelow before directoriesOnly (pattern :: next :: deeper) directory := by
  rw [inputsBelow_deep hname hrecursive, inputsBelow_deep hname hrecursive]
  refine walk_grown hbefore hafter hgrows hdirectory ?_ ?_
  · intro path name old new hstraight _ _
    rw [inputsDeep_cons, inputsDeep_cons, hbelow path hstraight]
  · intro path name entry hstraight hnone _
    rw [inputsDeep_cons, hbelow path hstraight, inputsBelow_of_missing hdeeper hstraight hnone]
    split <;> rfl

end

/-- Searches that never go up find the same inputs on a disk that has grown. -/
theorem inputsBelow_grown (hbefore : before.root.WellFormed) (hafter : after.root.WellFormed)
    (hgrows : before.Grows Spot.Marked directories after) (directoriesOnly : Bool)
    (patterns : List Pattern) (hpatterns : ∀ p ∈ patterns, p.Descends) (directory : Path)
    (hdirectory : directory.Straight) :
    inputsBelow after directoriesOnly patterns directory =
      inputsBelow before directoriesOnly patterns directory := by
  cases patterns with
  | nil => exact inputsBelow_nil_grown hgrows hdirectory
  | cons pattern rest =>
    have hpattern := hpatterns pattern List.mem_cons_self
    have hrest : ∀ p ∈ rest, p.Descends := fun p hp => hpatterns p (List.mem_cons_of_mem pattern hp)
    have hnext := inputsBelow_grown hbefore hafter hgrows directoriesOnly rest hrest
    cases hname : pattern.literal? with
    | some s =>
      have hleads := leads_within (hpattern.plain hname) directory
      have hstraight := hleads.straight hdirectory (hpattern.ne_dots hname)
      rw [inputsBelow_literal hpatterns hdirectory hname, inputsBelow_literal hpatterns hdirectory hname]
      exact hnext _ hstraight
    | none =>
      cases hrecursive : pattern.isRecursive with
      | false =>
        exact inputsBelow_list_grown hbefore hafter hgrows hpatterns hdirectory hname hrecursive hnext
      | true =>
        -- A pattern for any depth looks for what comes after the next pattern.
        cases rest with
        | nil => exact inputsBelow_deep_nil_grown hbefore hafter hgrows hdirectory hname hrecursive
        | cons next deeper =>
          have hdeeper : ∀ p ∈ deeper, p.Descends := fun p hp => hrest p (List.mem_cons_of_mem next hp)
          have hbelow := inputsBelow_grown hbefore hafter hgrows directoriesOnly deeper hdeeper
          exact inputsBelow_deep_cons_grown hbefore hafter hgrows hdeeper hdirectory hname hrecursive hbelow
termination_by patterns.length

end Search

end PipelineTree
