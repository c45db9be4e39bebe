import PipelineTree.Proofs.Files.Face

/-!
# Answers — what a disk says about a path, and what changes it

Whether a path names a directory or a file, and what is read from it, follows from the faces on its way and
at its end.  A file is written, and a directory made, only where the way of the path consists of
directories, and then one face is new and all others are as before.
-/

namespace PipelineTree

/-! ## Paths that end in a name -/

namespace Path

/-- The last segment of a path is a step. -/
def EndsInStep (path : Path) : Prop := ∀ s ∈ path.segments.getLast?, isIdle s = false

/-- The last segment of a path is a name. -/
structure EndsIn (path : Path) (name : String) : Prop where
  last : path.segments.getLast? = some name.toList
  isName : IsName name.toList

variable {path : Path} {name : String}

theorem endsIn_join (directory : Path) (h : IsName name.toList) : (directory.join name).EndsIn name := by
  refine ⟨?_, h⟩
  rw [getLast?_segments_join directory (head?_ne_slash h.plain), h.splitSegments]
  rfl

/-- The output of an input ends in a marked name. -/
theorem output_endsIn (input : Path) {extension : String} (directory : Option Path)
    (h : '/' ∉ extension.toList) :
    (input.output extension directory).EndsIn (input.outputName extension) := by
  rw [output_eq_join]
  exact endsIn_join _ (isName_outputName h)

theorem EndsIn.endsInStep (h : path.EndsIn name) : path.EndsInStep := by
  intro s hs
  have hname : name.toList = s := Option.some.inj (h.last.symm.trans hs)
  exact hname ▸ h.isName.counts

theorem EndsIn.steps (h : path.EndsIn name) :
    ∃ front, path.segments = front ++ [name.toList] ∧
      path.steps = stepsOf front ++ [name.toList] := by
  rcases List.getLast?_eq_some_iff.1 h.last with ⟨front, hfront⟩
  refine ⟨front, hfront, ?_⟩
  rw [Path.steps, hfront, stepsOf_append, h.isName.stepsOf]

theorem EndsIn.text_ne_empty (h : path.EndsIn name) : path.text ≠ "" := by
  intro hempty
  have hlast : path.segments.getLast? = some [] := by simp [segments, hempty, splitSegments]
  have hidle := h.endsInStep [] hlast
  exact absurd hidle (by decide)

theorem suffix_joinSegments (front : List Segment) (s : Segment) :
    s <:+ joinSegments (front ++ [s]) := by
  induction front with
  | nil => exact List.suffix_refl s
  | cons t ts ih =>
    have hcons : joinSegments (t :: ts ++ [s]) = t ++ '/' :: joinSegments (ts ++ [s]) := by
      cases ts <;> rfl
    rw [hcons]
    exact ih.trans ((List.suffix_cons '/' _).trans (List.suffix_append t _))

/-- A name is not empty and holds no separator, so the path does not end in one. -/
theorem EndsIn.withoutEnding (h : path.EndsIn name) : Disk.withoutEnding path = path := by
  rcases h.steps with ⟨front, hfront, -⟩
  have hsuffix : name.toList <:+ path.text.toList := by
    have hjoin := suffix_joinSegments front name.toList
    rwa [← hfront, segments, joinSegments_splitSegments] at hjoin
  rcases hsuffix with ⟨pre, hpre⟩
  have hdrop : path.text.toList.reverse.dropWhile (· == '/') = path.text.toList.reverse := by
    cases hname : name.toList.reverse with
    | nil =>
      have hempty : name.toList = [] := List.reverse_eq_nil_iff.1 hname
      have hidle := h.isName.counts
      rw [hempty] at hidle
      exact absurd hidle (by decide)
    | cons c cs =>
      have hc : c ≠ '/' := by
        intro heq
        have hmem : c ∈ name.toList := List.mem_reverse.1 (by simp [hname])
        exact h.isName.plain (heq ▸ hmem)
      rw [← hpre, List.reverse_append, hname]
      simp [hc]
  rw [Disk.withoutEnding, hdrop, List.reverse_reverse, String.ofList_toList]

theorem endsInName_iff : Disk.endsInName path = true ↔ ∃ name, path.EndsIn name := by
  rw [Disk.endsInName]
  cases hlast : path.segments.getLast? with
  | none =>
    simp only [Bool.false_eq_true, false_iff, not_exists]
    intro name h
    simp [h.last] at hlast
  | some s =>
    constructor
    · intro hs
      have hparts : isIdle s = false ∧ s ≠ ['.', '.'] := by simpa using hs
      have hplain : '/' ∉ s := slash_not_mem_of_mem_splitSegments (List.mem_of_getLast? hlast)
      refine ⟨String.ofList s, ?_, ?_⟩
      · simpa using hlast
      · simpa using IsName.mk hplain hparts.1 hparts.2
    · rintro ⟨name, h⟩
      have hs : s = name.toList := Option.some.inj (hlast.symm.trans h.last)
      simp [hs, h.isName.counts, h.isName.down]

/-- Separators at the end of a path are no steps. -/
theorem stepsOf_splitSegments_append_slashes (cs : List Char) (count : Nat) :
    stepsOf (splitSegments (cs ++ List.replicate count '/')) = stepsOf (splitSegments cs) := by
  induction count with
  | zero => simp
  | succ count ih =>
    have hmore : cs ++ List.replicate (count + 1) '/' =
        (cs ++ List.replicate count '/') ++ '/' :: [] := by
      rw [List.replicate_succ', List.append_assoc]
    rw [hmore, splitSegments_append_slash, stepsOf_append, ih]
    simp [splitSegments, stepsOf, isIdle]

theorem exists_slashes_withoutEnding (path : Path) :
    ∃ count, path.text.toList =
      (Disk.withoutEnding path).text.toList ++ List.replicate count '/' := by
  refine ⟨(path.text.toList.reverse.takeWhile (· == '/')).length, ?_⟩
  have hslashes : path.text.toList.reverse.takeWhile (· == '/') =
      List.replicate (path.text.toList.reverse.takeWhile (· == '/')).length '/' := by
    rw [List.eq_replicate_iff]
    refine ⟨rfl, ?_⟩
    intro c hc
    simpa using List.all_eq_true.1 List.all_takeWhile c hc
  have hsplit := List.takeWhile_append_dropWhile (p := (· == '/')) (l := path.text.toList.reverse)
  have hreverse := congrArg List.reverse hsplit
  rw [List.reverse_append, List.reverse_reverse, hslashes, List.reverse_replicate] at hreverse
  simpa [Disk.withoutEnding] using hreverse.symm

/-- The separators at the end make no difference to where a path leads. -/
theorem steps_withoutEnding (path : Path) : (Disk.withoutEnding path).steps = path.steps := by
  rcases exists_slashes_withoutEnding path with ⟨count, htext⟩
  rw [steps, steps, segments, segments, htext, stepsOf_splitSegments_append_slashes]

theorem isAbsolute_withoutEnding (h : (Disk.withoutEnding path).text ≠ "") :
    (Disk.withoutEnding path).isAbsolute = path.isAbsolute := by
  rcases exists_slashes_withoutEnding path with ⟨count, htext⟩
  have hne : (Disk.withoutEnding path).text.toList ≠ [] := by simpa using h
  rw [isAbsolute, isAbsolute, htext, List.head?_append_of_ne_nil _ hne]

end Path

namespace Disk

variable {disk after : Disk} {path : Path} {name : String} {spot : Spot} {text : Option String}

/-! ## Answers -/

theorem resolve_eq_ok_iff :
    disk.resolve path = .ok spot ↔ path.text ≠ "" ∧ spot = disk.goal path ∧ disk.Opens path ∧
      disk.Stands path.segments spot := by
  by_cases hempty : path.text = ""
  · simp [resolve, hempty]
  · have hresolve : disk.resolve path = disk.follow (disk.startOf path) path.segments := by
      simp [resolve, hempty]
    rw [hresolve, follow_eq_ok_iff]
    simp [hempty, goal, Opens, way, Path.steps]

theorem get_eq_ok_iff {entry : Entry} :
    disk.get path = .ok entry ↔
      disk.resolve path = .ok (disk.goal path) ∧ disk.entry? (disk.goal path) = some entry := by
  rw [get]
  cases hresolve : disk.resolve path with
  | error fault => simp [bind, Except.bind]
  | ok spot =>
    have hspot : spot = disk.goal path := (resolve_eq_ok_iff.1 hresolve).2.1
    simp only [bind, Except.bind, hspot, true_and]
    cases disk.entry? (disk.goal path) <;> simp

theorem isDirectory?_eq_true_iff :
    disk.isDirectory? path = some true ↔
      path.text ≠ "" ∧ disk.Opens path ∧ disk.face? (disk.goal path) = some .directory := by
  constructor
  · intro h
    rw [isDirectory?] at h
    cases hget : disk.get path with
    | error fault => simp [hget] at h
    | ok entry =>
      rcases get_eq_ok_iff.1 hget with ⟨hresolve, hentry⟩
      rcases resolve_eq_ok_iff.1 hresolve with ⟨htext, -, hopens, -⟩
      refine ⟨htext, hopens, ?_⟩
      cases entry with
      | file text => simp [hget, Entry.isDirectory] at h
      | directory entries => exact face?_eq_directory_iff.2 ⟨entries, hentry⟩
  · rintro ⟨htext, hopens, hface⟩
    rcases face?_eq_directory_iff.1 hface with ⟨entries, hentry⟩
    have hstands : disk.Stands path.segments (disk.goal path) :=
      fun s _ => ⟨by rw [hface]; simp, fun _ => hface⟩
    have hget : disk.get path = .ok (.directory entries) :=
      get_eq_ok_iff.2 ⟨resolve_eq_ok_iff.2 ⟨htext, rfl, hopens, hstands⟩, hentry⟩
    simp [isDirectory?, hget, Entry.isDirectory]

theorem isDirectory?_isSome_iff :
    (disk.isDirectory? path).isSome = true ↔
      path.text ≠ "" ∧ disk.Opens path ∧ disk.Stands path.segments (disk.goal path) := by
  have hresolve : disk.resolve path = .ok (disk.goal path) ↔
      path.text ≠ "" ∧ disk.Opens path ∧ disk.Stands path.segments (disk.goal path) := by
    rw [resolve_eq_ok_iff]
    simp
  rw [← hresolve, isDirectory?]
  constructor
  · intro h
    cases hget : disk.get path with
    | error fault => simp [hget] at h
    | ok entry => exact (get_eq_ok_iff.1 hget).1
  · intro h
    -- A path has a last segment, so that something stands where it leads to.
    have hsome := List.getLast?_isSome.2 (Path.splitSegments_ne_nil path.text.toList)
    rcases Option.isSome_iff_exists.1 hsome with ⟨s, hs⟩
    have hface : disk.face? (disk.goal path) ≠ none := ((hresolve.1 h).2.2 s hs).1
    cases hentry : disk.entry? (disk.goal path) with
    | none => exact absurd (by rw [face?, hentry]; rfl) hface
    | some entry =>
      rw [get_eq_ok_iff.2 ⟨h, hentry⟩]
      rfl

theorem face?_eq_file_iff : disk.face? spot = some (.file text) ↔ disk.entry? spot = some (.file text) := by
  rw [face?]
  cases disk.entry? spot with
  | none => simp
  | some entry => cases entry <;> simp [Entry.face]

/-- A path names a file if a file stands where it leads and nothing follows its last step. -/
def NamesFile (disk : Disk) (path : Path) (text : Option String) : Prop :=
  path.text ≠ "" ∧ disk.Opens path ∧ disk.face? (disk.goal path) = some (.file text) ∧
    path.EndsInStep

theorem get_eq_ok_file_iff : disk.get path = .ok (.file text) ↔ disk.NamesFile path text := by
  rw [get_eq_ok_iff, ← face?_eq_file_iff]
  constructor
  · rintro ⟨hresolve, hface⟩
    rcases resolve_eq_ok_iff.1 hresolve with ⟨htext, -, hopens, hstands⟩
    refine ⟨htext, hopens, hface, ?_⟩
    intro s hs
    rw [Bool.eq_false_iff]
    intro hidle
    simpa [hface] using (hstands s hs).2 hidle
  · rintro ⟨htext, hopens, hface, hends⟩
    refine ⟨resolve_eq_ok_iff.2 ⟨htext, rfl, hopens, ?_⟩, hface⟩
    intro s hs
    exact ⟨by rw [hface]; simp, fun hidle => by simp [hends s hs] at hidle⟩

theorem isDirectory?_eq_false_iff :
    disk.isDirectory? path = some false ↔ ∃ text, disk.NamesFile path text := by
  simp only [← get_eq_ok_file_iff]
  rw [isDirectory?]
  cases hget : disk.get path with
  | error fault => simp
  | ok entry => cases entry <;> simp [Entry.isDirectory]

theorem NamesFile.resolve (h : disk.NamesFile path text) : disk.resolve path = .ok (disk.goal path) :=
  (get_eq_ok_iff.1 (get_eq_ok_file_iff.2 h)).1

theorem NamesFile.read (h : disk.NamesFile path text) :
    disk.read path = text.elim (.error .notText) .ok := by
  rw [Disk.read, get_eq_ok_file_iff.2 h]
  cases text <;> rfl

/-- A directory cannot be read. -/
theorem read_of_directory (h : disk.isDirectory? path = some true) :
    disk.read path = .error .isDirectory := by
  rw [isDirectory?] at h
  rw [Disk.read]
  cases hget : disk.get path with
  | error fault => simp [hget] at h
  | ok entry =>
    cases entry with
    | file text => simp [hget, Entry.isDirectory] at h
    | directory entries => rfl

/-- Going up leads to a directory, so that a path to a file ends in a name. -/
theorem NamesFile.endsIn (h : disk.NamesFile path text) : ∃ name, path.EndsIn name := by
  rcases h with ⟨-, hopens, hface, hends⟩
  have hsome := List.getLast?_isSome.2 (Path.splitSegments_ne_nil path.text.toList)
  rcases Option.isSome_iff_exists.1 hsome with ⟨s, hs⟩
  have hlast : path.segments.getLast? = some s := hs
  have hcounts := hends s hlast
  have hdown : s ≠ ['.', '.'] := by
    intro hup
    rcases List.getLast?_eq_some_iff.1 hlast with ⟨front, hfront⟩
    have hsteps : path.steps = Path.stepsOf front ++ [s] := by
      rw [Path.steps, hfront, Path.stepsOf_append, Path.stepsOf_cons_step hcounts, Path.stepsOf_nil]
    let before : Spot := (disk.startOf path).goal (Path.stepsOf front)
    have hgoal : disk.goal path = before.drop 1 := by
      rw [goal, hsteps, Spot.goal_append, hup]
      rfl
    have hway : before ∈ disk.way path := by
      rw [way, hsteps, Spot.way_append]
      exact List.mem_append_right _ List.mem_cons_self
    have hdirectory := face?_drop (hopens before hway)
    rw [← hgoal, hface] at hdirectory
    exact absurd hdirectory (by simp)
  have hplain : '/' ∉ s := Path.slash_not_mem_of_mem_splitSegments (List.mem_of_getLast? hs)
  have hname : (String.ofList s).toList = s := String.toList_ofList
  refine ⟨String.ofList s, ?_, ?_⟩
  · rw [hname, hlast]
  · rw [hname]
    exact ⟨hplain, hcounts, hdown⟩

/-- What was opened stays open on a disk with the same faces on the way. -/
theorem Opens.of_faces (hopens : disk.Opens path) (hlocation : after.location = disk.location)
    (hfaces : ∀ spot, disk.face? spot = some .directory → after.face? spot = some .directory) :
    after.Opens path := by
  intro spot hspot
  have hway : after.way path = disk.way path := by simp [way, startOf, hlocation]
  exact hfaces spot (hopens spot (hway ▸ hspot))

/-- A path to nothing is answered by nothing. -/
theorem isDirectory?_eq_none (h : disk.face? (disk.goal path) = none) : disk.isDirectory? path = none := by
  rw [← Option.not_isSome_iff_eq_none, isDirectory?_isSome_iff]
  rintro ⟨-, -, hstands⟩
  have hsome := List.getLast?_isSome.2 (Path.splitSegments_ne_nil path.text.toList)
  rcases Option.isSome_iff_exists.1 hsome with ⟨s, hs⟩
  exact (hstands s hs).1 h

/-- What is asked about a path, and what is read there, depends on what stands on its way and at its end. -/
theorem answers_congr (hends : path.EndsIn name) (hopens : disk.Opens path) (hafter : after.Opens path)
    (hface : after.face? (after.goal path) = disk.face? (disk.goal path)) :
    after.isDirectory? path = disk.isDirectory? path ∧
      (disk.face? (disk.goal path) ≠ none → after.read path = disk.read path) := by
  have htext := hends.text_ne_empty
  cases hdisk : disk.face? (disk.goal path) with
  | none =>
    have hnone := isDirectory?_eq_none hdisk
    have hnoneAfter := isDirectory?_eq_none (hface.trans hdisk)
    exact ⟨by rw [hnone, hnoneAfter], fun hsome => absurd rfl hsome⟩
  | some face =>
    rw [hdisk] at hface
    cases face with
    | directory =>
      have hthere := isDirectory?_eq_true_iff.2 ⟨htext, hopens, hdisk⟩
      have hthereAfter := isDirectory?_eq_true_iff.2 ⟨htext, hafter, hface⟩
      refine ⟨by rw [hthere, hthereAfter], ?_⟩
      intro _
      rw [read_of_directory hthere, read_of_directory hthereAfter]
    | file text =>
      have hnames : disk.NamesFile path text := ⟨htext, hopens, hdisk, hends.endsInStep⟩
      have hnamesAfter : after.NamesFile path text := ⟨htext, hafter, hface, hends.endsInStep⟩
      have hfile := isDirectory?_eq_false_iff.2 ⟨text, hnames⟩
      have hfileAfter := isDirectory?_eq_false_iff.2 ⟨text, hnamesAfter⟩
      exact ⟨by rw [hfile, hfileAfter], fun _ => by rw [hnames.read, hnamesAfter.read]⟩

theorem goal_of_location (h : after.location = disk.location) (path : Path) :
    after.goal path = disk.goal path := by
  simp [goal, startOf, h]

theorem way_of_location (h : after.location = disk.location) (path : Path) :
    after.way path = disk.way path := by
  simp [way, startOf, h]

/-- A path that goes on from another one with more steps. -/
theorem goal_of_steps {further : Path} {steps : List Path.Segment}
    (habsolute : further.isAbsolute = path.isAbsolute) (hsteps : further.steps = path.steps ++ steps)
    (disk : Disk) : disk.goal further = (disk.goal path).goal steps := by
  rw [goal, goal, startOf, habsolute, hsteps, Spot.goal_append]
  rfl

theorem way_of_steps {further : Path} {steps : List Path.Segment}
    (habsolute : further.isAbsolute = path.isAbsolute) (hsteps : further.steps = path.steps ++ steps)
    (disk : Disk) : disk.way further = disk.way path ++ (disk.goal path).way steps := by
  rw [way, way, startOf, habsolute, hsteps, Spot.way_append]
  rfl

theorem goal_congr {other : Path} (habsolute : other.isAbsolute = path.isAbsolute)
    (hsteps : other.steps = path.steps) (disk : Disk) : disk.goal other = disk.goal path := by
  rw [goal, goal, startOf, startOf, habsolute, hsteps]

theorem way_congr {other : Path} (habsolute : other.isAbsolute = path.isAbsolute)
    (hsteps : other.steps = path.steps) (disk : Disk) : disk.way other = disk.way path := by
  rw [way, way, startOf, startOf, habsolute, hsteps]

theorem way_join (h : Path.IsName name.toList) (path : Path) (disk : Disk) :
    disk.way (path.join name) = disk.way path ++ [disk.goal path] := by
  have hplain := Path.head?_ne_slash h.plain
  have hsteps := Path.steps_join path hplain
  rw [h.splitSegments, h.stepsOf] at hsteps
  rw [way_of_steps (Path.isAbsolute_join path hplain) hsteps]
  rfl

/-! ## Changes -/

section

variable {front : List Path.Segment}

theorem goal_of_front (h : path.EndsIn name) (hsteps : path.steps = Path.stepsOf front ++ [name.toList])
    (disk : Disk) :
    disk.goal path = name :: (disk.startOf path).goal (Path.stepsOf front) := by
  rw [goal, hsteps, Spot.goal_append]
  simp [Spot.goal, Spot.step, h.isName.down]

theorem way_of_front (hsteps : path.steps = Path.stepsOf front ++ [name.toList]) (disk : Disk) :
    disk.way path = (disk.startOf path).way (Path.stepsOf front) ++
      [(disk.startOf path).goal (Path.stepsOf front)] := by
  rw [way, hsteps, Spot.way_append]
  rfl

end

/-- The end of a path that ends in a name is that name, in the last spot on its way. -/
theorem goal_of_endsIn (h : path.EndsIn name) (disk : Disk) :
    ∃ spot, disk.goal path = name :: spot ∧ spot ∈ disk.way path := by
  rcases h.steps with ⟨front, -, hsteps⟩
  refine ⟨_, goal_of_front h hsteps disk, ?_⟩
  rw [way_of_front hsteps]
  exact List.mem_append_right _ List.mem_cons_self

theorem resolveNew_eq_ok_iff (h : path.EndsIn name) :
    disk.resolveNew path = .ok spot ↔ disk.Opens path ∧ spot = disk.goal path := by
  rcases h.steps with ⟨front, hsegments, hsteps⟩
  let before : Spot := (disk.startOf path).goal (Path.stepsOf front)
  have hgoal : disk.goal path = name :: before := goal_of_front h hsteps disk
  have hopens : disk.Opens path ↔
      (∀ t ∈ (disk.startOf path).way (Path.stepsOf front), disk.face? t = some .directory) ∧
        disk.face? before = some .directory := by
    rw [Opens, way_of_front hsteps, List.forall_mem_append, List.forall_mem_singleton]
  have hreverse : (front ++ [name.toList]).reverse = name.toList :: front.reverse := by simp
  rw [resolveNew, hsegments, hreverse, hopens, hgoal]
  -- The name is left for last: what is followed is the way to the directory that holds it.
  simp only [List.reverse_reverse]
  constructor
  · intro hok
    cases hfollow : disk.follow (disk.startOf path) front with
    | error fault => simp [hfollow, bind, Except.bind] at hok
    | ok found =>
      rcases follow_eq_ok_iff.1 hfollow with ⟨hfound, hway, -⟩
      have hbefore : found = before := hfound
      simp only [hfollow, bind, Except.bind] at hok
      split at hok
      next entries hentry =>
        have hspot : String.ofList name.toList :: found = spot := Except.ok.inj hok
        refine ⟨⟨hway, ?_⟩, ?_⟩
        · exact face?_eq_directory_iff.2 ⟨entries, hbefore ▸ hentry⟩
        · rw [← hspot, hbefore, String.ofList_toList]
      next => exact absurd hok (by simp)
      next => exact absurd hok (by simp)
  · rintro ⟨⟨hway, hbefore⟩, hspot⟩
    rcases face?_eq_directory_iff.1 hbefore with ⟨entries, hentry⟩
    have hstands : disk.Stands front before :=
      fun s _ => ⟨by rw [hbefore]; simp, fun _ => hbefore⟩
    have hfollow : disk.follow (disk.startOf path) front = .ok before :=
      follow_eq_ok_iff.2 ⟨rfl, hway, hstands⟩
    simp [hfollow, bind, Except.bind, hentry, hspot]

/-- A file is written if the way of its path is open and does not end at a directory. -/
theorem write_eq_ok_iff (h : path.EndsIn name) :
    disk.write path (.file text) = .ok after ↔
      disk.Opens path ∧ disk.face? (disk.goal path) ≠ some .directory ∧
        after = disk.put (disk.goal path) (.file text) := by
  have hends : endsInName path = true := Path.endsInName_iff.2 ⟨name, h⟩
  have hface : (disk.entry? (disk.goal path)).any Entry.isDirectory = true ↔
      disk.face? (disk.goal path) = some .directory := by
    rw [face?]
    cases disk.entry? (disk.goal path) with
    | none => simp
    | some entry => cases entry <;> simp [Entry.face, Entry.isDirectory]
  simp only [write, h.withoutEnding, hends, if_true]
  by_cases hopens : disk.Opens path
  · have hnew : disk.resolveNew path = .ok (disk.goal path) :=
      (resolveNew_eq_ok_iff h).2 ⟨hopens, rfl⟩
    by_cases hdirectory : disk.face? (disk.goal path) = some .directory
    · have hany := hface.2 hdirectory
      simp [hnew, bind, Except.bind, hany, hdirectory]
    · have hany : ¬(disk.entry? (disk.goal path)).any Entry.isDirectory = true :=
        fun hany => hdirectory (hface.1 hany)
      have hput : disk.put (disk.goal path) (.file text) = after ↔
          after = disk.put (disk.goal path) (.file text) := eq_comm
      simp [hnew, bind, Except.bind, hany, hopens, hdirectory, hput]
  · have hnew : ∀ spot, disk.resolveNew path ≠ .ok spot :=
      fun spot hok => hopens ((resolveNew_eq_ok_iff h).1 hok).1
    cases hresolve : disk.resolveNew path with
    | ok spot => exact absurd hresolve (hnew spot)
    | error fault => simp [bind, Except.bind, hopens]

/-- A file can be written at a path: the path is open and does not lead to a directory. -/
def Accepts (disk : Disk) (path : Path) : Prop :=
  disk.Opens path ∧ disk.face? (disk.goal path) ≠ some .directory

theorem write_of_accepts (h : path.EndsIn name) (haccepts : disk.Accepts path) (text : Option String) :
    disk.write path (.file text) = .ok (disk.put (disk.goal path) (.file text)) :=
  (write_eq_ok_iff h).2 ⟨haccepts.1, haccepts.2, rfl⟩

/-- A path leads where it leads without its separators. -/
theorem goal_withoutEnding (h : (withoutEnding path).text ≠ "") (disk : Disk) :
    disk.goal (withoutEnding path) = disk.goal path :=
  goal_congr (Path.isAbsolute_withoutEnding h) (Path.steps_withoutEnding path) disk

theorem way_withoutEnding (h : (withoutEnding path).text ≠ "") (disk : Disk) :
    disk.way (withoutEnding path) = disk.way path :=
  way_congr (Path.isAbsolute_withoutEnding h) (Path.steps_withoutEnding path) disk

/-- An open path that ends in a name fails only where there is nothing. -/
theorem face?_of_resolve_error {fault : FileFault} (h : path.EndsIn name) (hopens : disk.Opens path)
    (hresolve : disk.resolve path = .error fault) : disk.face? (disk.goal path) = none := by
  by_contra hface
  have hstands : disk.Stands path.segments (disk.goal path) := by
    intro s hs
    exact ⟨hface, fun hidle => by simp [h.endsInStep s hs] at hidle⟩
  have hok : disk.resolve path = .ok (disk.goal path) :=
    resolve_eq_ok_iff.2 ⟨h.text_ne_empty, rfl, hopens, hstands⟩
  simp [hok] at hresolve

/-- A directory is made if the way of its path is open and ends where there is nothing. -/
theorem makeDirectory_eq_ok (h : disk.makeDirectory path = .ok after) :
    disk.Opens path ∧ disk.face? (disk.goal path) = none ∧
      (∃ name spot, disk.goal path = name :: spot ∧ Path.IsName name.toList ∧ spot ∈ disk.way path) ∧
      after = disk.put (disk.goal path) (.directory []) := by
  rw [makeDirectory] at h
  cases hresolve : disk.resolve path with
  | ok spot => simp [hresolve] at h
  | error fault =>
    simp only [hresolve] at h
    split at h
    next hends =>
      rcases Path.endsInName_iff.1 hends with ⟨name, hname⟩
      have hgoal := goal_withoutEnding hname.text_ne_empty disk
      have hway := way_withoutEnding hname.text_ne_empty disk
      cases hbare : disk.resolve (withoutEnding path) with
      | ok spot => simp [hbare] at h
      | error _ =>
        simp only [hbare] at h
        cases hnew : disk.resolveNew (withoutEnding path) with
        | error _ => simp [hnew, bind, Except.bind] at h
        | ok spot =>
          rcases (resolveNew_eq_ok_iff hname).1 hnew with ⟨hopens, hspot⟩
          have hnothing := face?_of_resolve_error hname hopens hbare
          have hafter : after = disk.put (disk.goal path) (.directory []) := by
            simp only [hnew, bind, Except.bind, Except.ok.injEq] at h
            rw [← h, hspot, hgoal]
          rcases goal_of_endsIn hname disk with ⟨before, hend, hmem⟩
          rw [Opens, hway] at hopens
          rw [hgoal] at hnothing hend
          exact ⟨hopens, hnothing, ⟨name, before, hend, hname.isName, hway ▸ hmem⟩, hafter⟩
    next => exact absurd h (by simp)

/-- Putting something in a directory changes one face, if it takes the place of a file or of nothing. -/
theorem face?_put {new : Entry} (hleaf : new.IsLeaf) (hparent : disk.face? spot = some .directory)
    (hfree : disk.face? (name :: spot) ≠ some .directory) (other : Spot) :
    (disk.put (name :: spot) new).face? other =
      if other = name :: spot then some new.face else disk.face? other := by
  have hparentRoot : disk.root.face? spot.reverse = some .directory := hparent
  have hfreeRoot : disk.root.face? (spot.reverse ++ [name]) ≠ some .directory := by
    rw [← List.reverse_cons]
    exact hfree
  have hput := Entry.face?_put hleaf hparentRoot hfreeRoot other.reverse
  have hspot : other.reverse = spot.reverse ++ [name] ↔ other = name :: spot := by
    rw [← List.reverse_cons, List.reverse_inj]
  rw [face?_eq, face?_eq, Disk.put, List.reverse_cons]
  simpa only [hspot] using hput

/-- What a written file changes. -/
theorem face?_write (h : path.EndsIn name) (hwrite : disk.write path (.file text) = .ok after) :
    after.location = disk.location ∧ ∀ spot, after.face? spot =
      if spot = disk.goal path then some (.file text) else disk.face? spot := by
  rcases (write_eq_ok_iff h).1 hwrite with ⟨hopens, hfree, rfl⟩
  rcases goal_of_endsIn h disk with ⟨before, hgoal, hbefore⟩
  refine ⟨rfl, ?_⟩
  intro spot
  rw [hgoal] at hfree ⊢
  exact face?_put (Entry.isLeaf_file text) (hopens before hbefore) hfree spot

/-- What a directory that was made changes. -/
theorem face?_makeDirectory (h : disk.makeDirectory path = .ok after) :
    after.location = disk.location ∧ ∀ spot, after.face? spot =
      if spot = disk.goal path then some .directory else disk.face? spot := by
  rcases makeDirectory_eq_ok h with ⟨hopens, hnothing, ⟨name, before, hgoal, -, hbefore⟩, rfl⟩
  refine ⟨rfl, ?_⟩
  intro spot
  rw [hgoal] at hnothing ⊢
  have hfree : disk.face? (name :: before) ≠ some .directory := by simp [hnothing]
  exact face?_put Entry.isLeaf_directory (hopens before hbefore) hfree spot

end Disk

end PipelineTree
