import PipelineTree.Proofs.Files.Rediscovery

/-!
# Resolution — patterns resolved a second time

What a search names in its components are characters of the text that it was read from, so that no component
holds a separator.  A search from the root in which no component leads up finds the same inputs on a disk that
has grown, and so patterns are resolved as they were before.
-/

namespace PipelineTree

/-! ## What patterns name -/

namespace Pattern

theorem toBracket?_subset {kept : Nat} {cs inner rest : List Char}
    (h : toBracket? kept cs = some (inner, rest)) : ∀ c ∈ rest, c ∈ cs := by
  have hsuffix : (cs.drop kept).dropWhile (· != ']') <:+ cs :=
    (List.dropWhile_suffix _).trans (List.drop_suffix kept cs)
  rw [toBracket?] at h
  split at h
  next closing tail hdrop =>
    have hrest : tail = rest := (Prod.mk.inj (Option.some.inj h)).2
    intro c hc
    rw [hdrop] at hsuffix
    exact hsuffix.subset (List.mem_cons_of_mem closing (hrest ▸ hc))
  next => exact absurd h (by simp)

/-- Behind a bracket expression there is only what was there before. -/
theorem bracket?_spec {cs rest : List Char} {token : Token} (h : bracket? cs = some (token, rest)) :
    (∀ c, token ≠ .char c) ∧ ∀ c ∈ rest, c ∈ cs := by
  have hread : ∀ (inside : List Char) (build : List Char × List Char → Token × List Char),
      (∀ found c, (build found).1 ≠ .char c) → (∀ found, (build found).2 = found.2) →
      (if inside.isEmpty then none else (toBracket? 1 inside).map build) = some (token, rest) →
      (∀ c, token ≠ .char c) ∧ ∀ c ∈ rest, c ∈ inside := by
    intro inside build htoken hrest hsome
    split at hsome
    · exact absurd hsome (by simp)
    · rcases Option.map_eq_some_iff.1 hsome with ⟨⟨inner, behind⟩, hbracket, hbuilt⟩
      have hbehind : behind = rest := by
        have hkept := hrest (inner, behind)
        rw [hbuilt] at hkept
        exact hkept.symm
      refine ⟨?_, hbehind ▸ toBracket?_subset hbracket⟩
      simpa [hbuilt] using htoken (inner, behind)
  rw [bracket?.eq_def] at h
  split at h
  next inside =>
    rcases hread inside _ (by simp) (by simp) h with ⟨htoken, hrest⟩
    exact ⟨htoken, fun c hc => List.mem_cons_of_mem _ (hrest c hc)⟩
  next => exact hread _ _ (by simp) (by simp) h

/-- The characters that a pattern names are those of its text. -/
theorem char_mem_of_read? {before : Option Char} {pattern result : Pattern} {cs : List Char} {c : Char}
    (h : read? before pattern cs = some result) (hc : .char c ∈ result) :
    .char c ∈ pattern ∨ c ∈ cs := by
  -- Another token in front names nothing, and what is left of the text is part of it.
  have hforward : ∀ {token : Token} {pattern : Pattern} {rest cs : List Char}, token ≠ .char c →
      (c ∈ rest → c ∈ cs) → .char c ∈ token :: pattern ∨ c ∈ rest → .char c ∈ pattern ∨ c ∈ cs := by
    intro token pattern rest cs htoken hrest hmem
    rcases hmem with hmem | hmem
    · rcases List.mem_cons.1 hmem with heq | hmem
      · exact absurd heq.symm htoken
      · exact .inl hmem
    · exact .inr (hrest hmem)
  fun_induction read? before pattern cs with
  | case1 before pattern =>
    rw [← Option.some.inj h] at hc
    exact .inl (List.mem_reverse.1 hc)
  | case2 before pattern d rest _ ih =>
    exact hforward (by simp) (List.mem_cons_of_mem d) (ih h)
  | case4 before pattern d _ _ _ _ ih =>
    exact hforward (by simp) (fun hmem => absurd hmem (by simp)) (ih h)
  | case5 before pattern star _ _ _ d rest _ _ ih =>
    refine hforward (by simp) ?_ (ih h)
    exact fun hmem => List.mem_cons_of_mem star (List.mem_cons_of_mem '*' (List.mem_cons_of_mem d hmem))
  | case8 before pattern d _ _ rest _ _ ih =>
    exact hforward (by simp) (List.mem_cons_of_mem d) (ih h)
  | case9 before pattern d inside _ _ _ token rest hbracket _ ih =>
    rcases bracket?_spec hbracket with ⟨htoken, hrest⟩
    exact hforward (htoken c) (fun hmem => List.mem_cons_of_mem d (hrest c hmem)) (ih h)
  | case12 before pattern d rest _ _ _ ih =>
    rcases ih h with hmem | hmem
    · rcases List.mem_cons.1 hmem with heq | hmem
      · exact .inr (List.mem_cons.2 (.inl (Token.char.inj heq)))
      · exact .inl hmem
    · exact .inr (List.mem_cons_of_mem d hmem)
  | _ => exact absurd h (by simp)

theorem slash_not_mem_of_ofChars? {pattern : Pattern} {s : Path.Segment} (hs : '/' ∉ s)
    (h : ofChars? s = some pattern) : .char '/' ∉ pattern := by
  intro hmem
  rcases char_mem_of_read? h hmem with hnone | hslash
  · exact absurd hnone (by simp)
  · exact hs hslash

end Pattern

namespace Search

open PipelineTree.Path

variable {before after : Disk} {directories : Spot → Prop}

theorem mem_of_mem_collapse {patterns : List Pattern} {p : Pattern} (h : p ∈ collapse patterns) :
    p ∈ patterns := by
  fun_induction collapse patterns with
  | case1 p' q rest _ ih => exact List.mem_cons_of_mem p' (ih h)
  | case2 p' q rest _ ih =>
    rcases List.mem_cons.1 h with rfl | hrest
    · exact List.mem_cons_self
    · exact List.mem_cons_of_mem p' (ih hrest)
  | case3 => exact h

theorem mem_of_mem_dropEnding {segments : List Segment} {s : Segment} (h : s ∈ dropEnding segments) :
    s ∈ segments := by
  rw [dropEnding] at h
  split at h
  · exact List.dropLast_subset segments h
  · exact h

/-- What is read for segments without separators holds none. -/
theorem slash_not_mem_of_mapM {segments : List Segment} {patterns : List Pattern}
    (hplain : ∀ s ∈ segments, '/' ∉ s) (h : segments.mapM Pattern.ofChars? = some patterns) :
    ∀ p ∈ patterns, .char '/' ∉ p := by
  induction segments generalizing patterns with
  | nil =>
    have hnil : [] = patterns := Option.some.inj h
    exact fun p hp => absurd hp (by simp [← hnil])
  | cons s ss ih =>
    rw [List.mapM_cons] at h
    rcases Option.bind_eq_some_iff.1 h with ⟨first, hfirst, h⟩
    rcases Option.bind_eq_some_iff.1 h with ⟨others, hothers, h⟩
    have hsame : first :: others = patterns := Option.some.inj h
    intro p hp
    rcases List.mem_cons.1 (hsame ▸ hp) with rfl | hp
    · exact Pattern.slash_not_mem_of_ofChars? (hplain s List.mem_cons_self) hfirst
    · exact ih (fun t ht => hplain t (List.mem_cons_of_mem s ht)) hothers p hp

/-- The search for an absolute path starts at the root, and looks for one component at a time. -/
theorem ofText?_spec {text : String} {search : Search} (habsolute : text.toList.head? = some '/')
    (h : ofText? text = some search) :
    search.start = ⟨"/"⟩ ∧ ∀ p ∈ search.patterns, .char '/' ∉ p := by
  have hroot : (text.toList.head? == some '/') = true := by simp [habsolute]
  rw [ofText?] at h
  rcases Option.bind_eq_some_iff.1 h with ⟨whole, -, h⟩
  simp only [hroot, if_true] at h
  rcases Option.bind_eq_some_iff.1 h with ⟨patterns, hpatterns, h⟩
  have hsearch := Option.some.inj h
  rw [← hsearch]
  refine ⟨rfl, ?_⟩
  have hplain := slash_not_mem_of_mapM
    (fun s hs => slash_not_mem_of_mem_splitSegments (mem_of_mem_dropEnding hs)) hpatterns
  intro p hp
  have hmem : p ∈ if patterns.isEmpty then [[]] else collapse patterns := hp
  split at hmem
  · rw [List.mem_singleton.1 hmem]
    simp
  · exact hplain p (mem_of_mem_collapse hmem)

/-- No component of a search leads up. -/
def Descends (search : Search) : Prop := ∀ p ∈ search.patterns, ".." ∉ specialNames p

/-- A search from the root that never goes up finds the same inputs on a disk that has grown. -/
theorem inputs_grown {text : String} {search : Search} (habsolute : text.toList.head? = some '/')
    (hsearch : ofText? text = some search) (hdescends : search.Descends)
    (hbefore : before.root.WellFormed) (hafter : after.root.WellFormed)
    (hgrows : before.Grows Spot.Marked directories after) :
    (search.found after).filter after.holdsInput = (search.found before).filter before.holdsInput := by
  rcases ofText?_spec habsolute hsearch with ⟨hstart, hplain⟩
  have hpatterns : ∀ p ∈ search.patterns, p.Descends := fun p hp => ⟨hplain p hp, hdescends p hp⟩
  have hstraight : search.start.Straight := by
    rw [hstart]
    exact ⟨by decide, by decide⟩
  exact inputsBelow_grown hbefore hafter hgrows search.directoriesOnly search.patterns hpatterns
    search.start hstraight

end Search

/-! ## Resolving again -/

namespace Inputs

variable {before after : Disk} {directories : Spot → Prop} {base : Path} {patterns : List String}

/-- The search for a pattern, resolved against a base, never goes up. -/
def Descends (base : Path) (pattern : String) : Prop :=
  ∀ search, Search.ofText? (fullPattern base pattern) = some search → search.Descends

theorem isAbsolute_fullPattern (h : base.isAbsolute = true) (pattern : String) :
    (fullPattern base pattern).toList.head? = some '/' := by
  rw [fullPattern]
  cases hpattern : (Path.mk pattern).isAbsolute with
  | true =>
    rw [if_pos rfl]
    exact beq_iff_eq.1 hpattern
  | false =>
    have hbelow : pattern.toList.head? ≠ some '/' := by
      rw [Path.isAbsolute, beq_eq_false_iff_ne] at hpattern
      exact hpattern
    have hjoin := Path.isAbsolute_join base hbelow
    rw [h] at hjoin
    rw [if_neg (by simp)]
    exact beq_iff_eq.1 hjoin

/-- A pattern that never goes up names the same inputs on a disk that has grown. -/
theorem inputsOf_grown {pattern : String} (habsolute : base.isAbsolute = true)
    (hdescends : Descends base pattern) (hbefore : before.root.WellFormed)
    (hafter : after.root.WellFormed) (hgrows : before.Grows Spot.Marked directories after) :
    inputsOf after base pattern = inputsOf before base pattern := by
  rw [inputsOf, inputsOf]
  cases hsearch : Search.ofText? (fullPattern base pattern) with
  | none => rfl
  | some search =>
    have hfull := isAbsolute_fullPattern habsolute pattern
    have hsame := Search.inputs_grown hfull hsearch (hdescends search hsearch) hbefore hafter hgrows
    simp only [hsame]

/-- Patterns that never go up are resolved as before on a disk that has grown. -/
theorem resolved_grown (habsolute : base.isAbsolute = true)
    (hdescends : ∀ pattern ∈ patterns, Descends base pattern) (hbefore : before.root.WellFormed)
    (hafter : after.root.WellFormed) (hgrows : before.Grows Spot.Marked directories after)
    (sorted : List Path) : resolved after base sorted patterns = resolved before base sorted patterns := by
  induction patterns generalizing sorted with
  | nil => rfl
  | cons pattern patterns ih =>
    have hfirst := inputsOf_grown habsolute (hdescends pattern List.mem_cons_self) hbefore hafter hgrows
    have hrest := ih fun other hother => hdescends other (List.mem_cons_of_mem pattern hother)
    rw [resolved, resolved, hfirst]
    cases inputsOf before base pattern with
    | error error => rfl
    | ok inputs => exact hrest (insertAll inputs sorted)

end Inputs

/-! ## The working directory -/

namespace Disk

open PipelineTree.Path

variable {disk after : Disk}

theorem toList_pathOf (spot : Spot) :
    (pathOf spot).text.toList =
      if spot = [] then ['/'] else joinSegments ([] :: spot.reverse.map String.toList) := by
  have hnames : ∀ names : List String, names ≠ [] →
      (names.map ("/" ++ ·)).flatMap String.toList = joinSegments ([] :: names.map String.toList) := by
    intro names hne
    induction names with
    | nil => exact absurd rfl hne
    | cons name rest ih =>
      cases rest with
      | nil => simp [joinSegments]
      | cons next rest =>
        calc
          ((name :: next :: rest).map ("/" ++ ·)).flatMap String.toList
              = ("/" ++ name).toList ++ ((next :: rest).map ("/" ++ ·)).flatMap String.toList := rfl
          _ = ("/" ++ name).toList ++ joinSegments ([] :: (next :: rest).map String.toList) := by
                rw [ih (by simp)]
          _ = joinSegments ([] :: (name :: next :: rest).map String.toList) := by
                rw [String.toList_append]
                rfl
  cases spot with
  | nil => rfl
  | cons name spot =>
    have htext : (pathOf (name :: spot)).text.toList =
        ((name :: spot).reverse.map ("/" ++ ·)).flatMap String.toList := String.toList_join
    rw [if_neg (by simp), htext]
    exact hnames _ (by simp)

theorem isAbsolute_pathOf (spot : Spot) : (pathOf spot).isAbsolute = true := by
  rw [isAbsolute, toList_pathOf]
  cases hspot : spot.reverse with
  | nil =>
    rw [if_pos (List.reverse_eq_nil_iff.1 hspot)]
    rfl
  | cons name names =>
    rw [if_neg (by rintro rfl; simp at hspot)]
    rfl

/-- The path of a spot leads down to it. -/
theorem steps_pathOf {spot : Spot} (h : ∀ name ∈ spot, IsName name.toList) :
    (pathOf spot).steps = spot.reverse.map String.toList := by
  by_cases hroot : spot = []
  · subst hroot
    decide
  · have hsegments : (pathOf spot).segments = [] :: spot.reverse.map String.toList := by
      rw [segments, toList_pathOf, if_neg hroot]
      apply splitSegments_joinSegments (by simp)
      intro s hs
      rcases List.mem_cons.1 hs with rfl | hs
      · simp
      · rcases List.mem_map.1 hs with ⟨name, hname, rfl⟩
        exact (h name (List.mem_reverse.1 hname)).plain
    rw [steps, hsegments, stepsOf_cons_idle rfl, stepsOf, List.filter_eq_self]
    intro s hs
    rcases List.mem_map.1 hs with ⟨name, hname, rfl⟩
    simp [(h name (List.mem_reverse.1 hname)).counts]

theorem straight_pathOf {spot : Spot} (h : ∀ name ∈ spot, IsName name.toList) :
    (pathOf spot).Straight := by
  refine ⟨isAbsolute_pathOf spot, ?_⟩
  rw [steps_pathOf h]
  intro hmem
  rcases List.mem_map.1 hmem with ⟨name, hname, hdots⟩
  exact (h name (List.mem_reverse.1 hname)).down hdots

theorem goal_pathOf {spot : Spot} (h : ∀ name ∈ spot, IsName name.toList) (disk : Disk) :
    disk.goal (pathOf spot) = spot := by
  rw [goal_of_straight (straight_pathOf h), steps_pathOf h]
  simp

/-- The spot of the settings. -/
def settingsSpot (disk : Disk) : Spot := Path.settingsName :: disk.location

/-- A path leads through a spot, or ends there. -/
def PassesThrough (disk : Disk) (path : Path) (spot : Spot) : Prop :=
  spot ∈ disk.way path ∨ spot = disk.goal path

theorem isName_settingsName : IsName Path.settingsName.toList := ⟨by decide, by decide, by decide⟩

theorem settings_endsIn (directory : Path) : directory.settings.EndsIn Path.settingsName :=
  endsIn_join directory isName_settingsName

namespace WellFormed

/-- The path of the settings leads to the spot of the settings. -/
theorem goal_settings (h : disk.WellFormed) :
    disk.goal (pathOf disk.location).settings = disk.settingsSpot := by
  have hnames := isName_of_face? h.root (by rw [h.location]; simp)
  have hgoal := goal_pathOf hnames disk
  have hplain := head?_ne_slash isName_settingsName.plain
  have hsteps := steps_join (pathOf disk.location) hplain
  rw [isName_settingsName.splitSegments, isName_settingsName.stepsOf] at hsteps
  rw [settings, goal_of_steps (isAbsolute_join _ hplain) hsteps, hgoal]
  rfl

theorem opens_settings (h : disk.WellFormed) : disk.Opens (pathOf disk.location).settings := by
  have hnames := isName_of_face? h.root (by rw [h.location]; simp)
  have hgoal := goal_pathOf hnames disk
  have hface : disk.face? (disk.goal (pathOf disk.location)) = some .directory := by
    rw [hgoal]
    exact h.location
  have hopens := opens_of_straight (straight_pathOf hnames) (by rw [hface]; simp)
  intro spot hspot
  rw [settings, way_join isName_settingsName] at hspot
  rcases List.mem_append.1 hspot with hway | hlast
  · exact hopens spot hway
  · rw [List.mem_singleton.1 hlast]
    exact hface

end WellFormed

end Disk

end PipelineTree
