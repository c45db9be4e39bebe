import PipelineTree.Proofs.Files.Answers
import PipelineTree.Proofs.Files.Discovery

/-!
# Lookup — patterns without wildcards

A text without wildcards is a pattern that describes itself, and a search for it looks one segment up after
the other.  It finds exactly one path, which names the file that the text itself names.
-/

namespace PipelineTree

/-! ## Texts without wildcards -/

namespace Pattern

/-- A text that is no more than its characters when it is read as a pattern. -/
def Plain (cs : List Char) : Prop := ∀ c ∈ cs, c ≠ '?' ∧ c ≠ '*' ∧ c ≠ '['

/-- The pattern that only describes one name. -/
def literal (cs : List Char) : Pattern := cs.map .char

theorem read?_plain {cs : List Char} (h : Plain cs) (before : Option Char) (pattern : Pattern) :
    read? before pattern cs = some (pattern.reverse ++ literal cs) := by
  induction cs generalizing before pattern with
  | nil => simp [read?, literal]
  | cons c cs ih =>
    rcases h c List.mem_cons_self with ⟨hone, hany, hclass⟩
    have hrest : Plain cs := fun d hd => h d (List.mem_cons_of_mem c hd)
    have hnext := ih hrest (some c) (.char c :: pattern)
    have hnone : ∀ tail, cs = '*' :: tail → False := by
      intro tail htail
      exact (hrest '*' (by simp [htail])).2.1 rfl
    rw [read?]
    · simp [hone, hany, hclass, hnext, literal]
    · exact fun tail => hnone ('*' :: tail)
    · exact hnone

theorem ofChars?_plain {cs : List Char} (h : Plain cs) : ofChars? cs = some (literal cs) :=
  read?_plain h none []

theorem literal?_literal (cs : List Char) : (literal cs).literal? = some cs := by
  induction cs with
  | nil => rfl
  | cons c cs ih =>
    have hrest : literal? (cs.map .char) = some cs := ih
    simp [literal, literal?, hrest]

theorem isRecursive_literal (cs : List Char) : (literal cs).isRecursive = false := by
  simp [isRecursive, literal]

end Pattern

namespace Path

/-- The text of a path behind the root. -/
def behindRoot (p : Path) : List Char := if p.isAbsolute then p.text.toList.drop 1 else p.text.toList

/-- Where a search for a path starts. -/
def origin (p : Path) : Path := ⟨if p.isAbsolute then "/" else "."⟩

theorem text_of_isAbsolute {p : Path} (h : p.isAbsolute = true) :
    p.text.toList = '/' :: p.text.toList.drop 1 := by
  cases htext : p.text.toList with
  | nil => simp [isAbsolute, htext] at h
  | cons c cs =>
    have hc : c = '/' := by simpa [isAbsolute, htext] using h
    rw [hc]
    rfl

theorem segments_of_isAbsolute {p : Path} (h : p.isAbsolute = true) :
    p.segments = [] :: splitSegments p.behindRoot := by
  rw [segments, text_of_isAbsolute h, behindRoot, if_pos h]
  simp [splitSegments]

theorem steps_eq_stepsOf_behindRoot (p : Path) : p.steps = stepsOf (splitSegments p.behindRoot) := by
  cases h : p.isAbsolute with
  | true => rw [steps, segments_of_isAbsolute h, stepsOf_cons_idle rfl]
  | false =>
    rw [steps, segments, behindRoot, h]
    rfl

theorem steps_origin (p : Path) : p.origin.steps = [] := by
  rw [origin]
  split
  · decide
  · decide

theorem isAbsolute_origin (p : Path) : p.origin.isAbsolute = p.isAbsolute := by
  cases h : p.isAbsolute with
  | true =>
    rw [origin, h]
    rfl
  | false =>
    rw [origin, h]
    rfl

/-- A path that ends in a name ends in it behind the root as well. -/
theorem EndsIn.behindRoot {p : Path} {name : String} (h : p.EndsIn name) :
    (splitSegments p.behindRoot).getLast? = some name.toList := by
  cases habsolute : p.isAbsolute with
  | true =>
    have hlast := h.last
    rw [segments_of_isAbsolute habsolute,
      List.getLast?_cons_of_ne_nil (splitSegments_ne_nil p.behindRoot)] at hlast
    exact hlast
  | false =>
    have hlast := h.last
    rw [segments] at hlast
    rw [Path.behindRoot, habsolute]
    exact hlast

theorem EndsIn.getLast?_text {p : Path} {name : String} (h : p.EndsIn name) :
    p.text.toList.getLast? ≠ some '/' := by
  intro hslash
  rcases List.getLast?_eq_some_iff.1 hslash with ⟨cs, hcs⟩
  have hlast : p.segments.getLast? = some [] := by
    rw [segments, hcs, splitSegments_append_slash]
    simp [splitSegments]
  have hidle := h.endsInStep [] hlast
  exact absurd hidle (by decide)

/-- Behind the dots that a list of segments starts with comes a name, and not a second separator. -/
def Tight (segments : List Segment) : Prop := (segments.dropWhile (· == ['.'])).head? ≠ some []

theorem Tight.ne_nil {s : Segment} {segments : List Segment} (h : Tight (s :: segments)) : s ≠ [] := by
  rintro rfl
  exact h rfl

@[simp] theorem tight_dot {segments : List Segment} : Tight (['.'] :: segments) ↔ Tight segments := by
  simp [Tight]

theorem eq_nil_of_not_tight {s : Segment} {segments : List Segment} (h : ¬ Tight (s :: segments))
    (hdot : s ≠ ['.']) : s = [] := by
  simpa [Tight, hdot] using h

theorem fileName?_congr {p q : Path} (h : p.steps = q.steps) : p.fileName? = q.fileName? := by
  refine Option.ext ?_
  intro name
  rw [fileName?_eq_some_iff, fileName?_eq_some_iff, h]

theorem isAuthored_congr {p q : Path} (h : p.steps = q.steps) : p.isAuthored = q.isAuthored := by
  rw [isAuthored, isAuthored, isGenerated, isGenerated, isSettings, isSettings, fileName?_congr h]

end Path

namespace Search

open PipelineTree.Path

theorem collapse_of_plain {patterns : List Pattern} (h : ∀ p ∈ patterns, p.isRecursive = false) :
    collapse patterns = patterns := by
  induction patterns with
  | nil => rfl
  | cons p rest ih =>
    cases rest with
    | nil => rfl
    | cons q rest =>
      have hp := h p List.mem_cons_self
      have hrest := ih fun r hr => h r (List.mem_cons_of_mem p hr)
      simp [collapse, hp, hrest]

theorem mapM_ofChars?_plain {segments : List Segment} (h : ∀ s ∈ segments, Pattern.Plain s) :
    segments.mapM Pattern.ofChars? = some (segments.map Pattern.literal) := by
  induction segments with
  | nil => rfl
  | cons s ss ih =>
    have hs := Pattern.ofChars?_plain (h s List.mem_cons_self)
    have hss := ih fun t ht => h t (List.mem_cons_of_mem s ht)
    simp [List.mapM_cons, hs, hss]

/-- Splitting a text takes separators away and adds nothing. -/
theorem plain_of_mem_splitSegments {cs : List Char} (h : Pattern.Plain cs) {s : Segment}
    (hs : s ∈ splitSegments cs) : Pattern.Plain s := by
  induction cs generalizing s with
  | nil =>
    have hempty : s = [] := by simpa [splitSegments] using hs
    simp [hempty, Pattern.Plain]
  | cons c cs ih =>
    have hrest : Pattern.Plain cs := fun d hd => h d (List.mem_cons_of_mem c hd)
    by_cases hc : c = '/'
    · rw [splitSegments, if_pos hc] at hs
      rcases List.mem_cons.1 hs with rfl | hmem
      · exact fun d hd => absurd hd (by simp)
      · exact ih hrest hmem
    · rw [splitSegments, if_neg hc] at hs
      cases hsplit : splitSegments cs with
      | nil => exact absurd hsplit (splitSegments_ne_nil cs)
      | cons t ts =>
        simp only [hsplit] at hs ih
        rcases List.mem_cons.1 hs with rfl | hmem
        · intro d hd
          rcases List.mem_cons.1 hd with rfl | hd
          · exact h d List.mem_cons_self
          · exact ih hrest List.mem_cons_self d hd
        · exact ih hrest (List.mem_cons_of_mem t hmem)

/-- A text without wildcards is a search for its segments. -/
theorem ofText?_plain {path : Path} {name : String} (hplain : Pattern.Plain path.text.toList)
    (hends : path.EndsIn name) :
    ofText? path.text =
      some ⟨path.origin, (splitSegments path.behindRoot).map Pattern.literal, false⟩ := by
  have hbehind : Pattern.Plain path.behindRoot := by
    intro c hc
    apply hplain
    rw [behindRoot] at hc
    split at hc
    · exact List.mem_of_mem_drop hc
    · exact hc
  have hsegments : ∀ s ∈ splitSegments path.behindRoot, Pattern.Plain s :=
    fun s hs => plain_of_mem_splitSegments hbehind hs
  have hending : dropEnding (splitSegments path.behindRoot) = splitSegments path.behindRoot := by
    have hne : name.toList ≠ [] := by
      intro hempty
      have hcounts := hends.isName.counts
      rw [hempty] at hcounts
      exact absurd hcounts (by decide)
    simp [dropEnding, hends.behindRoot, hne]
  have hsome : ((splitSegments path.behindRoot).map Pattern.literal).isEmpty = false := by
    cases hsplit : splitSegments path.behindRoot with
    | nil => exact absurd hsplit (splitSegments_ne_nil _)
    | cons s ss => rfl
  have hcollapse : collapse ((splitSegments path.behindRoot).map Pattern.literal) =
      (splitSegments path.behindRoot).map Pattern.literal := by
    apply collapse_of_plain
    intro p hp
    rcases List.mem_map.1 hp with ⟨s, -, rfl⟩
    exact Pattern.isRecursive_literal s
  have hlast : (path.text.toList.getLast? == some '/') = false := by
    simpa using hends.getLast?_text
  have habsolute : (path.text.toList.head? == some '/') = path.isAbsolute := rfl
  have hcut : (if path.isAbsolute then path.text.toList.drop 1 else path.text.toList) =
      path.behindRoot := rfl
  simp only [ofText?, Pattern.ofChars?_plain hplain, habsolute, hcut, hending,
    mapM_ofChars?_plain hsegments, hsome, hcollapse, hlast, Option.bind_eq_bind, Option.bind_some,
    Bool.false_eq_true, if_false, origin]

/-! ## Looking up -/

variable {disk : Disk} {directory : Path} {s : Segment} {segments : List Segment}

/-- A path that leads one segment on from a directory. -/
structure Leads (directory : Path) (s : Segment) (path : Path) : Prop where
  steps : path.steps = directory.steps ++ stepsOf [s]
  isAbsolute : path.isAbsolute = directory.isAbsolute
  last : path.segments.getLast? = some s

theorem leads_join (hplain : '/' ∉ s) (directory : Path) :
    Leads directory s (directory.join (String.ofList s)) := by
  have hlist : (String.ofList s).toList = s := String.toList_ofList
  have hbelow : (String.ofList s).toList.head? ≠ some '/' := by
    rw [hlist]
    exact head?_ne_slash hplain
  have hsplit : splitSegments (String.ofList s).toList = [s] := by
    rw [hlist]
    exact splitSegments_of_not_mem hplain
  refine ⟨?_, isAbsolute_join directory hbelow, ?_⟩
  · rw [steps_join directory hbelow, hsplit]
  · rw [getLast?_segments_join directory hbelow, hsplit]
    rfl

theorem leads_within (hplain : '/' ∉ s) (directory : Path) :
    Leads directory s (within directory (String.ofList s)) := by
  rw [within]
  split
  next hdot =>
    -- From the working directory a name leads on by itself.
    have hdirectory : directory = ⟨"."⟩ := by
      rcases directory with ⟨text⟩
      exact congrArg Path.mk (by simpa using hdot)
    have hempty := leads_join hplain ⟨""⟩
    rw [join_of_empty rfl] at hempty
    rw [hdirectory]
    exact ⟨hempty.steps, hempty.isAbsolute, hempty.last⟩
  next => exact leads_join hplain directory

theorem text_within_ne_empty (hplain : '/' ∉ s) (htext : directory.text ≠ "")
    (htight : directory.text = "." → s ≠ []) : (within directory (String.ofList s)).text ≠ "" := by
  by_cases hdot : directory.text = "."
  · have hs := htight hdot
    simpa [within, hdot] using hs
  · have hbelow : (String.ofList s).toList.head? ≠ some '/' := by
      rw [String.toList_ofList]
      exact head?_ne_slash hplain
    have hjoin := text_join htext hbelow
    intro hempty
    have hwithin : within directory (String.ofList s) = directory.join (String.ofList s) := by
      simp [within, hdot]
    rw [hwithin] at hempty
    simp [hempty] at hjoin

/-- Only from the working directory does a segment lead to the working directory, and only the dot does. -/
theorem text_within_eq_dot (hplain : '/' ∉ s) (htext : directory.text ≠ "")
    (h : (within directory (String.ofList s)).text = ".") : directory.text = "." ∧ s = ['.'] := by
  by_cases hdot : directory.text = "."
  · have hs : String.ofList s = "." := by simpa [within, hdot] using h
    refine ⟨hdot, ?_⟩
    rw [← String.toList_ofList (l := s), hs]
    rfl
  · -- Anywhere else the text that is joined has a separator.
    have hbelow : (String.ofList s).toList.head? ≠ some '/' := by
      rw [String.toList_ofList]
      exact head?_ne_slash hplain
    have hwithin : within directory (String.ofList s) = directory.join (String.ofList s) := by
      simp [within, hdot]
    have hjoin := text_join htext hbelow
    rw [← hwithin, h] at hjoin
    have hmem : '/' ∈ ("." : String).toList := by
      rw [hjoin]
      simp
    exact absurd hmem (by decide)

namespace Leads

variable {path : Path}

theorem goal (h : Leads directory s path) (disk : Disk) :
    disk.goal path = (disk.goal directory).goal (stepsOf [s]) :=
  Disk.goal_of_steps h.isAbsolute h.steps disk

theorem way (h : Leads directory s path) (disk : Disk) :
    disk.way path = disk.way directory ++ (disk.goal directory).way (stepsOf [s]) :=
  Disk.way_of_steps h.isAbsolute h.steps disk

end Leads

theorem stepsOf_ne_nil (hne : segments ≠ []) (hends : ∀ s ∈ segments.getLast?, isIdle s = false) :
    stepsOf segments ≠ [] := by
  intro hnil
  rcases Option.isSome_iff_exists.1 (List.getLast?_isSome.2 hne) with ⟨last, hlast⟩
  have hidle := List.filter_eq_nil_iff.1 hnil last (List.mem_of_getLast? hlast)
  simp [hends last hlast] at hidle

/-- What stands behind the segments can be looked up from a directory, one segment after the other. -/
structure Reaches (disk : Disk) (segments : List Segment) (directory : Path) : Prop where
  plain : ∀ s ∈ segments, '/' ∉ s
  ends : ∀ s ∈ segments.getLast?, isIdle s = false
  text : directory.text ≠ ""
  tight : directory.text = "." → Tight segments
  isDirectory : segments ≠ [] → disk.isDirectory? directory = some true
  way : ∀ spot ∈ (disk.goal directory).way (stepsOf segments), disk.face? spot = some .directory
  present : disk.face? ((disk.goal directory).goal (stepsOf segments)) ≠ none

namespace Reaches

theorem leads (h : Reaches disk (s :: segments) directory) :
    Leads directory s (within directory (String.ofList s)) :=
  leads_within (h.plain s List.mem_cons_self) directory

theorem here (h : Reaches disk (s :: segments) directory) : disk.isDirectory? directory = some true :=
  h.isDirectory (List.cons_ne_nil s segments)

theorem next_ends (h : Reaches disk (s :: segments) directory) :
    ∀ t ∈ segments.getLast?, isIdle t = false := by
  intro t ht
  apply h.ends
  rw [List.getLast?_cons, Option.mem_def.1 ht]
  rfl

theorem next_text (h : Reaches disk (s :: segments) directory) :
    (within directory (String.ofList s)).text ≠ "" :=
  text_within_ne_empty (h.plain s List.mem_cons_self) h.text fun hdot => (h.tight hdot).ne_nil

theorem next_tight (h : Reaches disk (s :: segments) directory)
    (hdot : (within directory (String.ofList s)).text = ".") : Tight segments := by
  rcases text_within_eq_dot (h.plain s List.mem_cons_self) h.text hdot with ⟨hdirectory, rfl⟩
  exact tight_dot.1 (h.tight hdirectory)

theorem next_way (h : Reaches disk (s :: segments) directory) :
    ∀ spot ∈ (disk.goal (within directory (String.ofList s))).way (stepsOf segments),
      disk.face? spot = some .directory := by
  intro spot hspot
  apply h.way
  rw [← List.singleton_append, stepsOf_append, Spot.way_append, ← h.leads.goal]
  exact List.mem_append_right _ hspot

theorem next_present (h : Reaches disk (s :: segments) directory) :
    disk.face? ((disk.goal (within directory (String.ofList s))).goal (stepsOf segments)) ≠ none := by
  rw [h.leads.goal, ← Spot.goal_append, ← stepsOf_append]
  exact h.present

theorem next_opens (h : Reaches disk (s :: segments) directory) :
    disk.Opens (within directory (String.ofList s)) := by
  rcases Disk.isDirectory?_eq_true_iff.1 h.here with ⟨-, hopens, -⟩
  intro spot hspot
  rw [h.leads.way] at hspot
  rcases List.mem_append.1 hspot with hbefore | hstep
  · exact hopens spot hbefore
  · apply h.way
    rw [← List.singleton_append, stepsOf_append, Spot.way_append]
    exact List.mem_append_left _ hstep

/-- What more is looked up in has to be a directory. -/
theorem next_face (h : Reaches disk (s :: segments) directory) (hne : segments ≠ []) :
    disk.face? (disk.goal (within directory (String.ofList s))) = some .directory := by
  cases hsteps : stepsOf segments with
  | nil => exact absurd hsteps (stepsOf_ne_nil hne h.next_ends)
  | cons t ts =>
    apply h.next_way
    rw [hsteps]
    exact List.mem_cons_self

/-- One segment on, what is left can be looked up from there. -/
theorem next (h : Reaches disk (s :: segments) directory) :
    Reaches disk segments (within directory (String.ofList s)) where
  plain t ht := h.plain t (List.mem_cons_of_mem s ht)
  ends := h.next_ends
  text := h.next_text
  tight := h.next_tight
  isDirectory hne := Disk.isDirectory?_eq_true_iff.2 ⟨h.next_text, h.next_opens, h.next_face hne⟩
  way := h.next_way
  present := h.next_present

theorem next_stands (h : Reaches disk (s :: segments) directory) :
    disk.Stands (within directory (String.ofList s)).segments
      (disk.goal (within directory (String.ofList s))) := by
  intro t ht
  rw [h.leads.last] at ht
  have hts : s = t := Option.some.inj ht
  cases segments with
  | nil =>
    have hcounts : isIdle t = false := hts ▸ h.ends s rfl
    refine ⟨h.next_present, fun hidle => ?_⟩
    rw [hcounts] at hidle
    exact absurd hidle Bool.false_ne_true
  | cons u us =>
    have hface := h.next_face (List.cons_ne_nil u us)
    exact ⟨by simp [hface], fun _ => hface⟩

/-- A search goes on from there. -/
theorem foundBelow_next (h : Reaches disk (s :: segments) directory) :
    foundBelow disk false ((s :: segments).map Pattern.literal) directory =
      foundBelow disk false (segments.map Pattern.literal) (within directory (String.ofList s)) := by
  by_cases hdots : s = ['.'] ∨ s = ['.', '.']
  · rw [List.map_cons, foundBelow_dots (Pattern.literal?_literal s) hdots, if_pos h.here]
  · rw [not_or] at hdots
    have hthere := Disk.isDirectory?_isSome_iff.2 ⟨h.next_text, h.next_opens, h.next_stands⟩
    rw [List.map_cons, foundBelow_literal (Pattern.literal?_literal s) hdots.1 hdots.2, if_pos hthere]

end Reaches

/-- Segments that are looked up one after the other lead to one path. -/
theorem foundBelow_literals (h : Reaches disk segments directory) :
    ∃ found, foundBelow disk false (segments.map Pattern.literal) directory = [found] ∧
      found.text ≠ "" ∧ found.isAbsolute = directory.isAbsolute ∧
      found.steps = directory.steps ++ stepsOf segments ∧
      found.segments.getLast? = segments.getLast?.or directory.segments.getLast? := by
  induction segments generalizing directory with
  | nil =>
    refine ⟨directory, ?_, h.text, rfl, by simp, rfl⟩
    rw [List.map_nil, foundBelow_nil]
    simp
  | cons s rest ih =>
    rcases ih h.next with ⟨found, hfound, htext, habsolute, hsteps, hlast⟩
    refine ⟨found, h.foundBelow_next.trans hfound, htext, habsolute.trans h.leads.isAbsolute, ?_, ?_⟩
    · rw [hsteps, h.leads.steps, List.append_assoc, ← stepsOf_append]
      rfl
    · rw [hlast, h.leads.last, List.getLast?_cons]
      cases rest.getLast? <;> rfl

theorem text_origin (path : Path) : path.origin.text ≠ "" := by
  rw [origin]
  split <;> simp

theorem goal_origin (path : Path) (disk : Disk) : disk.goal path.origin = disk.startOf path := by
  rw [Disk.goal, steps_origin, Disk.startOf, isAbsolute_origin]
  rfl

theorem isDirectory?_origin {path : Path} {name : String} (hends : path.EndsIn name)
    (hopens : disk.Opens path) : disk.isDirectory? path.origin = some true := by
  have hnone : disk.way path.origin = [] := by
    rw [Disk.way, steps_origin]
    rfl
  refine Disk.isDirectory?_eq_true_iff.2 ⟨text_origin path, by simp [Disk.Opens, hnone], ?_⟩
  -- The path has a name to look up, so that it leads out of its start.
  rcases hends.steps with ⟨front, -, hfront⟩
  apply hopens
  rw [goal_origin, Disk.way]
  cases hpath : path.steps with
  | nil => simp [hpath] at hfront
  | cons t ts => exact List.mem_cons_self

/-- What a path names can be looked up from where a search for it starts. -/
theorem reaches_origin {path : Path} {text : Option String} {name : String} (hends : path.EndsIn name)
    (htight : path.isAbsolute = true ∨ Tight path.segments) (hnames : disk.NamesFile path text) :
    Reaches disk (splitSegments path.behindRoot) path.origin := by
  rcases hnames with ⟨-, hopens, hface, -⟩
  have hway : (disk.goal path.origin).way (stepsOf (splitSegments path.behindRoot)) = disk.way path := by
    rw [goal_origin, ← steps_eq_stepsOf_behindRoot]
    rfl
  have hgoal : (disk.goal path.origin).goal (stepsOf (splitSegments path.behindRoot)) =
      disk.goal path := by
    rw [goal_origin, ← steps_eq_stepsOf_behindRoot]
    rfl
  constructor
  case plain => exact fun s hs => slash_not_mem_of_mem_splitSegments hs
  case ends =>
    intro s hs
    have hname : name.toList = s := Option.some.inj (hends.behindRoot.symm.trans hs)
    exact hname ▸ hends.isName.counts
  case text => exact text_origin path
  case tight =>
    intro hdot
    have hrelative : path.isAbsolute = false := by
      by_contra habsolute
      simp [origin, habsolute] at hdot
    rw [behindRoot, hrelative]
    exact htight.resolve_left (by simp [hrelative])
  case isDirectory => exact fun _ => isDirectory?_origin hends hopens
  case way => exact fun spot hspot => hopens spot (hway ▸ hspot)
  case present => simp [hgoal, hface]

/-- A search for a text that names a file finds exactly one path to that file. -/
theorem found_plain {path : Path} {text : Option String} (hplain : Pattern.Plain path.text.toList)
    (htight : path.isAbsolute = true ∨ Tight path.segments) (hnames : disk.NamesFile path text) :
    ∃ search found, ofText? path.text = some search ∧ search.found disk = [found] ∧
      disk.NamesFile found text ∧ found.isAbsolute = path.isAbsolute ∧ found.steps = path.steps := by
  rcases hnames.endsIn with ⟨name, hends⟩
  rcases foundBelow_literals (reaches_origin hends htight hnames) with
    ⟨found, hfound, hfoundText, hfoundAbsolute, hfoundSteps, hfoundLast⟩
  rcases hnames with ⟨-, hopens, hface, -⟩
  have habsolute : found.isAbsolute = path.isAbsolute := hfoundAbsolute.trans (isAbsolute_origin path)
  have hsame : found.steps = path.steps := by
    rw [hfoundSteps, steps_origin, ← steps_eq_stepsOf_behindRoot, List.nil_append]
  have hfoundEnds : found.EndsIn name := by
    refine ⟨?_, hends.isName⟩
    rw [hfoundLast, hends.behindRoot]
    rfl
  have hfoundGoal : disk.goal found = disk.goal path := Disk.goal_congr habsolute hsame disk
  have hfoundWay : disk.way found = disk.way path := Disk.way_congr habsolute hsame disk
  refine ⟨_, found, ofText?_plain hplain hends, hfound, ?_, habsolute, hsame⟩
  refine ⟨hfoundText, ?_, hfoundGoal ▸ hface, hfoundEnds.endsInStep⟩
  intro spot hspot
  exact hopens spot (hfoundWay ▸ hspot)

/-- From the working directory an empty name leads nowhere. -/
theorem foundBelow_of_not_tight (h : ¬ Tight segments) :
    foundBelow disk false (segments.map Pattern.literal) ⟨"."⟩ = [] := by
  induction segments with
  | nil => exact absurd (by simp [Tight]) h
  | cons s rest ih =>
    rw [List.map_cons]
    by_cases hdot : s = ['.']
    · subst hdot
      rw [foundBelow_dots (Pattern.literal?_literal _) (.inl rfl)]
      split
      · exact ih fun hrest => h (tight_dot.2 hrest)
      · rfl
    · have hempty := eq_nil_of_not_tight h hdot
      subst hempty
      have hnowhere : ¬ (disk.isDirectory? (within ⟨"."⟩ (String.ofList []))).isSome = true :=
        fun hsome => (Disk.isDirectory?_isSome_iff.1 hsome).1 rfl
      rw [foundBelow_literal (Pattern.literal?_literal []) (by simp) (by simp), if_neg hnowhere]

/-- The condition on relative paths in `found_plain` is needed. -/
theorem found_of_not_tight {path : Path} {name : String} (hplain : Pattern.Plain path.text.toList)
    (hends : path.EndsIn name) (hrelative : path.isAbsolute = false) (htight : ¬ Tight path.segments)
    (disk : Disk) :
    ∃ search, ofText? path.text = some search ∧ search.found disk = [] := by
  refine ⟨_, ofText?_plain hplain hends, ?_⟩
  rw [found, origin, behindRoot, hrelative]
  exact foundBelow_of_not_tight htight

end Search

/-! ## Inputs that are looked up -/

namespace Inputs

open PipelineTree.Path

/-- A relative path of names without wildcards. -/
structure Ordinary (pattern : String) : Prop where
  names : ∀ s ∈ (Path.mk pattern).segments, IsName s
  plain : Pattern.Plain pattern.toList

theorem Ordinary.isAbsolute {pattern : String} (h : Ordinary pattern) :
    (Path.mk pattern).isAbsolute = false := by
  by_contra habsolute
  have hsegments := segments_of_isAbsolute (p := ⟨pattern⟩) (by simpa using habsolute)
  have hempty := (h.names [] (by simp [hsegments])).counts
  exact absurd hempty (by decide)

theorem Ordinary.fullPattern {pattern : String} (h : Ordinary pattern) (base : Path) :
    fullPattern base pattern = (base.join pattern).text := by
  rw [Inputs.fullPattern, h.isAbsolute]
  rfl

theorem Ordinary.isAbsolute_join {pattern : String} (h : Ordinary pattern) (base : Path) :
    (base.join pattern).isAbsolute = base.isAbsolute := by
  have hrelative : pattern.toList.head? ≠ some '/' := by
    have hfalse := h.isAbsolute
    rwa [Path.isAbsolute, beq_eq_false_iff_ne] at hfalse
  exact Path.isAbsolute_join base hrelative

/-- What is added to a text is plain if the text and the addition are. -/
theorem plain_join {base : Path} {below : String} (hbase : Pattern.Plain base.text.toList)
    (hbelow : Pattern.Plain below.toList) : Pattern.Plain (base.join below).text.toList := by
  intro c hc
  have hslash : '/' ≠ '?' ∧ '/' ≠ '*' ∧ '/' ≠ '[' := by decide
  have hmem : c ∈ base.text.toList ∨ c = '/' ∨ c ∈ below.toList := by
    rw [Path.join] at hc
    split at hc
    · exact .inr (.inr hc)
    · split at hc
      · simp only [String.toList_append, List.mem_append] at hc
        exact hc.imp_right .inr
      · simpa [or_assoc] using hc
  rcases hmem with hc | rfl | hc
  · exact hbase c hc
  · exact hslash
  · exact hbelow c hc

/-- A base that doubles the separator in the working directory hides every input below it. -/
theorem resolve_of_not_tight {base : Path} {pattern : String} {workspace : Workspace}
    (hpattern : Ordinary pattern) (hbase : Pattern.Plain base.text.toList)
    (hrelative : base.isAbsolute = false) (htight : ¬ Tight (base.join pattern).segments)
    (hfile : workspace.disk.isDirectory? (base.join pattern) = some false) :
    ((resolve [pattern] base).run.run workspace).1 = .error (.noInputFiles pattern) := by
  rcases Disk.isDirectory?_eq_false_iff.1 hfile with ⟨text, hnames⟩
  rcases hnames.endsIn with ⟨name, hends⟩
  rcases Search.found_of_not_tight (plain_join hbase hpattern.plain) hends
      ((hpattern.isAbsolute_join base).trans hrelative) htight workspace.disk with
    ⟨search, hsearch, hfound⟩
  rw [Script.run_fst, on_resolve, resolved, inputsOf, hpattern.fullPattern, hsearch]
  simp only [hfound]
  rfl

/--
A relative path without wildcards that names an input below a base finds exactly this input, if the base is
a path without wildcards and does not double the separator in the working directory (`resolve_of_not_tight`).
-/
theorem resolve_ordinary {base : Path} {pattern : String} {workspace : Workspace}
    (hpattern : Ordinary pattern) (hbase : Pattern.Plain base.text.toList)
    (htight : base.isAbsolute = true ∨ Tight (base.join pattern).segments)
    (hfile : workspace.disk.isDirectory? (base.join pattern) = some false)
    (hauthored : (base.join pattern).isAuthored = true) :
    ∃ found, ((resolve [pattern] base).run.run workspace).1 = .ok [found] ∧
      workspace.disk.resolve found = workspace.disk.resolve (base.join pattern) := by
  have hfull := hpattern.fullPattern base
  have habsolute := hpattern.isAbsolute_join base
  rcases Disk.isDirectory?_eq_false_iff.1 hfile with ⟨text, hnames⟩
  rcases Search.found_plain (plain_join hbase hpattern.plain) (habsolute ▸ htight) hnames with
    ⟨search, found, hsearch, hfound, hfoundNames, hfoundAbsolute, hfoundSteps⟩
  have hinput : workspace.disk.holdsInput found = true := by
    have hfoundFile := Disk.isDirectory?_eq_false_iff.2 ⟨text, hfoundNames⟩
    simp [Disk.holdsInput, hfoundFile, isAuthored_congr hfoundSteps, hauthored]
  have hinputs := inputsOf_of_found hfull hsearch hfound hinput
  refine ⟨found, ?_, ?_⟩
  · rw [Script.run_fst, on_resolve, resolved, hinputs]
    rfl
  · have hgoal : workspace.disk.goal found = workspace.disk.goal (base.join pattern) :=
      Disk.goal_congr hfoundAbsolute hfoundSteps workspace.disk
    rw [hfoundNames.resolve, hnames.resolve, hgoal]

/-- A workspace with one input, in a directory of the given name. -/
def projectIn (directory : String) : Workspace :=
  ⟨⟨.directory [(directory, .directory [("ci.yaml", .file (some "root: ~\n"))])], []⟩, []⟩

theorem ordinary_ci : Ordinary "ci.yaml" := by
  have hsegments : (Path.mk "ci.yaml").segments = ["ci.yaml".toList] := by decide
  refine ⟨?_, ?_⟩
  · intro s hs
    rw [hsegments, List.mem_singleton] at hs
    subst hs
    exact ⟨by decide, by decide, by decide⟩
  · simp [Pattern.Plain]

theorem resolve_ordinary_ci :
    ∃ found, ((resolve ["ci.yaml"] ⟨"/project"⟩).run.run (projectIn "project")).1 = .ok [found] ∧
      (projectIn "project").disk.resolve found =
        (projectIn "project").disk.resolve (Path.join ⟨"/project"⟩ "ci.yaml") := by
  have hplain : Pattern.Plain (Path.mk "/project").text.toList := by simp [Pattern.Plain]
  exact resolve_ordinary ordinary_ci hplain (.inl (by decide)) (by decide +kernel) (by decide +kernel)

/-- A bracket in the name of the base is taken for a wildcard, so that the input below it is not found. -/
theorem bracket_not_found :
    (projectIn "a[b]").disk.isDirectory? (Path.join ⟨"a[b]"⟩ "ci.yaml") = some false ∧
      (Path.join ⟨"a[b]"⟩ "ci.yaml").isAuthored = true ∧
      ((resolve ["ci.yaml"] ⟨"a[b]"⟩).run.run (projectIn "a[b]")).1 =
        .error (.noInputFiles "ci.yaml") := by
  let component : Pattern := [.char 'a', .within [.single 'b']]
  have hsearch : Search.ofText? "a[b]/ci.yaml" =
      some ⟨⟨"."⟩, [component, Pattern.literal "ci.yaml".toList], false⟩ := by decide +kernel
  have hdirectory : (projectIn "a[b]").disk.isDirectory? ⟨"."⟩ = some true := by decide +kernel
  have hlist : (projectIn "a[b]").disk.list ⟨"."⟩ = [.directory "a[b]" []] := by
    have hroot : (projectIn "a[b]").disk.get ⟨"."⟩ = .ok (projectIn "a[b]").disk.root := rfl
    rw [Disk.list, hroot]
    simp [Entry.contents, projectIn, Entry.sorted, Entry.stub, Entry.isHidden]
  have hdescribes : component.describes "a[b]" = false := by decide +kernel
  have hfound : Search.found (projectIn "a[b]").disk
      ⟨⟨"."⟩, [component, Pattern.literal "ci.yaml".toList], false⟩ = [] := by
    rw [Search.found, Search.foundBelow_list rfl hdirectory rfl, hlist]
    simp [Search.specialNames, Branch.name, hdescribes, component]
  have hfull : fullPattern ⟨"a[b]"⟩ "ci.yaml" = "a[b]/ci.yaml" := by decide +kernel
  refine ⟨by decide +kernel, by decide +kernel, ?_⟩
  rw [Script.run_fst, on_resolve, resolved, inputsOf, hfull, hsearch]
  simp only [hfound]
  rfl

end Inputs

end PipelineTree
