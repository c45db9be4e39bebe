import Mathlib.Data.List.Basic
import PipelineTree.Files.Output

/-!
# Segments — what joining paths and going up does to the steps of a path

The segments of a path that count are its steps: they alone say where it leads.  A path below another
one takes the steps of both in a row, and the path around a path takes all of its steps but the last.
What is generated from an input is called by a name of its own, with the marker in it.
-/

namespace PipelineTree

namespace Path

/-! ## Splitting and joining -/

theorem splitSegments_append_slash (xs ys : List Char) :
    splitSegments (xs ++ '/' :: ys) = splitSegments xs ++ splitSegments ys := by
  induction xs with
  | nil => simp [splitSegments]
  | cons c cs ih =>
    by_cases hc : c = '/'
    · simp [splitSegments, hc, ih]
    · cases hs : splitSegments cs with
      | nil => exact absurd hs (splitSegments_ne_nil cs)
      | cons s ss => simp [splitSegments, hc, ih, hs]

theorem splitSegments_of_not_mem {cs : List Char} (h : '/' ∉ cs) : splitSegments cs = [cs] := by
  induction cs with
  | nil => rfl
  | cons c cs ih =>
    have hparts : '/' ≠ c ∧ '/' ∉ cs := by simpa using h
    have hc : ¬c = '/' := fun heq => hparts.1 heq.symm
    simp [splitSegments, hc, ih hparts.2]

theorem slash_not_mem_of_mem_splitSegments {cs : List Char} {s : Segment}
    (hs : s ∈ splitSegments cs) : '/' ∉ s := by
  induction cs generalizing s with
  | nil =>
    have hempty : s = [] := by simpa [splitSegments] using hs
    simp [hempty]
  | cons c cs ih =>
    by_cases hc : c = '/'
    · have hcases : s = [] ∨ s ∈ splitSegments cs := by simpa [splitSegments, hc] using hs
      rcases hcases with hempty | hlater
      · simp [hempty]
      · exact ih hlater
    · cases hsplit : splitSegments cs with
      | nil => exact absurd hsplit (splitSegments_ne_nil cs)
      | cons t ts =>
        have hcases : s = c :: t ∨ s ∈ ts := by simpa [splitSegments, hc, hsplit] using hs
        rcases hcases with hfirst | hlater
        · have ht : '/' ∉ t := ih (by simp [hsplit])
          have hne : '/' ≠ c := fun heq => hc heq.symm
          simp [hfirst, ht, hne]
        · exact ih (by simp [hsplit, hlater])

theorem splitSegments_joinSegments {segments : List Segment} (hne : segments ≠ [])
    (h : ∀ s ∈ segments, '/' ∉ s) : splitSegments (joinSegments segments) = segments := by
  induction segments with
  | nil => exact absurd rfl hne
  | cons s ss ih =>
    have hs : '/' ∉ s := h s (by simp)
    cases ss with
    | nil => simpa [joinSegments] using splitSegments_of_not_mem hs
    | cons t ts =>
      have hrest : splitSegments (joinSegments (t :: ts)) = t :: ts :=
        ih (by simp) fun u hu => h u (by simp [List.mem_cons.1 hu])
      calc
        splitSegments (joinSegments (s :: t :: ts))
            = splitSegments (s ++ '/' :: joinSegments (t :: ts)) := rfl
        _ = splitSegments s ++ splitSegments (joinSegments (t :: ts)) :=
              splitSegments_append_slash s _
        _ = s :: t :: ts := by rw [splitSegments_of_not_mem hs, hrest]; rfl

theorem joinSegments_prefix (xs ys : List Segment) :
    joinSegments xs <+: joinSegments (xs ++ ys) := by
  induction xs with
  | nil => simp [joinSegments]
  | cons s ss ih =>
    cases ss with
    | nil => cases ys <;> simp [joinSegments]
    | cons t ts =>
      have hrest : joinSegments (t :: ts) <+: joinSegments (t :: ts ++ ys) := ih
      simpa [joinSegments] using hrest

/-! ## Steps -/

/-- The segments that count. -/
def stepsOf (segments : List Segment) : List Segment := segments.filter (!isIdle ·)

/-- The segments of a path that count. -/
def steps (p : Path) : List Segment := stepsOf p.segments

@[simp] theorem stepsOf_nil : stepsOf [] = [] := rfl

@[simp] theorem stepsOf_append (xs ys : List Segment) :
    stepsOf (xs ++ ys) = stepsOf xs ++ stepsOf ys := by
  simp [stepsOf]

theorem stepsOf_cons_idle {s : Segment} (h : isIdle s = true) (ss : List Segment) :
    stepsOf (s :: ss) = stepsOf ss := by
  simp [stepsOf, h]

theorem stepsOf_cons_step {s : Segment} (h : isIdle s = false) (ss : List Segment) :
    stepsOf (s :: ss) = s :: stepsOf ss := by
  simp [stepsOf, h]

theorem slash_not_mem_of_mem_steps {p : Path} {s : Segment} (hs : s ∈ p.steps) : '/' ∉ s :=
  slash_not_mem_of_mem_splitSegments (List.mem_of_mem_filter hs)

/-- A segment that may name a file. -/
structure IsName (s : Segment) : Prop where
  plain : '/' ∉ s
  counts : isIdle s = false
  down : s ≠ ['.', '.']

theorem IsName.splitSegments {s : Segment} (h : IsName s) : splitSegments s = [s] :=
  splitSegments_of_not_mem h.plain

theorem IsName.stepsOf {s : Segment} (h : IsName s) : stepsOf [s] = [s] :=
  stepsOf_cons_step h.counts []

theorem head?_ne_slash {cs : List Char} (h : '/' ∉ cs) : cs.head? ≠ some '/' := by
  intro hhead
  exact h (List.mem_of_head? hhead)

/-! ## Joining -/

/-- The text of a path without a separator at its end. -/
def trunk (p : Path) : List Char :=
  if p.text.toList.getLast? = some '/' then p.text.toList.dropLast else p.text.toList

theorem trunk_cases (p : Path) : p.text.toList = p.trunk ∨ p.text.toList = p.trunk ++ ['/'] := by
  by_cases hlast : p.text.toList.getLast? = some '/'
  · rcases List.getLast?_eq_some_iff.1 hlast with ⟨cs, hcs⟩
    exact .inr (by simp [trunk, hcs])
  · exact .inl (by simp [trunk, hlast])

theorem steps_eq_stepsOf_trunk (p : Path) : p.steps = stepsOf (splitSegments p.trunk) := by
  rcases trunk_cases p with htext | htext
  · rw [steps, segments, htext]
  · rw [steps, segments, htext, splitSegments_append_slash, stepsOf_append]
    simp [splitSegments, stepsOf, isIdle]

section

variable {below : String}

theorem join_of_empty {p : Path} (h : p.text = "") (below : String) : p.join below = ⟨below⟩ := by
  by_cases habsolute : below.toList.head? = some '/'
  · simp [join, habsolute]
  · simp [join, h]

theorem text_join {p : Path} (h : p.text ≠ "") (hbelow : below.toList.head? ≠ some '/') :
    (p.join below).text.toList = p.trunk ++ '/' :: below.toList := by
  have hrelative : (below.toList.head? == some '/') = false := by simpa using hbelow
  by_cases hlast : p.text.toList.getLast? = some '/'
  · rcases List.getLast?_eq_some_iff.1 hlast with ⟨cs, hcs⟩
    simp [join, trunk, hrelative, hcs]
  · simp [join, trunk, hrelative, h, hlast]

theorem steps_join (p : Path) (hbelow : below.toList.head? ≠ some '/') :
    (p.join below).steps = p.steps ++ stepsOf (splitSegments below.toList) := by
  by_cases hempty : p.text = ""
  · have hsteps : p.steps = [] := by simp [steps, segments, hempty, splitSegments, stepsOf, isIdle]
    rw [join_of_empty hempty, hsteps]
    rfl
  · rw [steps, segments, text_join hempty hbelow, splitSegments_append_slash, stepsOf_append,
      steps_eq_stepsOf_trunk p]

theorem isAbsolute_join (p : Path) (hbelow : below.toList.head? ≠ some '/') :
    (p.join below).isAbsolute = p.isAbsolute := by
  by_cases hempty : p.text = ""
  · have hrelative : (below.toList.head? == some '/') = false := by simpa using hbelow
    rw [join_of_empty hempty, isAbsolute, isAbsolute, hempty]
    exact hrelative
  · rw [isAbsolute, isAbsolute, text_join hempty hbelow]
    have hne : p.text.toList ≠ [] := by simpa using hempty
    -- The text of the path begins like its trunk, unless it is a separator and nothing else.
    rcases trunk_cases p with htext | htext
    · rw [htext] at hne ⊢
      cases htrunk : p.trunk with
      | nil => exact absurd htrunk hne
      | cons c cs => rfl
    · rw [htext]
      cases p.trunk <;> rfl

theorem getLast?_segments_join (p : Path) (hbelow : below.toList.head? ≠ some '/') :
    (p.join below).segments.getLast? = (splitSegments below.toList).getLast? := by
  by_cases hempty : p.text = ""
  · rw [join_of_empty hempty]
    rfl
  · rw [segments, text_join hempty hbelow, splitSegments_append_slash,
      List.getLast?_append_of_ne_nil _ (splitSegments_ne_nil below.toList)]

end

/-! ## Components -/

/-- The component that a step is. -/
def Component.ofStep (s : Segment) : Component :=
  if s = ['.', '.'] then .parent else .name (String.ofList s)

/-- The component that the front of a path is. -/
def Component.ofFront (c : Char) : Component := if c = '/' then .root else .current

theorem filterMap_ofSegment? (segments : List Segment) :
    segments.filterMap Component.ofSegment? = (stepsOf segments).map Component.ofStep := by
  induction segments with
  | nil => rfl
  | cons s ss ih =>
    cases hs : isIdle s with
    | true =>
      have hnone : Component.ofSegment? s = none := by simp [Component.ofSegment?, hs]
      rw [List.filterMap_cons_none hnone, ih, stepsOf_cons_idle hs]
    | false =>
      have hsome : Component.ofSegment? s = some (.ofStep s) := by
        simp only [Component.ofSegment?, Component.ofStep, hs, Bool.false_eq_true, if_false, beq_iff_eq]
        split <;> rfl
      rw [List.filterMap_cons_some hsome, ih, stepsOf_cons_step hs, List.map_cons]

/-- A path is made of its front and its steps. -/
theorem components_eq (p : Path) :
    p.components = p.front.map Component.ofFront ++ p.steps.map Component.ofStep := by
  simp only [components, filterMap_ofSegment?, front]
  split
  · rfl
  · split <;> rfl

/-- The file name of a path is its last step, unless that leads up. -/
theorem fileName?_eq_some_iff {p : Path} {name : String} :
    p.fileName? = some name ↔ p.steps.getLast? = some name.toList ∧ name.toList ≠ ['.', '.'] := by
  rw [fileName?, components_eq]
  cases hlast : p.steps.getLast? with
  | none =>
    -- What is in front names nothing.
    have hsteps : p.steps = [] := List.getLast?_eq_none_iff.1 hlast
    rw [hsteps, List.map_nil, List.append_nil, List.getLast?_map]
    cases p.front.getLast? with
    | none => simp
    | some c => by_cases hc : c = '/' <;> simp [Component.ofFront, hc]
  | some s =>
    have hmap : (p.steps.map Component.ofStep).getLast? = some (.ofStep s) := by
      simp [List.getLast?_map, hlast]
    rw [List.getLast?_append, hmap, Option.some_or]
    by_cases hup : s = ['.', '.']
    · simp only [Component.ofStep, hup, if_true, reduceCtorEq, false_iff, not_and, not_not, Option.some.injEq]
      exact fun heq => heq.symm
    · simp only [Component.ofStep, hup, if_false, Option.some.injEq]
      constructor
      · intro heq
        have hs : s = name.toList := by rw [← heq, String.toList_ofList]
        exact ⟨hs, hs ▸ hup⟩
      · rintro ⟨hs, -⟩
        rw [hs, String.ofList_toList]

/-! ## Going up -/

/-- What stands behind the front of a path. -/
def behindFront (p : Path) : List Char := p.text.toList.drop p.front.length

/-- A dot in front is a segment of its own, so a separator follows it. -/
theorem text_eq_dot {p : Path} (h : p.segments.head? = some ['.']) :
    p.text.toList = ['.'] ∨ ∃ cs, p.text.toList = '.' :: '/' :: cs := by
  rw [segments] at h
  cases htext : p.text.toList with
  | nil => simp [htext, splitSegments] at h
  | cons c cs =>
    rw [htext] at h
    by_cases hc : c = '/'
    · simp [splitSegments, hc] at h
    · cases cs with
      | nil =>
        have hdot : c = '.' := by simpa [splitSegments, hc] using h
        exact .inl (by rw [hdot])
      | cons d ds =>
        by_cases hd : d = '/'
        · have hdot : c = '.' := by simpa [splitSegments, hc, hd] using h
          exact .inr ⟨ds, by rw [hdot, hd]⟩
        · cases hs : splitSegments ds with
          | nil => exact absurd hs (splitSegments_ne_nil ds)
          | cons s ss => simp [splitSegments, hc, hd, hs] at h

/-- The front of a path is nothing, the root, or a dot that is a segment of its own. -/
theorem front_cases (p : Path) :
    p.text.toList = p.front ++ p.behindFront ∧
      ((p.front = [] ∧ p.isAbsolute = false) ∨ (p.front = ['/'] ∧ p.isAbsolute = true) ∨
        (p.front = ['.'] ∧ p.isAbsolute = false ∧
          (p.behindFront = [] ∨ ∃ cs, p.behindFront = '/' :: cs))) := by
  cases habsolute : p.isAbsolute with
  | true =>
    have hfront : p.front = ['/'] := by simp [front, habsolute]
    have hhead : p.text.toList.head? = some '/' := by simpa [isAbsolute] using habsolute
    rcases List.head?_eq_some_iff.1 hhead with ⟨cs, hcs⟩
    have hbehind : p.behindFront = cs := by simp [behindFront, hfront, hcs]
    exact ⟨by simp [hfront, hbehind, hcs], .inr (.inl ⟨hfront, rfl⟩)⟩
  | false =>
    by_cases hdot : p.segments.head? = some ['.']
    · have hfront : p.front = ['.'] := by simp [front, habsolute, hdot]
      rcases text_eq_dot hdot with htext | ⟨cs, htext⟩
      · have hbehind : p.behindFront = [] := by simp [behindFront, hfront, htext]
        exact ⟨by simp [hfront, hbehind, htext], .inr (.inr ⟨hfront, rfl, .inl hbehind⟩)⟩
      · have hbehind : p.behindFront = '/' :: cs := by simp [behindFront, hfront, htext]
        exact ⟨by simp [hfront, hbehind, htext], .inr (.inr ⟨hfront, rfl, .inr ⟨cs, hbehind⟩⟩)⟩
    · have hfront : p.front = [] := by simp [front, habsolute, hdot]
      exact ⟨by simp [hfront, behindFront], .inl ⟨hfront, rfl⟩⟩

/-- The front of a path holds no steps. -/
theorem stepsOf_front {front cs : List Char}
    (h : front = [] ∨ front = ['/'] ∨ (front = ['.'] ∧ (cs = [] ∨ ∃ ds, cs = '/' :: ds))) :
    stepsOf (splitSegments (front ++ cs)) = stepsOf (splitSegments cs) := by
  rcases h with rfl | rfl | ⟨rfl, rfl | ⟨ds, rfl⟩⟩
  · rfl
  · simp [splitSegments, stepsOf, isIdle]
  · decide
  · simp [splitSegments, stepsOf, isIdle]

theorem steps_eq_stepsOf_behindFront (p : Path) :
    p.steps = stepsOf (splitSegments p.behindFront) := by
  rcases front_cases p with ⟨htext, hcases⟩
  rw [steps, segments, htext]
  apply stepsOf_front
  rcases hcases with ⟨hfront, -⟩ | ⟨hfront, -⟩ | ⟨hfront, -, hbehind⟩
  · exact .inl hfront
  · exact .inr (.inl hfront)
  · exact .inr (.inr ⟨hfront, hbehind⟩)

theorem stepsOf_reverse_dropIdle (segments : List Segment) :
    stepsOf (dropIdle segments).reverse = stepsOf segments.reverse := by
  induction segments with
  | nil => rfl
  | cons s ss ih =>
    cases hs : isIdle s with
    | true =>
      have hdrop : dropIdle (s :: ss) = dropIdle ss := by simp [dropIdle, hs]
      rw [hdrop, ih, List.reverse_cons, stepsOf_append, stepsOf_cons_idle hs]
      simp
    | false =>
      have hdrop : dropIdle (s :: ss) = s :: ss := by simp [dropIdle, hs]
      rw [hdrop]

theorem dropIdle_suffix (segments : List Segment) : dropIdle segments <:+ segments :=
  List.dropWhile_suffix _

theorem stepsOf_splitSegments_joinSegments {segments : List Segment} (h : ∀ s ∈ segments, '/' ∉ s) :
    stepsOf (splitSegments (joinSegments segments)) = stepsOf segments := by
  cases segments with
  | nil => decide
  | cons s ss => rw [splitSegments_joinSegments (by simp) h]

/-- The path that some of the segments behind a front make. -/
def ofFront (front : List Char) (segments : List Segment) : Path :=
  ⟨String.ofList (front ++ joinSegments segments)⟩

theorem slash_not_mem_of_behindFront {p : Path} {xs ys : List Segment}
    (h : splitSegments p.behindFront = xs ++ ys) : ∀ s ∈ xs, '/' ∉ s := by
  intro s hs
  exact slash_not_mem_of_mem_splitSegments (by rw [h]; exact List.mem_append_left ys hs)

theorem joinSegments_prefix_behindFront {p : Path} {xs ys : List Segment}
    (h : splitSegments p.behindFront = xs ++ ys) : joinSegments xs <+: p.behindFront := by
  have hjoin := joinSegments_prefix xs ys
  rwa [← h, joinSegments_splitSegments] at hjoin

/-- Behind a dot in front, the first of the segments is empty. -/
theorem joinSegments_of_dot {p : Path} {xs ys : List Segment} (h : splitSegments p.behindFront = xs ++ ys)
    (hbehind : p.behindFront = [] ∨ ∃ cs, p.behindFront = '/' :: cs) :
    joinSegments xs = [] ∨ ∃ cs, joinSegments xs = '/' :: cs := by
  rcases joinSegments_prefix_behindFront h with ⟨rest, hrest⟩
  cases hjoin : joinSegments xs with
  | nil => exact .inl rfl
  | cons c cs =>
    rcases hbehind with hbehind | ⟨ds, hbehind⟩
    · simp [hjoin, hbehind] at hrest
    · have hc : c = '/' := by
        rw [hjoin, hbehind] at hrest
        exact (List.cons.inj hrest).1
      exact .inr ⟨cs, by rw [hc]⟩

/-- Segments from the front of a path make a path that starts where it starts. -/
theorem ofFront_spec {p : Path} {xs ys : List Segment}
    (h : splitSegments p.behindFront = xs ++ ys) :
    (ofFront p.front xs).text.toList <+: p.text.toList ∧
      (ofFront p.front xs).isAbsolute = p.isAbsolute ∧
      (ofFront p.front xs).steps = stepsOf xs := by
  rcases front_cases p with ⟨htext, hcases⟩
  have hstart := joinSegments_prefix_behindFront h
  have htoList : (ofFront p.front xs).text.toList = p.front ++ joinSegments xs := by
    simp [ofFront]
  refine ⟨?_, ?_, ?_⟩
  · rw [htoList, htext]
    exact (List.prefix_append_right_inj _).2 hstart
  · rw [isAbsolute, htoList]
    rcases hcases with ⟨hfront, habsolute⟩ | ⟨hfront, habsolute⟩ | ⟨hfront, habsolute, -⟩
    · -- Without a front, the new path begins like the old one, or is empty.
      rw [habsolute]
      cases hjoin : joinSegments xs with
      | nil => simp [hfront]
      | cons c cs =>
        rcases hstart with ⟨rest, hrest⟩
        have hhead : p.text.toList.head? = some c := by
          rw [htext, hfront, ← hrest, hjoin]
          rfl
        have hc : (some c == some '/') = false := by rw [← hhead]; exact habsolute
        simpa [hfront] using hc
    · simp [hfront, habsolute]
    · simp [hfront, habsolute]
  · rw [steps, segments, htoList]
    have hfront : stepsOf (splitSegments (p.front ++ joinSegments xs)) =
        stepsOf (splitSegments (joinSegments xs)) := by
      apply stepsOf_front
      rcases hcases with ⟨hfront, -⟩ | ⟨hfront, -⟩ | ⟨hfront, -, hbehind⟩
      · exact .inl hfront
      · exact .inr (.inl hfront)
      · exact .inr (.inr ⟨hfront, joinSegments_of_dot h hbehind⟩)
    rw [hfront, stepsOf_splitSegments_joinSegments (slash_not_mem_of_behindFront h)]

/-- The last step of a path splits its segments. -/
theorem bodySegments_cases (p : Path) :
    (dropIdle p.bodySegments = [] ∧ p.steps = []) ∨
      ∃ last before, dropIdle p.bodySegments = last :: before ∧
        p.steps = stepsOf before.reverse ++ [last] ∧
        ∃ ys, splitSegments p.behindFront = (dropIdle before).reverse ++ ys := by
  have hbody : p.bodySegments = (splitSegments p.behindFront).reverse := rfl
  have hsteps : p.steps = stepsOf (dropIdle p.bodySegments).reverse := by
    rw [stepsOf_reverse_dropIdle, hbody, List.reverse_reverse]
    exact steps_eq_stepsOf_behindFront p
  cases hdrop : dropIdle p.bodySegments with
  | nil => exact .inl ⟨rfl, by simp [hsteps, hdrop]⟩
  | cons last before =>
    refine .inr ⟨last, before, rfl, ?_, ?_⟩
    · have hhead := List.head?_dropWhile_not isIdle p.bodySegments
      have hcounts : isIdle last = false := by
        rw [show List.dropWhile isIdle p.bodySegments = last :: before from hdrop] at hhead
        exact hhead
      rw [hsteps, hdrop, List.reverse_cons, stepsOf_append, stepsOf_cons_step hcounts, stepsOf_nil]
    · have hbefore : dropIdle before <:+ dropIdle p.bodySegments := by
        rw [hdrop]
        exact (dropIdle_suffix before).trans (List.suffix_cons last before)
      have hsuffix : dropIdle before <:+ p.bodySegments :=
        hbefore.trans (dropIdle_suffix p.bodySegments)
      rcases hsuffix with ⟨front, hfront⟩
      refine ⟨front.reverse, ?_⟩
      have hreverse := congrArg List.reverse hfront
      simpa [hbody] using hreverse.symm

/-- The path around a path starts where it starts, is shorter, and lacks the last step. -/
theorem parent?_spec {p q : Path} (h : p.parent? = some q) :
    q.isAbsolute = p.isAbsolute ∧ q.text.length < p.text.length ∧
      ((q.text = "" ∧ p.steps = []) ∨ ∃ last, p.steps = q.steps ++ [last]) := by
  rcases bodySegments_cases p with ⟨hdrop, hsteps⟩ | ⟨last, before, hdrop, hsteps, ys, hbehind⟩
  · -- Only a dot in front has something around it then.
    by_cases hfront : p.front = ['.']
    · have hq : q = ⟨""⟩ := by
        rw [parent?, hdrop] at h
        simpa [hfront] using h.symm
      rcases front_cases p with ⟨htext, hcases⟩
      have habsolute : p.isAbsolute = false := by
        rcases hcases with ⟨-, hrelative⟩ | ⟨hroot, -⟩ | ⟨-, hrelative, -⟩
        · exact hrelative
        · simp [hfront] at hroot
        · exact hrelative
      have hlength : 0 < p.text.length := by
        rw [← String.length_toList, htext, hfront]
        simp
      refine ⟨?_, ?_, .inl ⟨by rw [hq], hsteps⟩⟩
      · rw [hq, habsolute]
        rfl
      · rw [hq]
        exact hlength
    · rw [parent?, hdrop] at h
      simp [hfront] at h
  · have hq : q = ofFront p.front (dropIdle before).reverse := by
      rw [parent?, hdrop] at h
      exact (Option.some.inj h).symm
    rcases ofFront_spec hbehind with ⟨hstart, habsolute, hfrontSteps⟩
    have hstepsq : q.steps = stepsOf before.reverse := by
      rw [hq, hfrontSteps, stepsOf_reverse_dropIdle]
    have hstepsp : p.steps = q.steps ++ [last] := by rw [hstepsq, hsteps]
    refine ⟨by rw [hq, habsolute], ?_, .inr ⟨last, hstepsp⟩⟩
    -- A prefix of the same length would be the whole path, which has more steps.
    rw [← String.length_toList, ← String.length_toList, hq]
    refine Nat.lt_of_le_of_ne hstart.length_le ?_
    intro hlength
    have hwhole : q.text = p.text := by
      rw [hq]
      exact String.toList_inj.1 (hstart.eq_of_length hlength)
    have hsame : q.steps = p.steps := by simp [steps, segments, hwhole]
    rw [hsame] at hstepsp
    simpa using congrArg List.length hstepsp

theorem parent?_isSome {p : Path} (h : p.steps ≠ []) : ∃ q, p.parent? = some q := by
  rcases bodySegments_cases p with ⟨-, hsteps⟩ | ⟨last, before, hdrop, -⟩
  · exact absurd hsteps h
  · exact ⟨_, by rw [parent?, hdrop]⟩

/-- A file in a directory starts where the directory starts. -/
theorem front_join {p : Path} {name : String} (hname : IsName name.toList) :
    (p.join name).front = p.front := by
  have hrelative := head?_ne_slash hname.plain
  by_cases hempty : p.text = ""
  · have hdot : name.toList ≠ ['.'] := by
      intro heq
      have hidle := hname.counts
      rw [heq] at hidle
      exact absurd hidle (by decide)
    rw [join_of_empty hempty]
    simp [front, isAbsolute, segments, hempty, hname.splitSegments, splitSegments, hdot, hrelative]
  · have htrunk := splitSegments_ne_nil p.trunk
    have hhead : (p.join name).segments.head? = p.segments.head? := by
      rw [segments, text_join hempty hrelative, splitSegments_append_slash, List.head?_append_of_ne_nil _ htrunk]
      rcases trunk_cases p with htext | htext
      · rw [segments, htext]
      · rw [segments, htext, splitSegments_append_slash, List.head?_append_of_ne_nil _ htrunk]
    rw [front, front, isAbsolute_join p hrelative, hhead]

/-- In front of the name of a file in a directory stands nothing but what the directory says. -/
theorem exists_bodySegments_join (p : Path) :
    ∃ before, ∀ name : String, IsName name.toList → (p.join name).bodySegments = name.toList :: before := by
  have hbody {name : String} (hname : IsName name.toList) : (p.join name).bodySegments =
      (splitSegments ((p.join name).text.toList.drop p.front.length)).reverse := by
    rw [bodySegments, front_join hname]
  by_cases hempty : p.text = ""
  · refine ⟨[], fun name hname => ?_⟩
    have hfront : p.front = [] := by simp [front, isAbsolute, segments, hempty, splitSegments]
    rw [hbody hname, hfront, join_of_empty hempty]
    simp [hname.splitSegments]
  · have hlength : p.front.length ≤ 1 := by
      rw [front]
      split
      · simp
      · split <;> simp
    cases htrunk : p.trunk with
    | nil =>
      -- Only the root has no trunk.
      refine ⟨[], fun name hname => ?_⟩
      have htext : p.text.toList = ['/'] := by
        have hne : p.text.toList ≠ [] := by simpa using hempty
        simpa [htrunk, hne] using trunk_cases p
      have hfront : p.front = ['/'] := by simp [front, isAbsolute, htext]
      rw [hbody hname, hfront, text_join hempty (head?_ne_slash hname.plain), htrunk]
      simp [hname.splitSegments]
    | cons c cs =>
      refine ⟨(splitSegments ((c :: cs).drop p.front.length)).reverse, fun name hname => ?_⟩
      have hdrop : (c :: cs ++ '/' :: name.toList).drop p.front.length =
          (c :: cs).drop p.front.length ++ '/' :: name.toList :=
        List.drop_append_of_le_length (by simpa using Nat.le_trans hlength (Nat.le_add_left 1 _))
      rw [hbody hname, text_join hempty (head?_ne_slash hname.plain), htrunk, hdrop, splitSegments_append_slash,
        hname.splitSegments]
      simp

/-- The path around a file in a directory does not depend on how the file is called. -/
theorem parent?_join {p : Path} {name other : String} (hname : IsName name.toList)
    (hother : IsName other.toList) : (p.join name).parent? = (p.join other).parent? := by
  rcases exists_bodySegments_join p with ⟨before, hbody⟩
  have hparent : ∀ {name : String}, IsName name.toList → (p.join name).parent? =
      some (ofFront p.front (dropIdle before).reverse) := by
    intro name hname
    have hdrop : dropIdle (name.toList :: before) = name.toList :: before := by
      simp [dropIdle, hname.counts]
    rw [parent?, front_join hname, hbody name hname, hdrop]
    rfl
  rw [hparent hname, hparent hother]

/-! ## Names of what is generated -/

/-- The name of the document generated from an input. -/
def outputName (input : Path) (extension : String) : String :=
  documentName (input.stem?.getD "") extension

/-- The directory of an input, where documents go unless they are sent elsewhere. -/
def folder (input : Path) : Path := if input.fileName?.isSome then input.parent?.getD input else input

theorem destination_eq_join (input : Path) (name : String) (directory : Option Path) :
    input.destination name directory = (directory.getD input.folder).join name := by
  cases directory <;> rfl

theorem output_eq_join (input : Path) (extension : String) (directory : Option Path) :
    input.output extension directory =
      (directory.getD input.folder).join (input.outputName extension) :=
  destination_eq_join input _ directory

theorem mem_splitName {name : String} {c : Char} (h : c ∈ (splitName name).1.toList) :
    c ∈ name.toList := by
  have hsuffix : name.toList.reverse.dropWhile (· != '.') <:+ name.toList.reverse :=
    List.dropWhile_suffix _
  rw [splitName] at h
  split at h
  next dot before hdrop =>
    split at h
    · exact h
    · have hbefore : c ∈ before := by simpa using h
      rw [hdrop] at hsuffix
      exact List.mem_reverse.1 (hsuffix.subset (List.mem_cons_of_mem dot hbefore))
  next => exact h

theorem slash_not_mem_stem (input : Path) : '/' ∉ (input.stem?.getD "").toList := by
  cases hname : input.fileName? with
  | none => simp [stem?, hname]
  | some name =>
    intro hslash
    have hmem : '/' ∈ name.toList := mem_splitName (by simpa [stem?, hname] using hslash)
    have hstep : name.toList ∈ input.steps :=
      List.mem_of_getLast? (fileName?_eq_some_iff.1 hname).1
    exact slash_not_mem_of_mem_steps hstep hmem

theorem isName_outputName {input : Path} {extension : String} (h : '/' ∉ extension.toList) :
    IsName (input.outputName extension).toList := by
  have hlength : 11 ≤ (input.outputName extension).toList.length := by
    have hmarker : (".generated." : String).toList.length = 11 := rfl
    rw [outputName, documentName, String.toList_append, String.toList_append, List.length_append,
      List.length_append, hmarker]
    omega
  refine ⟨?_, ?_, ?_⟩
  · have hstem := slash_not_mem_stem input
    simp [outputName, documentName, hstem, h]
  · rw [isIdle, Bool.or_eq_false_iff]
    constructor
    · rw [beq_eq_false_iff_ne]
      intro heq
      simp [heq] at hlength
    · rw [beq_eq_false_iff_ne]
      intro heq
      simp [heq] at hlength
  · intro heq
    simp [heq] at hlength

/-- Whether a name has the marker of what is generated. -/
def isMarked (name : String) : Bool := occurs generatedMarker name.toList

theorem isMarked_outputName (input : Path) (extension : String) :
    isMarked (input.outputName extension) = true := by
  have htext : (input.outputName extension).toList =
      (input.stem?.getD "").toList ++ generatedMarker ++ extension.toList := by
    rw [outputName, documentName, String.toList_append, String.toList_append]
    unfold generatedMarker
    with_reducible rfl
  rw [isMarked, htext]
  exact occurs_append generatedMarker _ _

end Path

end PipelineTree
