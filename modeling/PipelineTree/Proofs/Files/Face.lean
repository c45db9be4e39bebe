import PipelineTree.Files.Workspace
import PipelineTree.Proofs.Files.Segments
import PipelineTree.Proofs.Value.Entries

/-!
# Face — what stands at each spot of a disk

The face of a spot is a file with its text, or a directory, whatever is in it.  A path leads to a spot that
its steps alone determine, if the spots on its way are directories, and all answers about a path follow
from the faces on its way and at its end.  Writing a file and making a directory each change one face.
-/

namespace PipelineTree

/-- What stands at a spot: a file with its text, or a directory. -/
inductive Face where
  | file (text : Option String)
  | directory
  deriving DecidableEq, Repr

/-! ## Faces in a tree -/

namespace Entry

def face : Entry → Face
  | .file text => .file text
  | .directory _ => .directory

theorem find?_append (entry : Entry) (xs ys : List String) :
    entry.find? (xs ++ ys) = (entry.find? xs).bind (·.find? ys) := by
  induction xs generalizing entry with
  | nil => simp [find?]
  | cons name names ih =>
    cases entry with
    | file text => simp [find?]
    | directory entries =>
      cases hlookup : entries.lookup name with
      | none => simp [find?, hlookup]
      | some inner => simp [find?, hlookup, ih]

/-- The face under names, if there is something. -/
def face? (entry : Entry) (names : List String) : Option Face := (entry.find? names).map face

/-- An entry with nothing below it. -/
def IsLeaf (entry : Entry) : Prop := ∀ name names, entry.find? (name :: names) = none

theorem isLeaf_file (text : Option String) : IsLeaf (.file text) := fun _ _ => rfl

theorem isLeaf_directory : IsLeaf (.directory []) := fun _ _ => rfl

theorem face?_of_isLeaf {entry : Entry} (h : entry.IsLeaf) (names : List String) :
    entry.face? names = if names = [] then some entry.face else none := by
  cases names with
  | nil => rfl
  | cons name names => simp [face?, h name names]

/-- Below what is no directory there is nothing. -/
theorem face?_below {entry : Entry} (h : entry.face ≠ .directory) (name : String)
    (names : List String) : entry.face? (name :: names) = none := by
  cases entry with
  | file text => rfl
  | directory entries => exact absurd rfl h

theorem face?_directory_cons (entries : List (String × Entry)) (name : String)
    (names : List String) :
    face? (.directory entries) (name :: names) = (entries.lookup name).bind (·.face? names) := by
  cases hlookup : entries.lookup name <;> simp [face?, find?, hlookup]

theorem face?_insert (inner : Entry) (entries : List (String × Entry)) (first name : String)
    (names : List String) :
    face? (.directory (Entries.insert first inner entries)) (name :: names) =
      if name = first then inner.face? names else face? (.directory entries) (name :: names) := by
  rw [face?_directory_cons, face?_directory_cons, Entries.lookup_insert]
  by_cases hname : name = first
  · simp [hname]
  · simp [hname]

/-- What takes the place of a file or of nothing has nothing below it, and neither had what was there. -/
theorem face?_leaf {new : Entry} (hleaf : new.IsLeaf) {entries : List (String × Entry)} {name : String}
    (hfree : face? (.directory entries) [name] ≠ some .directory) (names : List String) :
    new.face? names =
      if names = [] then some new.face else face? (.directory entries) (name :: names) := by
  rw [face?_of_isLeaf hleaf]
  cases names with
  | nil => rfl
  | cons first rest =>
    rw [face?_directory_cons] at hfree ⊢
    cases hlookup : entries.lookup name with
    | none => rfl
    | some inner =>
      -- What stood here was no directory, so that there was nothing below it.
      have hinner : inner.face ≠ .directory := by simpa [hlookup, face?, find?] using hfree
      simp [face?_below hinner]

theorem put_one (new : Entry) (name : String) (entries : List (String × Entry)) :
    put new [name] (.directory entries) = .directory (Entries.insert name new entries) := by
  cases hlookup : entries.lookup name <;> simp [put, hlookup]

/-- Putting something in a directory changes one face, if it takes the place of a file or of nothing. -/
theorem face?_put {new : Entry} (hleaf : new.IsLeaf) {before : List String} {name : String}
    {entry : Entry} (hparent : entry.face? before = some .directory)
    (hfree : entry.face? (before ++ [name]) ≠ some .directory) (names : List String) :
    (put new (before ++ [name]) entry).face? names =
      if names = before ++ [name] then some new.face else entry.face? names := by
  induction before generalizing entry names with
  | nil =>
    cases entry with
    | file text => simp [face?, find?, face] at hparent
    | directory entries =>
      rw [List.nil_append, put_one]
      cases names with
      | nil => simp [face?, find?, face]
      | cons n ns =>
        rw [face?_insert, face?_leaf hleaf hfree]
        by_cases hn : n = name
        · simp [hn]
        · simp [hn]
  | cons first rest ih =>
    cases entry with
    | file text => simp [face?, find?] at hparent
    | directory entries =>
      rw [List.cons_append] at hfree ⊢
      rw [face?_directory_cons] at hparent hfree
      cases hlookup : entries.lookup first with
      | none => simp [hlookup] at hparent
      | some inner =>
        have hput : put new (first :: (rest ++ [name])) (.directory entries) =
            .directory (Entries.insert first (put new (rest ++ [name]) inner) entries) := by
          simp [put, hlookup]
        have hparentInner : inner.face? rest = some .directory := by simpa [hlookup] using hparent
        have hfreeInner : inner.face? (rest ++ [name]) ≠ some .directory := by
          simpa [hlookup] using hfree
        rw [hput]
        cases names with
        | nil => simp [face?, find?, face]
        | cons n ns =>
          rw [face?_insert, ih hparentInner hfreeInner]
          by_cases hn : n = first
          · simp [hn, face?_directory_cons, hlookup]
          · simp [hn]

end Entry

/-! ## The way of a path -/

namespace Spot

/-- The spot that a step leads to. -/
def step (spot : Spot) (s : Path.Segment) : Spot :=
  if s = ['.', '.'] then spot.drop 1 else String.ofList s :: spot

/-- The spot that steps lead to. -/
def goal (spot : Spot) (steps : List Path.Segment) : Spot := steps.foldl step spot

/-- The spots that steps lead out of, in order. -/
def way (spot : Spot) : List Path.Segment → List Spot
  | [] => []
  | s :: ss => spot :: way (spot.step s) ss

theorem goal_append (spot : Spot) (xs ys : List Path.Segment) :
    goal spot (xs ++ ys) = goal (goal spot xs) ys := by
  simp [goal]

theorem way_append (spot : Spot) (xs ys : List Path.Segment) :
    way spot (xs ++ ys) = way spot xs ++ way (goal spot xs) ys := by
  induction xs generalizing spot with
  | nil => rfl
  | cons s ss ih => simp [way, goal, ih]

theorem step_name (spot : Spot) {s : Path.Segment} (h : s ≠ ['.', '.']) :
    spot.step s = String.ofList s :: spot := if_neg h

end Spot

namespace Disk

variable {disk : Disk} {path : Path} {spot : Spot}

/-- The face of a spot, if there is something. -/
def face? (disk : Disk) (spot : Spot) : Option Face := (disk.entry? spot).map Entry.face

/-- The spot that a path leads to, if it leads anywhere. -/
def goal (disk : Disk) (path : Path) : Spot := (disk.startOf path).goal path.steps

/-- The spots that a path leads out of. -/
def way (disk : Disk) (path : Path) : List Spot := (disk.startOf path).way path.steps

/-- All spots that a path leads out of are directories. -/
def Opens (disk : Disk) (path : Path) : Prop :=
  ∀ spot ∈ disk.way path, disk.face? spot = some .directory

theorem face?_eq (disk : Disk) (spot : Spot) : disk.face? spot = disk.root.face? spot.reverse := rfl

theorem face?_cons (disk : Disk) (name : String) (spot : Spot) :
    disk.face? (name :: spot) =
      match disk.entry? spot with
      | some (.directory entries) => (entries.lookup name).map Entry.face
      | _ => none := by
  have hfind : disk.entry? (name :: spot) = (disk.entry? spot).bind (·.find? [name]) := by
    rw [ entry?, entry?, List.reverse_cons, Entry.find?_append]
  rw [face?, hfind]
  cases disk.entry? spot with
  | none => rfl
  | some entry =>
    cases entry with
    | file text => rfl
    | directory entries => cases hlookup : entries.lookup name <;> simp [Entry.find?, hlookup]

theorem face?_eq_directory_iff :
    disk.face? spot = some .directory ↔ ∃ entries, disk.entry? spot = some (.directory entries) := by
  rw [face?]
  cases disk.entry? spot with
  | none => simp
  | some entry => cases entry <;> simp [Entry.face]

/-- What stands anywhere stands in a directory. -/
theorem face?_tail {name : String} (h : disk.face? (name :: spot) ≠ none) :
    disk.face? spot = some .directory := by
  rw [face?_cons] at h
  rw [face?_eq_directory_iff]
  cases hentry : disk.entry? spot with
  | none => simp [hentry] at h
  | some entry =>
    cases entry with
    | file text => simp [hentry] at h
    | directory entries => exact ⟨entries, rfl⟩

theorem face?_drop (h : disk.face? spot = some .directory) :
    disk.face? (spot.drop 1) = some .directory := by
  cases spot with
  | nil => exact h
  | cons name spot =>
    have hpresent : disk.face? (name :: spot) ≠ none := by
      rw [h]
      simp
    exact face?_tail hpresent

/-- Where segments end there is something, and a directory if the last one does not count. -/
def Stands (disk : Disk) (segments : List Path.Segment) (spot : Spot) : Prop :=
  ∀ s ∈ segments.getLast?, disk.face? spot ≠ none ∧
    (Path.isIdle s = true → disk.face? spot = some .directory)

theorem stands_nil (disk : Disk) (spot : Spot) : disk.Stands [] spot := by
  intro s hs
  simp at hs

/-- A segment at the front only says something about the end if it is the last one. -/
theorem stands_cons {s : Path.Segment} {ss : List Path.Segment}
    (h : ss = [] → disk.face? spot ≠ none ∧ (Path.isIdle s = true → disk.face? spot = some .directory)) :
    disk.Stands (s :: ss) spot ↔ disk.Stands ss spot := by
  cases ss with
  | nil => simpa [Stands] using h
  | cons t ts => rw [Stands, Stands, List.getLast?_cons_of_ne_nil (List.cons_ne_nil t ts)]

/-- Segments can only be followed from a directory. -/
theorem face?_of_stands {s : Path.Segment} {ss : List Path.Segment}
    (hway : ∀ t ∈ spot.way (Path.stepsOf (s :: ss)), disk.face? t = some .directory)
    (hstands : disk.Stands (s :: ss) (spot.goal (Path.stepsOf (s :: ss)))) :
    disk.face? spot = some .directory := by
  cases hsteps : Path.stepsOf (s :: ss) with
  | cons t ts => exact hway spot (by simp [hsteps, Spot.way])
  | nil =>
    rw [hsteps] at hstands
    rcases List.getLast?_isSome.2 (List.cons_ne_nil s ss) |> Option.isSome_iff_exists.1 with
      ⟨last, hlast⟩
    have hidle : Path.isIdle last = true := by
      have hall := List.filter_eq_nil_iff.1 hsteps last (List.mem_of_getLast? hlast)
      simpa using hall
    exact (hstands last hlast).2 hidle

/-- A step has to lead to something. -/
theorem face?_step_of_stands {s : Path.Segment} {ss : List Path.Segment}
    (hway : ∀ t ∈ (spot.step s).way (Path.stepsOf ss), disk.face? t = some .directory)
    (hstands : disk.Stands (s :: ss) ((spot.step s).goal (Path.stepsOf ss))) :
    disk.face? (spot.step s) ≠ none := by
  cases ss with
  | nil => exact (hstands s rfl).1
  | cons t ts =>
    rw [stands_cons (by simp)] at hstands
    simp [face?_of_stands hway hstands]

/-! ## Following one segment -/

section Follow

variable {s : Path.Segment} {ss : List Path.Segment}

theorem follow_idle (hspot : disk.face? spot = some .directory) (hidle : Path.isIdle s = true) :
    disk.follow spot (s :: ss) = disk.follow spot ss := by
  rcases face?_eq_directory_iff.1 hspot with ⟨entries, hentry⟩
  simp [follow, hentry, hidle]

theorem face?_step_of_name {entries : List (String × Entry)}
    (hentry : disk.entry? spot = some (.directory entries)) (hup : s ≠ ['.', '.']) :
    disk.face? (spot.step s) ≠ none ↔ Entries.contains (String.ofList s) entries = true := by
  rw [Spot.step_name spot hup, face?_cons, hentry, Entries.contains_iff]
  simp

theorem follow_step (hspot : disk.face? spot = some .directory) (hidle : Path.isIdle s = false)
    (hnext : disk.face? (spot.step s) ≠ none) :
    disk.follow spot (s :: ss) = disk.follow (spot.step s) ss := by
  rcases face?_eq_directory_iff.1 hspot with ⟨entries, hentry⟩
  by_cases hup : s = ['.', '.']
  · simp [follow, hentry, hup, Spot.step, Path.isIdle]
  · have hcontains := (face?_step_of_name hentry hup).1 hnext
    simp [follow, hentry, hidle, hup, hcontains, Spot.step]

theorem follow_missing (hspot : disk.face? spot = some .directory) (hidle : Path.isIdle s = false)
    (hnext : disk.face? (spot.step s) = none) : disk.follow spot (s :: ss) = .error .notFound := by
  rcases face?_eq_directory_iff.1 hspot with ⟨entries, hentry⟩
  have hup : s ≠ ['.', '.'] := by
    -- Above a directory there is always one.
    rintro rfl
    have hdrop := face?_drop hspot
    rw [Spot.step, if_pos rfl, hdrop] at hnext
    exact absurd hnext (by simp)
  have hcontains := (not_congr (face?_step_of_name hentry hup)).1 (not_not.2 hnext)
  simp [follow, hentry, hidle, hup, hcontains]

theorem follow_ne_ok (hspot : disk.face? spot ≠ some .directory) (last : Spot) :
    disk.follow spot (s :: ss) ≠ .ok last := by
  rw [Ne, face?_eq_directory_iff] at hspot
  cases hentry : disk.entry? spot with
  | none => simp [follow, hentry]
  | some entry =>
    cases entry with
    | file text => simp [follow, hentry]
    | directory entries => exact absurd ⟨entries, hentry⟩ hspot

end Follow

/-- Following segments succeeds exactly if the spots on their way are directories. -/
theorem follow_eq_ok_iff {segments : List Path.Segment} {last : Spot} :
    disk.follow spot segments = .ok last ↔
      last = spot.goal (Path.stepsOf segments) ∧
        (∀ t ∈ spot.way (Path.stepsOf segments), disk.face? t = some .directory) ∧
        disk.Stands segments last := by
  induction segments generalizing spot with
  | nil =>
    simp only [follow, Except.ok.injEq, Path.stepsOf_nil, Spot.goal, Spot.way, List.foldl_nil,
      List.not_mem_nil, false_imp_iff, implies_true, stands_nil, and_true]
    exact eq_comm
  | cons s ss ih =>
    by_cases hspot : disk.face? spot = some .directory
    · cases hidle : Path.isIdle s with
      | true =>
        rw [follow_idle hspot hidle, ih, Path.stepsOf_cons_idle hidle]
        refine and_congr_right fun hgoal => and_congr_right fun _ => (stands_cons ?_).symm
        rintro rfl
        have hhere : last = spot := hgoal
        simp [hhere, hspot]
      | false =>
        have hfirst : (∀ t ∈ spot.way (s :: Path.stepsOf ss), disk.face? t = some .directory) ↔
            ∀ t ∈ (spot.step s).way (Path.stepsOf ss), disk.face? t = some .directory := by
          simp [Spot.way, hspot]
        rw [Path.stepsOf_cons_step hidle, hfirst, Spot.goal, List.foldl_cons, ← Spot.goal]
        by_cases hnext : disk.face? (spot.step s) = none
        · rw [follow_missing hspot hidle hnext]
          refine iff_of_false (by simp) ?_
          rintro ⟨hgoal, hway, hstands⟩
          exact face?_step_of_stands hway (hgoal ▸ hstands) hnext
        · rw [follow_step hspot hidle hnext, ih]
          refine and_congr_right fun hgoal => and_congr_right fun _ => (stands_cons ?_).symm
          rintro rfl
          have hhere : last = spot.step s := hgoal
          simp [hhere, hnext, hidle]
    · -- From anywhere else neither side holds.
      refine iff_of_false (follow_ne_ok hspot last) ?_
      rintro ⟨hgoal, hway, hstands⟩
      exact hspot (face?_of_stands hway (hgoal ▸ hstands))

end Disk

end PipelineTree
