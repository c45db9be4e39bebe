/-!
# Path — names of files and directories

A path is kept as it was written.  Its components say which file it names: empty parts and single dots
count for nothing, save for a dot at the very front.  Paths are ordered by their components, not by
their text, so `a/x` comes before `a-b`.  A path is a text; the system also has names that are none, and
paths with such names are native paths (`NativePath`).
-/

namespace PipelineTree

/-- The name of a file or directory. -/
structure Path where
  text : String
  deriving DecidableEq, Repr, Inhabited

namespace Path

/-! ## Components -/

abbrev Segment := List Char

def splitSegments : List Char → List Segment
  | [] => [[]]
  | c :: cs =>
    if c = '/' then [] :: splitSegments cs
    else
      match splitSegments cs with
      | [] => [[c]]
      | s :: ss => (c :: s) :: ss

def joinSegments : List Segment → List Char
  | [] => []
  | [s] => s
  | s :: ss => s ++ '/' :: joinSegments ss

def segments (p : Path) : List Segment := splitSegments p.text.toList

def isIdle (s : Segment) : Bool := s == [] || s == ['.']

def isAbsolute (p : Path) : Bool := p.text.toList.head? == some '/'

/-- What a path is made of. -/
inductive Component where
  | root
  | current
  | parent
  | name (name : String)
  deriving DecidableEq, Repr

/-- The component that a segment stands for, if it counts. -/
def Component.ofSegment? (s : Segment) : Option Component :=
  if isIdle s then none
  else if s == ['.', '.'] then some .parent
  else some (.name (String.ofList s))

def components (p : Path) : List Component :=
  let rest := p.segments.filterMap Component.ofSegment?
  if p.isAbsolute then .root :: rest
  else if p.segments.head? == some ['.'] then .current :: rest
  else rest

/-! ## Order -/

def Component.rank : Component → Nat
  | .root => 0
  | .current => 1
  | .parent => 2
  | .name _ => 3

def Component.compare : Component → Component → Ordering
  | .name a, .name b => Ord.compare a b
  | a, b => Ord.compare a.rank b.rank

def compareComponents : List Component → List Component → Ordering
  | [], [] => .eq
  | [], _ :: _ => .lt
  | _ :: _, [] => .gt
  | a :: as, b :: bs => (a.compare b).then (compareComponents as bs)

def compare (p q : Path) : Ordering := compareComponents p.components q.components

/-! ## Parts of a path -/

def fileName? (p : Path) : Option String :=
  match p.components.getLast? with
  | some (.name n) => some n
  | _ => none

/-- Drops segments that count for nothing from the back of a list, given in reverse. -/
def dropIdle (reversed : List Segment) : List Segment := reversed.dropWhile isIdle

/-- The front of a path that no segment is taken from: the root, or a dot. -/
def front (p : Path) : List Char :=
  if p.isAbsolute then ['/']
  else if p.segments.head? == some ['.'] then ['.']
  else []

def bodySegments (p : Path) : List Segment :=
  (splitSegments (p.text.toList.drop p.front.length)).reverse

def parent? (p : Path) : Option Path :=
  match dropIdle p.bodySegments with
  | _ :: before =>
    some ⟨String.ofList (p.front ++ joinSegments (dropIdle before).reverse)⟩
  | [] => if p.front == ['.'] then some ⟨""⟩ else none

/-- A path below another one; an absolute path stays as it is. -/
def join (p : Path) (below : String) : Path :=
  if below.toList.head? == some '/' then ⟨below⟩
  else if p.text.isEmpty || p.text.toList.getLast? == some '/' then ⟨p.text ++ below⟩
  else ⟨p.text ++ "/" ++ below⟩

def withFileName (p : Path) (name : String) : Path :=
  let directory := if p.fileName?.isSome then p.parent?.getD p else p
  directory.join name

/-- Splits a file name at its last dot, unless that stands in front or the name is two dots. -/
def splitName (name : String) : String × Option String :=
  let reversed := name.toList.reverse
  let after := reversed.takeWhile (· != '.')
  match reversed.dropWhile (· != '.') with
  | _ :: before =>
    if before.isEmpty || name == ".." then (name, none)
    else (String.ofList before.reverse, some (String.ofList after.reverse))
  | [] => (name, none)

def stem? (p : Path) : Option String := p.fileName?.map fun name => (splitName name).1

def extension? (p : Path) : Option String := p.fileName?.bind fun name => (splitName name).2

/-! ## Small laws -/

theorem splitSegments_ne_nil (cs : List Char) : splitSegments cs ≠ [] := by
  cases cs with
  | nil => simp [splitSegments]
  | cons c cs =>
    simp only [splitSegments]
    split
    · simp
    · split <;> simp

/-- Splitting loses nothing. -/
theorem joinSegments_splitSegments (cs : List Char) : joinSegments (splitSegments cs) = cs := by
  induction cs with
  | nil => rfl
  | cons c cs ih =>
    cases hs : splitSegments cs with
    | nil => exact absurd hs (splitSegments_ne_nil cs)
    | cons s ss =>
      rw [hs] at ih
      by_cases h : c = '/'
      · simp [splitSegments, h, hs, joinSegments, ih]
      · cases ss with
        | nil => simpa [splitSegments, h, hs, joinSegments] using ih
        | cons t ts => simpa [splitSegments, h, hs, joinSegments] using ih

theorem mem_joinSegments_of_mem {segments : List Segment} {s : Segment} (hs : s ∈ segments) {c : Char}
    (hc : c ∈ s) : c ∈ joinSegments segments := by
  induction segments with
  | nil => simp at hs
  | cons t ts ih =>
    cases ts with
    | nil => simpa [joinSegments, List.mem_singleton.1 hs] using hc
    | cons u us =>
      rcases List.mem_cons.1 hs with rfl | hlater
      · simp [joinSegments, hc]
      · simp [joinSegments, ih hlater]

/-- Splitting adds nothing. -/
theorem mem_of_mem_splitSegments {cs : List Char} {s : Segment} (hs : s ∈ splitSegments cs) {c : Char}
    (hc : c ∈ s) : c ∈ cs := by
  rw [← joinSegments_splitSegments cs]
  exact mem_joinSegments_of_mem hs hc

/-- Joining adds nothing but separators. -/
theorem mem_joinSegments {segments : List Segment} {c : Char} (h : c ∈ joinSegments segments) :
    c = '/' ∨ ∃ s ∈ segments, c ∈ s := by
  induction segments with
  | nil => simp [joinSegments] at h
  | cons s ss ih =>
    cases ss with
    | nil => exact .inr ⟨s, by simp, h⟩
    | cons t ts =>
      have hcases : c ∈ s ∨ c = '/' ∨ c ∈ joinSegments (t :: ts) := by simpa [joinSegments] using h
      rcases hcases with hfirst | hslash | hlater
      · exact .inr ⟨s, by simp, hfirst⟩
      · exact .inl hslash
      · rcases ih hlater with hslash | ⟨u, hu, hc⟩
        · exact .inl hslash
        · exact .inr ⟨u, List.mem_cons_of_mem s hu, hc⟩

end Path

end PipelineTree
