import PipelineTree.Files.Path

/-!
# Pattern — wildcards in file names

A pattern is matched against one component of a path at a time.  `?` stands for one character, `*` for
any number of them, `[…]` for one of some characters and `[!…]` for any other; none of them stands for
a dot in front.  A component `**` stands for any number of directories.
-/

namespace PipelineTree

namespace Pattern

/-- Some characters between brackets: one character, or all between two. -/
inductive Class where
  | single (c : Char)
  | range (least greatest : Char)
  deriving DecidableEq, Repr

def Class.holds (c : Char) : Class → Bool
  | .single d => c == d
  | .range least greatest => least ≤ c && c ≤ greatest

/-- A piece of a pattern. -/
inductive Token where
  | char (c : Char)
  | anyChar
  | anyText
  | anyDirectories
  | within (classes : List Class)
  | except (classes : List Class)
  deriving DecidableEq, Repr

end Pattern

abbrev Pattern := List Pattern.Token

namespace Pattern

/-! ## Reading patterns -/

def classes : List Char → List Class
  | a :: '-' :: b :: cs => .range a b :: classes cs
  | a :: cs => .single a :: classes cs
  | [] => []

/-- Splits a text behind the first closing bracket after its first `kept` characters. -/
def toBracket? (kept : Nat) (cs : List Char) : Option (List Char × List Char) :=
  let inner := cs.drop kept
  let more := inner.takeWhile (· != ']')
  match inner.dropWhile (· != ']') with
  | _ :: rest => some (cs.take kept ++ more, rest)
  | [] => none

/-- Reads a bracket expression, after its opening bracket. It holds at least one character. -/
def bracket? : List Char → Option (Token × List Char)
  | '!' :: cs =>
    if cs.isEmpty then none
    else (toBracket? 1 cs).map fun (inner, rest) => (.except (classes inner), rest)
  | cs =>
    if cs.isEmpty then none
    else (toBracket? 1 cs).map fun (inner, rest) => (.within (classes inner), rest)

/--
Reads a pattern.  `before` is the character in front of what is left.  Two asterisks have to be a
component of their own, and more than two are refused.
-/
def read? (before : Option Char) (pattern : Pattern) (cs : List Char) : Option Pattern :=
  match cs with
  | [] => some pattern.reverse
  | c :: cs =>
    if c == '?' then read? (some c) (.anyChar :: pattern) cs
    else if c == '*' then
      match cs with
      | '*' :: '*' :: _ => none
      | '*' :: rest =>
        if before.isNone || before == some '/' then
          match rest with
          | [] => read? (some '*') (.anyDirectories :: pattern) []
          | d :: rest =>
            if d == '/' then read? (some '/') (.anyDirectories :: pattern) rest else none
        else none
      | rest => read? (some c) (.anyText :: pattern) rest
    else if c == '[' then
      match _read : bracket? cs with
      | some (token, rest) =>
        if rest.length < cs.length then read? (some ']') (token :: pattern) rest else none
      | none => none
    else read? (some c) (.char c :: pattern) cs
termination_by cs.length
decreasing_by all_goals (simp_all; try omega)

def ofChars? (cs : List Char) : Option Pattern := read? none [] cs

/-! ## Matching -/

def literal? : Pattern → Option (List Char)
  | [] => some []
  | .char c :: pattern => (literal? pattern).map (c :: ·)
  | _ => none

/-- Whether a pattern stands for any number of directories. -/
def isRecursive (pattern : Pattern) : Bool := pattern.contains .anyDirectories

/-- Whether a piece that stands for one character stands for this one; `atFront` for the first one. -/
def Token.holds (atFront : Bool) (c : Char) : Token → Bool
  | .char d => c == d
  | .anyChar => !(atFront && c == '.')
  | .within classes => !(atFront && c == '.') && classes.any (Class.holds c)
  | .except classes => !(atFront && c == '.') && !classes.any (Class.holds c)
  | .anyText | .anyDirectories => false

/-- Whether a pattern describes a name; `atFront` says that nothing of the name has been passed over. -/
def matchesFrom (atFront : Bool) (pattern : Pattern) (name : List Char) : Bool :=
  match pattern with
  | [] => name.isEmpty
  | .anyText :: rest | .anyDirectories :: rest =>
    matchesFrom atFront rest name ||
      match name with
      | [] => false
      | c :: cs => !(atFront && c == '.') && matchesFrom false (.anyText :: rest) cs
  | token :: rest =>
    match name with
    | [] => false
    | c :: cs => token.holds atFront c && matchesFrom false rest cs
termination_by pattern.length + name.length

def describes (pattern : Pattern) (name : String) : Bool := matchesFrom true pattern name.toList

/-- A pattern without wildcards describes one name. -/
theorem matchesFrom_of_literal {pattern : Pattern} {text : List Char}
    (literal : literal? pattern = some text) (atFront : Bool) (name : List Char) :
    matchesFrom atFront pattern name = (name == text) := by
  induction pattern generalizing text atFront name with
  | nil =>
    simp only [literal?, Option.some.injEq] at literal
    subst literal
    cases name <;> simp [matchesFrom]
  | cons token rest ih =>
    cases token <;> simp only [literal?, Option.map_eq_some_iff, reduceCtorEq] at literal
    obtain ⟨text, literal, rfl⟩ := literal
    cases name with
    | nil => simp [matchesFrom]
    | cons c cs => simp [matchesFrom, Token.holds, ih literal]

end Pattern

end PipelineTree
