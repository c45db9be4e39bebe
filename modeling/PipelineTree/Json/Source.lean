import PipelineTree.Json.Number
import PipelineTree.Source.Draft

/-!
# Source — JSON texts as drafts

A JSON text is read as far as it is one.  Where it is not, the collections that are open there are
incomplete and whatever stands behind is ignored.
-/

namespace PipelineTree

namespace Json

def isSpace (c : Char) : Bool := c == ' ' || c == '\n' || c == '\t' || c == '\r'

def dropSpace (cs : List Char) : List Char := cs.dropWhile isSpace

/-! ## Strings -/

def escaped? (c : Char) : Option Char :=
  [('"', '"'), ('\\', '\\'), ('/', '/'), ('b', '\x08'), ('f', '\x0c'), ('n', '\n'), ('r', '\r'),
    ('t', '\t')].lookup c

/-- A character by its number, unless the number is no character's. -/
def charOf? (n : Nat) : Option Char :=
  if h : n.isValidChar then some (Char.ofNatAux n h) else none

def paired? (high low : Nat) : Option Char :=
  if 0xD800 ≤ high ∧ high < 0xDC00 ∧ 0xDC00 ≤ low ∧ low < 0xE000 then
    charOf? (0x10000 + (high - 0xD800) * 0x400 + (low - 0xDC00))
  else none

/-- Reads a string after its opening quote. The characters read so far are given in reverse. -/
def string? (text : List Char) : List Char → Option (String × List Char)
  | [] => none
  | '"' :: cs => some (String.ofList text.reverse, cs)
  | '\\' :: 'u' :: a :: b :: c :: d :: cs =>
    match digits? 16 [a, b, c, d] with
    | none => none
    | some n =>
      match charOf? n with
      | some e => string? (e :: text) cs
      | none =>
        match cs with
        | '\\' :: 'u' :: a :: b :: c :: d :: cs =>
          match (digits? 16 [a, b, c, d]).bind (paired? n) with
          | some e => string? (e :: text) cs
          | none => none
        | _ => none
  | '\\' :: c :: cs =>
    match escaped? c with
    | some e => string? (e :: text) cs
    | none => none
  | c :: cs => if c.toNat < 0x20 || c == '\\' then none else string? (c :: text) cs

/-! ## Values -/

/-- What was read, and what follows it; nothing does where the text is wrong. -/
structure Partial (α : Type) where
  read : α
  rest : Option (List Char)

def dropWord? (word cs : List Char) : Option (List Char) :=
  if word.isPrefixOf cs then some (cs.drop word.length) else none

def atom? (cs : List Char) : Option (Value × List Char) :=
  match cs with
  | 'n' :: _ => (dropWord? "null".toList cs).map (.null, ·)
  | 't' :: _ => (dropWord? "true".toList cs).map (.bool true, ·)
  | 'f' :: _ => (dropWord? "false".toList cs).map (.bool false, ·)
  | '"' :: cs => (string? [] cs).map fun (s, rest) => (.text s, rest)
  | cs => (number? cs).map fun (n, rest) => (.number n, rest)

/-- Passes over what stands before the next part of a collection: `some none` is its end. -/
def nextPart (closing : Char) (first : Bool) (cs : List Char) :
    Option (Option (List Char)) × List Char :=
  match dropSpace cs with
  | [] => (none, [])
  | c :: cs =>
    if c == closing then (some none, cs)
    else if first then (some (some (c :: cs)), [])
    else if c == ',' then
      let rest := dropSpace cs
      if rest.isEmpty || rest.head? == some closing then (none, []) else (some (some rest), [])
    else (none, [])

mutual

def value (cs : List Char) : (steps : Nat) → Partial (Option Draft)
  | 0 => ⟨none, none⟩
  | steps + 1 =>
    match dropSpace cs with
    | '[' :: cs =>
      let items := items true [] cs steps
      ⟨some (.sequence none items.read.reverse items.rest.isSome), items.rest⟩
    | '{' :: cs =>
      let parts := members true [] cs steps
      ⟨some (.mapping none parts.read.reverse parts.rest.isSome), parts.rest⟩
    | cs =>
      match atom? cs with
      | some (v, rest) => ⟨some (.atom v), some rest⟩
      | none => ⟨none, none⟩

/-- Reads the items of an array, after those that are done. -/
def items (first : Bool) (done : List Draft) (cs : List Char) :
    (steps : Nat) → Partial (List Draft)
  | 0 => ⟨done, none⟩
  | steps + 1 =>
    match nextPart ']' first cs with
    | (none, _) => ⟨done, none⟩
    | (some none, rest) => ⟨done, some rest⟩
    | (some (some cs), _) =>
      let item := value cs steps
      let done := item.read.toList ++ done
      match item.rest with
      | some rest => items false done rest steps
      | none => ⟨done, none⟩

/-- Reads the members of an object, after those that are done. -/
def members (first : Bool) (done : List Draft) (cs : List Char) :
    (steps : Nat) → Partial (List Draft)
  | 0 => ⟨done, none⟩
  | steps + 1 =>
    match nextPart '}' first cs with
    | (none, _) => ⟨done, none⟩
    | (some none, rest) => ⟨done, some rest⟩
    | (some (some ('"' :: cs)), _) =>
      match string? [] cs with
      | none => ⟨done, none⟩
      | some (name, rest) =>
        let done := .atom (.text name) :: done
        match dropSpace rest with
        | ':' :: cs =>
          let member := value cs steps
          let done := member.read.toList ++ done
          match member.rest with
          | some rest => members false done rest steps
          | none => ⟨done, none⟩
        | _ => ⟨done, none⟩
    | _ => ⟨done, none⟩

end

/-! ## Texts -/

/-- In this format collections nest up to 127 deep, and records may be arrays. -/
def dialect : Dialect := ⟨127, true, false⟩

/-- Reads a text, as far as it is JSON. Every step but the last passes over a character or returns. -/
def source (text : String) : Source :=
  let cs := text.toList
  let read := value cs (2 * cs.length + 2)
  let fault := match read.rest with
    | none => some "expected value"
    | some rest => if (dropSpace rest).isEmpty then none else some "trailing characters"
  ⟨dialect, read.read, [], 0, fault⟩

end Json

end PipelineTree
