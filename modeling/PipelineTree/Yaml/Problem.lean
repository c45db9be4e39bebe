import PipelineTree.Yaml.Glyph

/-!
# Problem — what is wrong with a text

A text that breaks the grammar is refused for one problem at one place.
-/

namespace PipelineTree

namespace Yaml

/-- What can be wrong with a text. -/
inductive Problem where
  | forbiddenCharacter
  | missingColon
  | strayTab
  | strayEntry
  | strayKey
  | strayValue
  | strayCharacter
  | colonInFlow
  | badDirective
  | badVersion
  | repeatedDirective
  | badHandle
  | badTag
  | badOctet
  | unknownHandle
  | badAnchor
  | badHeader
  | badEscape
  | markerInScalar
  | openScalar
  | missingDocumentStart
  | missingNode
  | missingEntry
  | missingKey
  | missingComma
  | unknownAnchor
  deriving DecidableEq, Repr

namespace Problem

def text : Problem → String
  | .forbiddenCharacter => "control characters are not allowed"
  | .missingColon => "could not find expected ':'"
  | .strayTab => "found a tab character where an indentation space is expected"
  | .strayEntry => "block sequence entries are not allowed in this context"
  | .strayKey => "mapping keys are not allowed in this context"
  | .strayValue => "mapping values are not allowed in this context"
  | .strayCharacter => "found character that cannot start any token"
  | .colonInFlow => "found unexpected ':'"
  | .badDirective => "found unknown directive name"
  | .badVersion => "found incompatible YAML document"
  | .repeatedDirective => "found duplicate directive"
  | .badHandle => "did not find expected '!'"
  | .badTag => "did not find expected tag URI"
  | .badOctet => "did not find URI escaped octet"
  | .unknownHandle => "found undefined tag handle"
  | .badAnchor => "did not find expected alphabetic or numeric character"
  | .badHeader => "did not find expected comment or line break"
  | .badEscape => "found unknown escape character"
  | .markerInScalar => "found unexpected document indicator"
  | .openScalar => "found unexpected end of stream"
  | .missingDocumentStart => "did not find expected <document start>"
  | .missingNode => "did not find expected node content"
  | .missingEntry => "did not find expected '-' indicator"
  | .missingKey => "did not find expected key"
  | .missingComma => "did not find expected ',' or a closing bracket"
  | .unknownAnchor => "unknown anchor"

end Problem

/-- A problem and its place. -/
structure Fault where
  problem : Problem
  line : Nat
  column : Nat
  deriving DecidableEq, Repr

namespace Fault

/-- The wording of a fault. Lines and columns are counted from one. -/
def text (f : Fault) : String := s!"{f.problem.text} at line {f.line + 1} column {f.column + 1}"

end Fault

/-- Refuses a text for a problem at the front of a row. -/
def refuse {α : Type} (row : List Glyph) (problem : Problem) : Except Fault α :=
  .error ⟨problem, (Glyph.here row).line, (Glyph.here row).column⟩

end Yaml

end PipelineTree
