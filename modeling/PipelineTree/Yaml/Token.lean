import PipelineTree.Source.Draft
import PipelineTree.Yaml.Joined

/-!
# Token — the words of a text

A text is a row of tokens.  Indentation has become tokens that open and close block collections, and a
key that was written without an indicator has got one.
-/

namespace PipelineTree

namespace Yaml

/-- The words of a text. -/
inductive Token where
  | version (major minor : Nat)
  /-- an abbreviation for the beginnings of tags -/
  | abbreviation (handle lead : String)
  | documentStart
  | documentEnd
  | blockSequence
  | blockMapping
  | blockEnd
  | flowSequence
  | flowSequenceEnd
  | flowMapping
  | flowMappingEnd
  | blockEntry
  | flowEntry
  | key
  | value
  | alias (name : String)
  | anchor (name : String)
  /-- a tag, in two parts; there is no second part where it is not proper text -/
  | tag (handle : String) (suffix : Option String)
  | scalar (form : ScalarForm) (text : String)
  | streamEnd
  deriving DecidableEq, Repr

end Yaml

end PipelineTree
