import PipelineTree.Value.Basic

/-!
# Rename — respelling the keys of a document

A table lists spellings with their replacements.  Renaming replaces every text key found in the table,
in every mapping that is reached through values; keys of other sorts, and text values, stay as they are.
-/

namespace PipelineTree

/-- Spellings and their replacements; the first row for a spelling counts. -/
abbrev RenameTable := List (String × String)

namespace RenameTable

/-- The replacement of a spelling, or the spelling itself. -/
def apply (table : RenameTable) (name : String) : String := (table.lookup name).getD name

def renameKey (table : RenameTable) : Value → Value
  | .text name => .text (table.apply name)
  | other => other

mutual

def rename (table : RenameTable) : Value → Value
  | .mapping entries => .mapping (Entries.ofList (renameEntries table entries))
  | .sequence items => .sequence (renameItems table items)
  | .tagged tag value => .tagged tag (rename table value)
  | other => other

def renameItems (table : RenameTable) : List Value → List Value
  | [] => []
  | v :: vs => rename table v :: renameItems table vs

def renameEntries (table : RenameTable) : List (Value × Value) → List (Value × Value)
  | [] => []
  | (k, v) :: es => (renameKey table k, rename table v) :: renameEntries table es

end

end RenameTable

end PipelineTree
