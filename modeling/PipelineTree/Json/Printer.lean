/-!
# Printer — JSON records for reading

Lists of records are printed over several lines, two spaces to a level.
-/

namespace PipelineTree

namespace Json

def hexDigit (n : Nat) : Char := "0123456789abcdef".toList[n]?.getD '0'

def quotedChar (c : Char) : List Char :=
  match [('"', '"'), ('\\', '\\'), ('\x08', 'b'), ('\x0c', 'f'), ('\n', 'n'), ('\r', 'r'),
    ('\t', 't')].lookup c with
  | some e => ['\\', e]
  | none =>
    if c.toNat < 0x20 then
      ['\\', 'u', '0', '0', hexDigit (c.toNat / 16), hexDigit (c.toNat % 16)]
    else [c]

def quoted (text : String) : String :=
  "\"" ++ String.ofList (text.toList.flatMap quotedChar) ++ "\""

def commaLines (lines : List String) : String := String.intercalate ",\n" lines

def record (fields : List (String × String)) : String :=
  let lines := fields.map fun (name, text) => "    " ++ quoted name ++ ": " ++ quoted text
  "  \x7b\n" ++ commaLines lines ++ "\n  \x7d"

def records (rows : List (List (String × String))) : String :=
  if rows.isEmpty then "[]" else "[\n" ++ commaLines (rows.map record) ++ "\n]"

end Json

end PipelineTree
