/-!
# Utf8 — bytes that are read as text

Bytes are written as letters here, one letter for each byte, the one with its number.  Every row of bytes reads as some
text: a letter that has begun is left at the first byte that cannot go on with it, and one replacement stands for what
was left.  That byte is then taken for a first one.
-/

namespace PipelineTree

namespace Utf8

/-- Stands for bytes that make no letter. -/
def replacement : Char := '\uFFFD'

/-- A letter that has begun: its number so far, and how many bytes are still to come. -/
structure Begun where
  number : Nat
  due : Nat

/--
Whether a number to which bytes are still to come may be that of a letter: none is written longer than it need be,
none is half of a pair, and there is a last one.
-/
def mayBegin (number : Nat) : Nat → Bool
  | 0 => 0x80 ≤ number
  | 1 => 0x20 ≤ number && !(0x360 ≤ number && number < 0x380)
  | _ => 0x10 ≤ number && number < 0x110

/-- What a first byte gives: what is written for it, and the letter that has begun with it. -/
def first (byte : Nat) : List Char × Option Begun :=
  if byte < 0x80 then ([Char.ofNat byte], none)
  else if byte < 0xC0 then ([replacement], none)
  -- With some of these bytes, such as 0xC0, nothing begins that may go on: they are replaced at the next byte.
  else if byte < 0xE0 then ([], some ⟨byte - 0xC0, 1⟩)
  else if byte < 0xF0 then ([], some ⟨byte - 0xE0, 2⟩)
  else if byte < 0xF8 then ([], some ⟨byte - 0xF0, 3⟩)
  else ([replacement], none)

/-- A letter that has begun, with one more byte of it. -/
def Begun.next? (begun : Begun) (byte : Nat) : Option Begun :=
  let number := begun.number * 64 + (byte - 0x80)
  let due := begun.due - 1
  if 0x80 ≤ byte && byte < 0xC0 && mayBegin number due then some ⟨number, due⟩ else none

/-- What a byte gives after what has begun before it. -/
def feed : Option Begun → Nat → List Char × Option Begun
  | none, byte => first byte
  | some begun, byte =>
    match begun.next? byte with
    | some ⟨number, 0⟩ => ([Char.ofNat number], none)
    | some next => ([], some next)
    | none => (replacement :: (first byte).1, (first byte).2)

def decodeFrom : Option Begun → List Char → List Char
  | none, [] => []
  | some _, [] => [replacement]
  | begun, byte :: bytes => (feed begun byte.toNat).1 ++ decodeFrom (feed begun byte.toNat).2 bytes

/-- The text that bytes read as. -/
def decode (bytes : List Char) : List Char := decodeFrom none bytes

/-- The bytes of a text. -/
def encode (text : List Char) : List Char :=
  text.flatMap fun c => (String.utf8EncodeChar c).map Char.ofUInt8

/-- Reads a name of bytes. -/
def read (name : String) : String := String.ofList (decode name.toList)

/-- Writes a name in bytes. -/
def write (text : String) : String := String.ofList (encode text.toList)

end Utf8

end PipelineTree
