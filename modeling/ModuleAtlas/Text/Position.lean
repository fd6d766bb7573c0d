/-!
# Cursor positions

Editors count lines from zero and characters of a line in UTF-16 units; texts are indexed by
bytes. A byte offset inside of a character divides no text.
-/

namespace ModuleAtlas.Text

/-- A line and a character on it, both counted from zero; characters in UTF-16 units. -/
structure Position where
  line : Nat
  character : Nat
deriving DecidableEq, Repr

/-- The number of UTF-16 units of a character. -/
def unitsOf (c : Char) : Nat := if c.toNat < 0x10000 then 1 else 2

/-- What follows the first line, and the offset where it starts; none when there is no further
line. -/
def afterLine (offset : Nat) : List Char → Option (Nat × List Char)
  | [] => none
  | c :: cs => if c = '\n' then some (offset + 1, cs) else afterLine (offset + c.utf8Size) cs

/-- The offset where a line starts, and the text from there on. -/
def lineStart : (line : Nat) → Nat → List Char → Option (Nat × List Char)
  | 0, offset, cs => some (offset, cs)
  | line + 1, offset, cs =>
    match afterLine offset cs with
    | some (offset, cs) => lineStart line offset cs
    | none => none

/-- The offset of the first character with at least `target` units before it, of which `units`
stand before the text; at most the end of the line. -/
def offsetInLine (target : Nat) (offset units : Nat) : List Char → Nat
  | [] => offset
  | c :: cs =>
    if c = '\n' ∨ target ≤ units then offset
    else offsetInLine target (offset + c.utf8Size) (units + unitsOf c) cs

/-- The byte offset of a position; none when the text has not that many lines. A position behind
the end of its line counts as the line's end. -/
def byteOffset (text : String) (p : Position) : Option Nat :=
  (lineStart p.line 0 text.toList).map fun (offset, cs) => offsetInLine p.character offset 0 cs

/-- The text of a line without its line break. -/
def lineText (text : String) (line : Nat) : Option String :=
  (lineStart line 0 text.toList).map fun (_, cs) => String.ofList (cs.takeWhile (· != '\n'))

/-- Divides a text at a byte offset; none when the offset is inside of a character or behind the
end. -/
def splitAtByte (offset : Nat) : List Char → Option (List Char × List Char)
  | [] => if offset = 0 then some ([], []) else none
  | c :: cs =>
    if offset = 0 then some ([], c :: cs)
    else if c.utf8Size ≤ offset then
      (splitAtByte (offset - c.utf8Size) cs).map fun (before, rest) => (c :: before, rest)
    else none

/-- The piece of a text between two byte offsets; none when they are not in order or the text
cannot be divided there. -/
def piece? (text : String) (start stop : Nat) : Option String := do
  guard (start ≤ stop)
  let (_, rest) ← splitAtByte start text.toList
  let (piece, _) ← splitAtByte (stop - start) rest
  return String.ofList piece

end ModuleAtlas.Text
