/-!
# Script blocks of a component file

A component file holds its code between `<script …>` and `</script>`. A block starts behind the
first `>` that follows `<script`, and ends before the first closing tag after that.
-/

namespace ModuleAtlas.Text

/-- The text of a script block and the byte where it starts. -/
structure Script where
  offset : Nat
  content : String
deriving DecidableEq, Repr

/-- The number of bytes of a text. -/
def byteCount : List Char → Nat
  | [] => 0
  | c :: cs => c.utf8Size + byteCount cs

/-- Splits a text before the first place where a word stands; none when it stands nowhere. -/
def splitBefore (word : List Char) : List Char → Option (List Char × List Char)
  | [] => if word.isEmpty then some ([], []) else none
  | c :: cs =>
    if word.isPrefixOf (c :: cs) then some ([], c :: cs)
    else (splitBefore word cs).map fun (before, rest) => (c :: before, rest)

/-- What opens a script block, up to its attributes. -/
def scriptOpen : List Char := "<script".toList

/-- What closes a script block. -/
def scriptClose : List Char := "</script>".toList

/-- The first script block of a text: what stands before its content, the content, and what stands
behind its closing tag. -/
def firstScript (cs : List Char) : Option (List Char × List Char × List Char) := do
  let (before, tag) ← splitBefore scriptOpen cs
  let (attributes, rest) ← splitBefore ['>'] (tag.drop scriptOpen.length)
  let (content, rest) ← splitBefore scriptClose (rest.drop 1)
  return (before ++ scriptOpen ++ attributes ++ ['>'], content, rest.drop scriptClose.length)

/-- The script blocks of a text that starts at a byte offset; `fuel` is at least the number of
characters. -/
def scriptsFrom : (fuel : Nat) → Nat → List Char → List Script
  | 0, _, _ => []
  | fuel + 1, offset, cs =>
    match firstScript cs with
    | some (before, content, rest) =>
      let start := offset + byteCount before
      ⟨start, String.ofList content⟩ ::
        scriptsFrom fuel (start + byteCount content + byteCount scriptClose) rest
    | none => []

/-- The script blocks of a component file. -/
def scripts (text : String) : List Script :=
  scriptsFrom (text.length + 1) 0 text.toList

/-- The contents of all script blocks, each on lines of its own. -/
def joinedScripts (text : String) : String :=
  String.intercalate "\n" ((scripts text).map (·.content))

end ModuleAtlas.Text
