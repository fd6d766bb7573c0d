/-!
# Replacing text

`replaceAll` replaces every occurrence of a text, from left to right and without overlap.
`substituteWord` replaces a name only where it stands as a whole word.
-/

namespace ModuleAtlas.Text

/-- Replaces the non-empty text `old`, after passing over `skip` characters of an occurrence
already replaced. -/
def replaceFrom (old new : List Char) : (skip : Nat) → List Char → List Char
  | _, [] => []
  | skip + 1, _ :: cs => replaceFrom old new skip cs
  | 0, c :: cs =>
    if old.isPrefixOf (c :: cs) then new ++ replaceFrom old new (old.length - 1) cs
    else c :: replaceFrom old new 0 cs

/-- A text with every occurrence of the non-empty text `old` replaced. -/
def replaceAll (text old new : String) : String :=
  String.ofList (replaceFrom old.toList new.toList 0 text.toList)

/-- The characters of words. -/
def isWordChar (c : Char) : Bool := c.isAlphanum || c == '_' || c == '$'

/-- A character put before runs of equal class: into the first run when it is of its class. -/
def consRun (p : Char → Bool) (c : Char) : List (List Char) → List (List Char)
  | (d :: r) :: rs => if p c = p d then (c :: d :: r) :: rs else [c] :: (d :: r) :: rs
  | rs => [c] :: rs

/-- The maximal runs of characters that all have a property or all lack it. -/
def runs (p : Char → Bool) (cs : List Char) : List (List Char) := cs.foldr (consRun p) []

/-- Whether a text is one word. -/
def isWord (cs : List Char) : Bool := !cs.isEmpty && cs.all isWordChar

/-- A text with a name replaced where it stands as a whole word. A name that is no word is
replaced wherever it occurs; no name replaces nothing. -/
def substituteWord (text old new : String) : String :=
  if old.isEmpty then text
  else if isWord old.toList then
    String.ofList ((runs isWordChar text.toList).flatMap fun r =>
      if r = old.toList then new.toList else r)
  else replaceAll text old new

end ModuleAtlas.Text
