import ModuleAtlas.Text.Blank

/-!
# JSON with comments

Configuration files may hold `//` and `/* */` comments and a comma behind the last item.
`plainJson` takes them away. A comma counts as trailing when only white space stands between it
and the closing bracket.
-/

namespace ModuleAtlas.Json

/-- Where a reader of JSON with comments stands. -/
inductive Region where
  | code
  | string
  /-- Behind a backslash in a string. -/
  | escape
  | lineComment
  /-- Before the star that belongs to the opening of a block comment. -/
  | blockOpening
  /-- In a block comment, and whether the last character was a star. -/
  | blockComment (star : Bool)
deriving DecidableEq, Repr

/-- Whether what follows a comma closes an array or an object. -/
def closesNext (cs : List Char) : Bool :=
  match Text.trimFront cs with
  | ']' :: _ => true
  | '\x7d' :: _ => true
  | _ => false

/-- The text without comments and trailing commas, read from a region on. -/
def plainFrom : Region → List Char → List Char
  | _, [] => []
  | .string, c :: cs =>
    c :: plainFrom (if c = '\\' then .escape else if c = '"' then .code else .string) cs
  | .escape, c :: cs => c :: plainFrom .string cs
  | .lineComment, c :: cs =>
    if c = '\n' then c :: plainFrom .code cs else plainFrom .lineComment cs
  | .blockOpening, _ :: cs => plainFrom (.blockComment false) cs
  | .blockComment star, c :: cs =>
    if star && c == '/' then plainFrom .code cs else plainFrom (.blockComment (c == '*')) cs
  | .code, c :: cs =>
    if c = '"' then c :: plainFrom .string cs
    else if c = '/' ∧ cs.head? = some '/' then plainFrom .lineComment cs
    else if c = '/' ∧ cs.head? = some '*' then plainFrom .blockOpening cs
    else if c = ',' ∧ closesNext cs then plainFrom .code cs
    else c :: plainFrom .code cs

/-- A text without comments and trailing commas. -/
def plainJson (text : String) : String := String.ofList (plainFrom .code text.toList)

end ModuleAtlas.Json
