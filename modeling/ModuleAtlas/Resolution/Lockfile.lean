import ModuleAtlas.Path.Basic
import ModuleAtlas.Text.Blank
import ModuleAtlas.Text.Quotes

/-!
# Locked versions

The lockfile of a package store has a line `name@version:` for each package, maybe in quotes, with
a slash before the name, or with peers in parentheses behind the version. The store keeps a
package in a directory named for its name and version.
-/

namespace ModuleAtlas.Resolution

/-- The quotes around a line's entry. -/
def isLockQuote (c : Char) : Bool := c == '\x27' || c == '"'

/-- The characters of a version with its peers. -/
def isVersionChar (c : Char) : Bool := c != ':' && !Text.isBlank c && !isLockQuote c

/-- The rests of a text behind a character that may be there or not; first with it. -/
def behindOptional (p : Char → Bool) : List Char → List (List Char)
  | [] => [[]]
  | c :: cs => if p c then [cs, c :: cs] else [c :: cs]

/-- The rests of a text behind the blanks in front of it; first behind all of them. -/
def behindBlanks : List Char → List (List Char)
  | [] => [[]]
  | c :: cs => if Text.isBlank c then behindBlanks cs ++ [c :: cs] else [c :: cs]

/-- The version with its peers of the entry of a name that starts here. -/
def versionHere (name : List Char) (cs : List Char) : Option (List Char) :=
  if name.isPrefixOf cs then
    match cs.drop name.length with
    | '@' :: rest =>
      let version := rest.takeWhile isVersionChar
      if version.isEmpty then none
      else
        match rest.dropWhile isVersionChar with
        | ':' :: _ => some version
        | q :: ':' :: _ => if isLockQuote q then some version else none
        | _ => none
    | _ => none
  else none

/-- The version with its peers of the entry of a name on a line that starts here. -/
def versionOnLine (name : List Char) (cs : List Char) : Option (List Char) :=
  (((behindBlanks cs).flatMap (behindOptional isLockQuote)).flatMap
    (behindOptional (· == '/'))).findSome? (versionHere name)

/-- What follows each line break. -/
def afterBreaks : List Char → List (List Char)
  | [] => []
  | c :: cs => if c = '\n' then cs :: afterBreaks cs else afterBreaks cs

/-- The version of a package in the text of a lockfile, without its peers. -/
def pinnedVersion (lock name : String) : Option String :=
  let cs := lock.toList
  match (cs :: afterBreaks cs).findSome? (versionOnLine name.toList) with
  | some version =>
    let plain := version.takeWhile (· != '(')
    if plain.isEmpty then none else some (String.ofList plain)
  | none => none

/-- How the directories of a package start in the store. -/
def storeStart (name version : String) : String :=
  String.map (fun c => if c = '/' then '+' else c) name ++ "@" ++ version

/-- A text in which no character is a wildcard. -/
def escapeWildcards (text : String) : String :=
  String.ofList (text.toList.flatMap fun c =>
    if c = '?' ∨ c = '*' ∨ c = '[' ∨ c = ']' then ['[', c, ']'] else [c])

/-- The pattern of the directories that hold a package in a store. -/
def directoryPattern (store : Path) (name version : String) : String :=
  escapeWildcards store.text ++ "/" ++ escapeWildcards (storeStart name version) ++
    "*/node_modules/" ++ escapeWildcards name

end ModuleAtlas.Resolution
