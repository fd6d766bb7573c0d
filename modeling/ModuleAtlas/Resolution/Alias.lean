import ModuleAtlas.Json.Comments
import ModuleAtlas.Json.Reader
import ModuleAtlas.Path.Basic
import ModuleAtlas.Text.Replace

/-!
# Path aliases

A project may give names to directories: a specifier that starts with such a name is expanded
before it is looked up. Aliases come from the `paths` of a project's configuration; their
wildcards are dropped.
-/

namespace ModuleAtlas.Resolution

open Json (Value)

/-- Aliases in the order of their first insertion, and the directory their targets belong to. -/
structure Aliases where
  entries : List (String × String) := []
  base : Path
deriving DecidableEq, Repr

namespace Aliases

/-- Sets the target of a key: in its place when it is there, else at the end. -/
def insert (a : Aliases) (key target : String) : Aliases :=
  if a.entries.any (·.1 == key) then
    { a with entries := a.entries.map fun e => if e.1 == key then (key, target) else e }
  else { a with entries := a.entries ++ [(key, target)] }

end Aliases

/-- What follows a key in a specifier, when the key ends there at a segment boundary. -/
def afterKey? (key specifier : String) : Option (List Char) :=
  let k := key.toList
  let s := specifier.toList
  if k.isEmpty || !k.isPrefixOf s then none
  else
    let rest := s.drop k.length
    if k.getLast? = some '/' ∨ rest = [] ∨ rest.head? = some '/' then some rest else none

/-- A target followed by the rest of a specifier, with one slash between them; either alone when
the other is empty. -/
def joinTarget (target : String) (rest : List Char) : String :=
  let rest := rest.dropWhile (· == '/')
  if target.isEmpty then String.ofList rest
  else if rest.isEmpty then target
  else
    String.ofList ((target.toList.reverse.dropWhile (· == '/')).reverse ++ '/' :: rest)

namespace Aliases

/-- Whether some key matches a specifier. -/
def isMatch (a : Aliases) (specifier : String) : Bool :=
  a.entries.any fun e => (afterKey? e.1 specifier).isSome

/-- Applies one alias to a specifier, expanded before or not. -/
def expandStep (specifier : String) (acc : Option String) (entry : String × String) :
    Option String :=
  match afterKey? entry.1 (acc.getD specifier) with
  | some rest => some (joinTarget entry.2 rest)
  | none => acc

/-- A specifier expanded by every alias that matches, one after the other; none when no alias
matches. -/
def expand (a : Aliases) (specifier : String) : Option String :=
  a.entries.foldl (expandStep specifier) none

end Aliases

/-! ## Reading aliases -/

/-- A key or target without its wildcards. -/
def literalPart (pattern : String) : String :=
  let stripped := Text.replaceAll (Text.replaceAll pattern "/**" "") "/*" ""
  if stripped = "*" then "" else stripped

/-- The target of an alias: a text, or the first of a list when it is one. -/
def targetOf : Value → Option String
  | .string s => some s
  | .array (.string s :: _) => some s
  | _ => none

namespace Aliases

/-- Adds the alias of one field of `paths`; a key that is only a wildcard is left out. -/
def addField (a : Aliases) (field : String × Value) : Aliases :=
  match targetOf field.2 with
  | none => a
  | some target =>
    let key := literalPart field.1
    if key.isEmpty then a else a.insert key (literalPart target)

/-- The aliases that the text of a configuration file gives a project; none when the text cannot
be read. -/
def parse? (content : String) (root : Path) : Option Aliases :=
  (Json.parse? (Json.plainJson content)).map fun v =>
    let options := v.get? "compilerOptions"
    let base := ((options.bind (·.get? "baseUrl")).bind Value.string?).map root.join
    let paths := (options.bind (·.get? "paths")).bind Value.object?
    (paths.getD []).foldl addField { base := base.getD root }

end Aliases

/-! ## Specifiers -/

/-- How a specifier is looked up. -/
inductive LookupKind where
  /-- As a path, after aliases. -/
  | relative
  /-- As the name of a package, with a path inside it. -/
  | package
deriving DecidableEq, Repr

namespace LookupKind

/-- The reported name of a kind. -/
def name : LookupKind → String
  | relative => "relative"
  | package => "package"

/-- The kind of a specifier. -/
def of (a : Aliases) (specifier : String) : LookupKind :=
  let s := specifier.toList
  if s.head? = some '.' ∨ s.head? = some '/' ∨ "@/".toList.isPrefixOf s ∨ a.isMatch specifier then
    relative
  else package

end LookupKind

end ModuleAtlas.Resolution
