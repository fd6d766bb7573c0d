import ModuleAtlas.Resolution.Store

/-!
# Finding packages

A package is a directory with a manifest. It is looked for under its name in the context of the
importing package, below the search root, in the store, and among the type packages below the
search root. Where it is in none of them, its name is shortened by its last segment: a specifier
may go on behind the name of its package.

A file inside a workspace, that is below a `node_modules` directory of its own, is first served
from there. Finds are remembered by context, name and search root as long as they are there.
-/

namespace ModuleAtlas.Resolution

/-- The name of the directory that holds packages. -/
def packagesName : String := "node_modules"

/-- The name of a package's manifest. -/
def manifestName : String := "package.json"

/-- A package: its directory and the name under which it was found. -/
structure Package where
  dir : Path
  name : String
deriving DecidableEq, Repr

/-- Whether a path is a directory with a manifest. -/
def holdsPackage (t : Tree) (dir : Path) : Bool :=
  t.isDirectory dir && t.isFile (dir / manifestName)

/-! ## Names -/

/-- A name without its last segment; none when nothing is left. -/
def shorten? (name : List Char) : Option (List Char) :=
  match name.reverse.dropWhile (· != '/') with
  | [] => none
  | _ :: front => if front.isEmpty then none else some front.reverse

/-- The names left after shortening again and again, longest first. -/
def shorterNames : (fuel : Nat) → List Char → List String
  | 0, _ => []
  | fuel + 1, name =>
    match shorten? name with
    | some shorter => String.ofList shorter :: shorterNames fuel shorter
    | none => []

/-- A name and what is left of it after shortening again and again, longest first. -/
def namesOf (name : String) : List String :=
  name :: shorterNames name.length name.toList

/-! ## Places -/

/-- The directories above a path, nearest first. -/
def directoriesAbove : (fuel : Nat) → Path → List Path
  | 0, _ => []
  | fuel + 1, p =>
    match p.parent? with
    | some dir => dir :: directoriesAbove fuel dir
    | none => []

/-- The nearest directory above a file that holds packages, strictly below the root of the
project. -/
def workspaceOf (t : Tree) (root file : Path) : Option Path :=
  ((directoriesAbove (file.text.length + 1) file).takeWhile fun dir =>
    !dir.same root && dir.startsWith root).find? fun dir => t.isDirectory (dir / packagesName)

/-- Where the search for packages starts: the root of the project and the context of the importing
package. -/
structure SearchScope where
  root : Path
  context : Option Path
deriving DecidableEq, Repr

/-- The directories in which a package of a name may lie, seen from a search root, in order. -/
def placesOf (t : Tree) (scope : SearchScope) (searchRoot : Path) (name : String) : List Path :=
  scope.context.toList.map (· / name) ++
    [searchRoot / packagesName / name] ++
    (storedPackage t scope.root name).toList ++
    [searchRoot / packagesName / "@types" / name]

/-- The package of a name, seen from a search root. -/
def packageAt (t : Tree) (scope : SearchScope) (searchRoot : Path) (name : String) :
    Option Package :=
  ((placesOf t scope searchRoot name).find? (holdsPackage t)).map (⟨·, name⟩)

/-! ## Memory -/

/-- What a find is remembered by. -/
structure FindKey where
  context : Option Path
  name : String
  searchRoot : Path
deriving DecidableEq, Repr

/-- Optional paths that are both missing or name the same. -/
def sameContext : Option Path → Option Path → Bool
  | some p, some q => p.same q
  | none, none => true
  | _, _ => false

/-- Whether two keys name the same search. -/
def FindKey.same (k l : FindKey) : Bool :=
  sameContext k.context l.context && k.name == l.name && k.searchRoot.same l.searchRoot

/-- The finds remembered so far. -/
abbrev Finds := List (FindKey × Package)

namespace Finds

/-- The find remembered for a key. -/
def get? (m : Finds) (k : FindKey) : Option Package :=
  (m.find? fun e => e.1.same k).map (·.2)

/-- Remembers a find. -/
def put (m : Finds) (k : FindKey) (p : Package) : Finds :=
  if m.any (fun e => e.1.same k) then m.map fun e => if e.1.same k then (e.1, p) else e
  else m ++ [(k, p)]

/-- The find remembered for a key, if the package is still there. -/
def valid? (m : Finds) (t : Tree) (k : FindKey) : Option Package :=
  (m.get? k).filter fun p => holdsPackage t p.dir

end Finds

/-! ## The search -/

/-- Remembers what was found, if anything. -/
def remember (k : FindKey) (found : Option Package) (m : Finds) : Option Package × Finds :=
  match found with
  | some p => (some p, m.put k p)
  | none => (none, m)

/-- The first of a list of names that has a package, seen from a search root. -/
def searchNames (t : Tree) (scope : SearchScope) (searchRoot : Path) :
    List String → Finds → Option Package × Finds
  | [], m => (none, m)
  | name :: shorter, m =>
    let key : FindKey := ⟨scope.context, name, searchRoot⟩
    match m.valid? t key with
    | some p => (some p, m)
    | none =>
      match packageAt t scope searchRoot name with
      | some p => remember key (some p) m
      | none =>
        let (found, m) := searchNames t scope searchRoot shorter m
        remember key found m

/-- The first of a list of names that has a package in a workspace, if there is one. -/
def searchWorkspace (t : Tree) (scope : SearchScope) (workspace : Option Path)
    (names : List String) (m : Finds) : Option Package × Finds :=
  match workspace with
  | some w => searchNames t scope w names m
  | none => (none, m)

/-- The package a specifier names, seen from a file: under its whole name below the root of the
project, then in the file's workspace, then under shorter names below the root. -/
def findPackage (t : Tree) (scope : SearchScope) (file : Path) (name : String) (m : Finds) :
    Option Package × Finds :=
  let key : FindKey := ⟨scope.context, name, scope.root⟩
  match m.valid? t key with
  | some p => (some p, m)
  | none =>
    match packageAt t scope scope.root name with
    | some p => remember key (some p) m
    | none =>
      let names := namesOf name
      match searchWorkspace t scope (workspaceOf t scope.root file) names m with
      | (some p, m) => remember key (some p) m
      | (none, m) =>
        let (found, m) := searchNames t scope scope.root names.tail m
        remember key found m

end ModuleAtlas.Resolution
