import ModuleAtlas.Resolution.Lockfile
import ModuleAtlas.Tree.Basic

/-!
# The package store

Packages that are linked from a store lie below `node_modules/.pnpm`, in a directory whose name
starts with their name and locked version, its letters in either case. Of several such directories
the first in order counts.

Only the directory's name is compared in this way. The segments of the root and of the name of the
package are looked up as they are written. Left out is that a segment which holds one of the
wildcards `?`, `*`, `[` and `]` would be compared with the names that are there, its letters in
either case too.
-/

namespace ModuleAtlas.Resolution

/-- The store of a project. -/
def storeOf (root : Path) : Path := root / "node_modules" / ".pnpm"

/-- Segments put behind a path one by one. -/
def below (p : Path) (segments : List (List Char)) : Path :=
  segments.foldl (fun p s => p / String.ofList s) p

/-- The directory in which names that start with a text are looked for: a start with slashes leads
further down, except for what stands behind the last one. -/
def folderFor (store : Path) (start : String) : Path :=
  below ⟨"/"⟩ (store.segments.drop 1 ++ (Path.segmentsOf start.toList).dropLast)

/-- What the names start with that are looked for there. -/
def namesFor (start : String) : String :=
  String.ofList ((Path.segmentsOf start.toList).getLastD [])

/-- Whether a name starts with a text, letters in either case. -/
def startsLike (start name : String) : Bool :=
  (start.toList.map Char.toLower).isPrefixOf (name.toList.map Char.toLower)

/-- The names of the directories that are looked for, in order. -/
def storeNames (t : Tree) (store : Path) (start : String) : List String :=
  Text.sort ((t.children (folderFor store start)).filter (startsLike (namesFor start)))

/-- Where a package lies below a directory of a store. A slash at the end of its name is ignored. -/
def packageIn (directory : Path) (name : String) : Path :=
  let segments := Path.segmentsOf name.toList
  below (directory / "node_modules")
    (if segments.getLastD [] = [] then segments.dropLast else segments)

/-- Where a package lies below the directory of a given name. -/
def storePlace (store : Path) (name version directory : String) : Path :=
  packageIn (folderFor store (storeStart name version) / directory) name

/-- The directories that may hold a package in a store, in order. -/
def storeDirectories (t : Tree) (store : Path) (name version : String) : List Path :=
  (storeNames t store (storeStart name version)).map (storePlace store name version)

/-- The directory of a package in the store of a project. -/
def storedPackage (t : Tree) (root : Path) (name : String) : Option Path :=
  let store := storeOf root
  match t.read? (store / "lock.yaml") with
  | none => none
  | some lock =>
    match pinnedVersion lock name with
    | none => none
    | some version => (storeDirectories t store name version).find? t.isDirectory

end ModuleAtlas.Resolution
