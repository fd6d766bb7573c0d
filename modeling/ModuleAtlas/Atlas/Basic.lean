import ModuleAtlas.Atlas.Link
import ModuleAtlas.Atlas.LocationCache
import ModuleAtlas.Atlas.Nesting
import ModuleAtlas.Draft.File

/-!
# The atlas

The atlas answers which file a specifier means and what a module exports, and keeps what it has
found out. Its answers are functions of a file tree and of what it has kept.
-/

namespace ModuleAtlas

open Draft (Mode)
open Resolution (Aliases Finds Location)
open Symbols (Table)

/-- What the atlas knows: its project, the aliases of the project once they are needed, the
packages found, and the tables and locations kept. -/
structure Atlas where
  project : Project
  aliases : Option Aliases := none
  finds : Finds := []
  tables : Atlas.TableCache := {}
  locations : Atlas.LocationCache := {}
deriving DecidableEq, Repr

namespace Atlas

/-! ## Resolving -/

/-- The aliases of the project, read at the first use. -/
def getAliases (t : Tree) (atlas : Atlas) : Aliases × Atlas :=
  match atlas.aliases with
  | some a => (a, atlas)
  | none =>
    let a := Resolution.projectAliases t atlas.project.root
    (a, { atlas with aliases := some a })

/-- The location kept for a key, if its file is still there; one whose file is gone is dropped. -/
def keptLocation (t : Tree) (k : LocationKey) (atlas : Atlas) : Option Location × Atlas :=
  match atlas.locations.get k with
  | (none, kept) => (none, { atlas with locations := kept })
  | (some l, kept) =>
    if t.isFile l.path then (some l, { atlas with locations := kept })
    else (none, { atlas with locations := kept.remove k })

/-- The file that a specifier means, seen from a file in a package context. -/
def resolve (t : Tree) (specifier : String) (file : Path) (context : Option Path) (atlas : Atlas) :
    Option Location × Atlas :=
  let key : LocationKey := ⟨specifier, file, context⟩
  match atlas.keptLocation t key with
  | (some l, atlas) => (some l, atlas)
  | (none, atlas) =>
    let (a, atlas) := atlas.getAliases t
    let (found, finds) := Resolution.resolve t atlas.project a specifier file context atlas.finds
    let atlas := { atlas with finds }
    match found with
    | some l => (some l, { atlas with locations := atlas.locations.insert key l })
    | none => (none, atlas)

/-! ## Loading -/

/-- An atlas in the middle of loading modules. -/
structure Session where
  atlas : Atlas
  nesting : Nesting := {}
deriving DecidableEq, Repr

/-- A way to load the module at a location. It may give up. -/
abbrev Load := Location → Mode → Session → Option (Option Linked × Session)

/-- What asking for a module gives, once the file it means is known and loaded. -/
def fetched (target : Location) : Option Linked → Fetched
  | some m => { dependencies := target.path :: m.dependencies, table := some m.table }
  | none => { dependencies := [target.path] }

/-- Asks for the module a specifier means, seen from a location. -/
def fetch (t : Tree) (load : Load) (l : Location) : Fetch Session := fun specifier mode s =>
  match s.atlas.resolve t specifier l.path l.context with
  | (none, atlas) => some ({}, { s with atlas })
  | (some target, atlas) =>
    (load target mode { s with atlas }).map fun (m, s) => (fetched target m, s)

/-- Reads the content of a module and links it. -/
def build (t : Tree) (load : Load) (l : Location) (mode : Mode) (content : String) (s : Session) :
    Option (Option Linked × Session) :=
  match Draft.ofFile mode l.path content with
  | .error _ => some (none, s)
  | .ok d =>
    let s := { s with atlas := { s.atlas with tables := s.atlas.tables.countRead } }
    if d.isPending then (link (fetch t load l) l.path d s).map fun (m, s) => (some m, s)
    else some (some { table := d.unlinked }, s)

/-- Keeps a module, if it is complete. -/
def keep (l : Location) (mode : Mode) (content : String) (complete : Bool) (m : Option Linked)
    (s : Session) : Session :=
  match m with
  | some m =>
    if complete then
      let tables := s.atlas.tables.insert l.path mode content m
      { s with atlas := { s.atlas with tables } }
    else s
  | none => s

/-- The module at a location: the one kept for its content, or else read and linked. A module that
is being linked already is not loaded again, so the number of modules bounds the depth; a load that
goes deeper than `fuel` gives up. -/
def load (t : Tree) : (fuel : Nat) → Load
  | 0, _, _, _ => none
  | fuel + 1, l, mode, s =>
    match t.read? l.path with
    | none => some (none, s)
    | some content =>
      match s.atlas.tables.get l.path mode content with
      | (some m, tables) => some (some m, { s with atlas := { s.atlas with tables } })
      | (none, tables) =>
        let s := { s with atlas := { s.atlas with tables } }
        match s.nesting.push l.path with
        | (none, nesting) => some (none, { s with nesting })
        | (some level, nesting) =>
          (build t (load t fuel) l mode content { s with nesting }).map fun (m, s) =>
            let (complete, nesting) := s.nesting.pop level
            (m, keep l mode content complete m { s with nesting })

/-- How deep loading can go: each module being linked is another candidate of a node of the
tree. -/
def loadDepth (t : Tree) (project : Project) : Nat :=
  (t.size + 1) * (2 * project.extensions.length + 1) + 2

/-- The table of the module at a location. -/
def loadTable (t : Tree) (l : Location) (mode : Mode) (atlas : Atlas) : Option Table × Atlas :=
  match load t (loadDepth t atlas.project) l mode { atlas } with
  | some (m, s) => (m.map (·.table), s.atlas)
  | none => (none, atlas)

/-- The table of the module at a path. -/
def tableAt (t : Tree) (path : Path) (mode : Mode) (atlas : Atlas) : Option Table × Atlas :=
  atlas.loadTable t ⟨path, none⟩ mode

/-- The table of the module that a specifier means, seen from a file. -/
def importModule (t : Tree) (specifier : String) (file : Path) (atlas : Atlas) :
    Option Table × Atlas :=
  match atlas.resolve t specifier file none with
  | (none, atlas) => (none, atlas)
  | (some l, atlas) => atlas.loadTable t l .full

/-! ## Forgetting -/

/-- Forgets the aliases, and all that may have used them. -/
def forgetAliases (atlas : Atlas) : Atlas :=
  { atlas with
    aliases := none
    locations := atlas.locations.clear
    tables := atlas.tables.clear }

/-- Forgets which packages and files were found. -/
def forgetPackages (atlas : Atlas) : Atlas :=
  { atlas with locations := atlas.locations.clear, finds := [] }

/-- Forgets all tables, locations and packages. -/
def clear (atlas : Atlas) : Atlas :=
  { atlas with tables := atlas.tables.clear, locations := atlas.locations.clear, finds := [] }

/-- The names of the files that say where packages are. -/
def packageFiles : List String := [Resolution.manifestName, "lock.yaml"]

/-- Forgets what may have changed with a file; gives the paths whose tables were dropped. -/
def invalidate (p : Path) (atlas : Atlas) : List Path × Atlas :=
  let (dropped, tables) := atlas.tables.invalidate p
  let atlas := { atlas with tables }
  let name := p.fileName?.getD ""
  let inRoot := (p.parent?.map (·.same atlas.project.root)).getD false
  if Resolution.aliasFiles.contains name && inRoot then
    (dropped, atlas.forgetAliases)
  else if packageFiles.contains name then (dropped, atlas.forgetPackages)
  else (dropped, atlas)

/-- Forgets what may have changed with any of several files. -/
def invalidateAllOf (paths : List Path) (atlas : Atlas) : Atlas :=
  paths.foldl (fun atlas p => (atlas.invalidate p).2) atlas

end Atlas

end ModuleAtlas
