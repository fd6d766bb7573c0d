import ModuleAtlas.Draft.Basic
import ModuleAtlas.Path.Basic

/-!
# Tables kept for files

The table of a file is kept with the content it came from and with the paths of the modules it was
linked against. It counts only as long as the content is the same. Dropping a path drops every
table that was built on it, however far.
-/

namespace ModuleAtlas.Atlas

open Draft (Mode)
open Symbols (Table)

/-- A finished table and the paths of the modules it was linked against. -/
structure Linked where
  table : Table
  dependencies : List Path := []
deriving DecidableEq, Repr

/-- A table kept for a path and a mode. -/
structure KeptTable where
  path : Path
  mode : Mode
  content : String
  module : Linked
deriving DecidableEq, Repr

/-- The tables kept, at most one for each path and mode, and how often they served. -/
structure TableCache where
  entries : List KeptTable := []
  hits : Nat := 0
  misses : Nat := 0
  reads : Nat := 0
deriving DecidableEq, Repr

/-- Whether an entry is the one for a path and a mode. -/
def KeptTable.isFor (e : KeptTable) (p : Path) (mode : Mode) : Bool :=
  e.path.same p && e.mode == mode

namespace TableCache

/-- The entry for a path and a mode. -/
def find? (c : TableCache) (p : Path) (mode : Mode) : Option KeptTable :=
  c.entries.find? (·.isFor p mode)

/-- Whether there is an entry for a path and a mode. -/
def has (c : TableCache) (p : Path) (mode : Mode) : Bool := (c.find? p mode).isSome

/-- The module kept for a path, if it came from this content. An entry for other content is
dropped. -/
def get (c : TableCache) (p : Path) (mode : Mode) (content : String) :
    Option Linked × TableCache :=
  match c.find? p mode with
  | some e =>
    if e.content = content then (some e.module, { c with hits := c.hits + 1 })
    else
      (none, { c with
        entries := c.entries.filter fun e => !e.isFor p mode
        misses := c.misses + 1 })
  | none => (none, { c with misses := c.misses + 1 })

/-- Keeps a module for a path. -/
def insert (c : TableCache) (p : Path) (mode : Mode) (content : String) (module : Linked) :
    TableCache :=
  if c.has p mode then
    { c with entries := c.entries.map fun e =>
        if e.isFor p mode then { e with content, module } else e }
  else { c with entries := c.entries ++ [⟨p, mode, content, module⟩] }

/-- Counts one more file that was read. -/
def countRead (c : TableCache) : TableCache := { c with reads := c.reads + 1 }

/-- Drops all entries. -/
def clear (c : TableCache) : TableCache := { c with entries := [] }

end TableCache

/-! ## Dropping a path -/

/-- Whether a path is among others. -/
def among (paths : List Path) (p : Path) : Bool := paths.any (·.same p)

/-- Paths with the path of an entry, if the entry was linked against one of them. -/
def addDependent (paths : List Path) (e : KeptTable) : List Path :=
  if !among paths e.path && e.module.dependencies.any (among paths) then paths ++ [e.path]
  else paths

/-- Paths with those of all entries linked against them, `rounds` steps far. -/
def dependentsWithin (entries : List KeptTable) : (rounds : Nat) → List Path → List Path
  | 0, paths => paths
  | rounds + 1, paths => dependentsWithin entries rounds (entries.foldl addDependent paths)

/-- A path and those of all entries linked against it, however far. Each round but the last adds a
path, so there are no more rounds than entries. -/
def dependentsOf (entries : List KeptTable) (p : Path) : List Path :=
  dependentsWithin entries (entries.length + 1) [p]

/-- Paths in order. -/
def sortPaths (paths : List Path) : List Path := paths.mergeSort fun p q => !q.before p

/-- Drops a path and all entries linked against it; gives the dropped paths in order. -/
def TableCache.invalidate (c : TableCache) (p : Path) : List Path × TableCache :=
  let dropped := dependentsOf c.entries p
  (sortPaths dropped, { c with entries := c.entries.filter fun e => !among dropped e.path })

end ModuleAtlas.Atlas
