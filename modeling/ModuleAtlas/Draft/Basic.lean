import ModuleAtlas.Symbols.Table

/-!
# Drafts of symbol tables

What one file says by itself, before references to other modules are followed. A draft keeps its
exports in slots: an entry, or the place where all exports of another module go.

`Fact` is what a single statement adds; `Draft.ofFacts` collects them. Several signatures of one
exported function become one entry.
-/

namespace ModuleAtlas

open Symbols

namespace Draft

/-- How much of a module is taken: everything, or all but its imports. -/
inductive Mode where
  | full
  | exportsOnly
deriving DecidableEq, Repr

/-- One position in a module's list of exports. -/
inductive Slot where
  | entry (e : Export)
  /-- All exports of another module. -/
  | everything (specifier : String)
deriving DecidableEq, Repr

namespace Slot

/-- The entry in a slot. -/
def entry? : Slot → Option Export
  | entry e => some e
  | everything _ => none

/-- A slot with its entry changed. -/
def mapEntry (f : Export → Export) : Slot → Slot
  | entry e => entry (f e)
  | everything s => everything s

/-- Whether a slot refers to something else. -/
def isPending : Slot → Bool
  | entry e => e.declaration.isReference
  | everything _ => true

end Slot

end Draft

/-- The table of one file by itself. -/
structure Draft where
  slots : List Draft.Slot := []
  imports : List Import := []
  locals : List Local := []
deriving DecidableEq, Repr

namespace Draft

/-- One thing a statement says. -/
inductive Fact where
  | imports (i : Import)
  | declares (name : String) (declaration : Declaration)
  | exports (e : Export)
  /-- An exported function, which may have been seen before with another signature. -/
  | exportsFunction (name : String) (signature : Signature)
  | exportsAllOf (specifier : String)
deriving DecidableEq, Repr

/-- The entries of a draft. -/
def entries (d : Draft) : List Export := d.slots.filterMap Slot.entry?

/-- Whether following references can change anything. -/
def isPending (d : Draft) : Bool := d.slots.any Slot.isPending

/-- The table of a draft as it is; exports of other modules are left out. -/
def unlinked (d : Draft) : Table := ⟨d.entries, d.imports, d.locals⟩

/-- Whether a slot holds an earlier signature of a function. -/
def holdsFunction (name : String) : Slot → Bool
  | .entry e =>
    e.name == name && !e.isDefault && e.newName.isNone &&
      match e.declaration with
      | .function _ => true
      | _ => false
  | .everything _ => false

/-- Slots with one more signature of an exported function: joined to the first entry of that
function, or as an entry of its own. -/
def addFunction (name : String) (s : Signature) : List Slot → List Slot
  | [] => [.entry { name, declaration := .function s }]
  | slot :: rest =>
    if holdsFunction name slot then
      slot.mapEntry (fun e => { e with declaration := e.declaration.withOverload s }) :: rest
    else slot :: addFunction name s rest

/-- A draft with one more fact. -/
def add (d : Draft) : Fact → Draft
  | .imports i => { d with imports := d.imports ++ [i] }
  | .declares name declaration => { d with locals := d.locals ++ [⟨name, declaration⟩] }
  | .exports e => { d with slots := d.slots ++ [.entry e] }
  | .exportsFunction name s => { d with slots := addFunction name s d.slots }
  | .exportsAllOf specifier => { d with slots := d.slots ++ [.everything specifier] }

/-- The draft of a list of facts. -/
def ofFacts (facts : List Fact) : Draft := facts.foldl add {}

end Draft

end ModuleAtlas
