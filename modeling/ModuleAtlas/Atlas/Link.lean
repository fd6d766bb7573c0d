import ModuleAtlas.Atlas.TableCache
import ModuleAtlas.Text.Replace

/-!
# Linking

A draft becomes a table by following its references. A reference to a name takes the declaration
that the name has: of a local declaration, an imported binding, another export, or an export of
another module. Where all exports of another module go, they are put in place.

How other modules are reached is left open: `Fetch` asks for the module a specifier means, in some
state that it may change.
-/

namespace ModuleAtlas.Atlas

open Draft (Slot Mode)
open Symbols

/-- What asking for a module gives: the paths of the modules it led to, and the table of the
module, if it has one. -/
structure Fetched where
  dependencies : List Path := []
  table : Option Table := none
deriving DecidableEq, Repr

/-- A way to ask for the module that a specifier means. It may give up, and what waits for it then
gives up too. -/
abbrev Fetch (σ : Type) := String → Mode → σ → Option (Fetched × σ)

/-! ## Local names -/

/-- What a local name leads to. -/
inductive Target where
  | declared (entry : Export)
  | imported (binding : Import)
deriving DecidableEq, Repr

/-- The name that a name is only another name of, inside the module. -/
def localReference? (d : Draft) (name : String) : Option String :=
  match d.locals.find? (·.name == name) with
  | some ⟨_, .reference target none⟩ => some target
  | _ => none

/-- The last name of the chain of local references that starts at a name; none when the chain runs
in a circle. A chain that does not is no longer than the list of local declarations. -/
def chainEnd (d : Draft) : (fuel : Nat) → String → Option String
  | 0, name => if (localReference? d name).isSome then none else some name
  | fuel + 1, name =>
    match localReference? d name with
    | some target => chainEnd d fuel target
    | none => some name

/-- What a name that is no local reference stands for: a local declaration, an imported binding, or
an export. -/
def targetAt (d : Draft) (name : String) : Option Target :=
  match d.locals.find? (·.name == name) with
  | some l => some (.declared { name := l.name, declaration := l.declaration })
  | none =>
    match d.imports.find? (·.localName == name) with
    | some i => some (.imported i)
    | none =>
      (d.entries.find? fun e => e.name == name && !e.declaration.isReference).map .declared

/-- What a local name leads to. -/
def target? (d : Draft) (name : String) : Option Target :=
  (chainEnd d d.locals.length name).bind (targetAt d)

/-! ## Entries -/

/-- The text of a declaration with a name replaced. A default export without a name has none in its
text. -/
def renameIn (d : Declaration) (old new : String) : Declaration :=
  if old = defaultName then d else d.mapSource (Text.substituteWord · old new)

/-- What a reference exports: the found entry under the name of the reference. -/
def exportAs (e found : Export) : Export :=
  let shaped : Export := { found with isDefault := e.isDefault, newName := e.newName }
  let external := e.outerName
  if e.isDefault || external == found.name then shaped
  else
    { shaped with
      name := external
      declaration := renameIn found.declaration found.name external }

/-- The exports without those that repeat an earlier one: a name counts once among defaults and
once among the others. -/
def distinctExports (es : List Export) : List Export :=
  es.foldl (fun kept e =>
    if kept.any fun k => k.isDefault == e.isDefault && k.outerName == e.outerName then kept
    else kept ++ [e]) []

/-! ## Following references -/

/-- The entry that an imported binding stands for, and the paths it led to. -/
def followImport {σ : Type} (fetch : Fetch σ) (i : Import) (s : σ) :
    Option ((Option Export × List Path) × σ) :=
  if i.isNamespace then
    some ((some { name := i.localName, declaration := .wholeModule i.source }, []), s)
  else
    (fetch i.source .full s).map fun (f, s) =>
      let found := f.table.bind fun t =>
        if i.isDefault then t.default? else t.named? i.soughtName
      ((found, f.dependencies), s)

/-- The entry that a target stands for, and the paths it led to. -/
def followTarget {σ : Type} (fetch : Fetch σ) (d : Draft) (name : String) (s : σ) :
    Option ((Option Export × List Path) × σ) :=
  match target? d name with
  | some (.declared e) => some ((some e, []), s)
  | some (.imported i) => followImport fetch i s
  | none => some ((none, []), s)

/-- The entry that a reference stands for, and the paths it led to. -/
def followReference {σ : Type} (fetch : Fetch σ) (d : Draft) (target : String)
    (origin : Option String) (s : σ) : Option ((Option Export × List Path) × σ) :=
  match origin with
  | some specifier =>
    (fetch specifier .full s).map fun (f, s) =>
      ((f.table.bind (·.lookup target), f.dependencies), s)
  | none => followTarget fetch d target s

/-- The exports that a slot stands for, and the paths they led to. A reference that leads nowhere
stays as it is. -/
def linkSlot {σ : Type} (fetch : Fetch σ) (d : Draft) (slot : Slot) (s : σ) :
    Option ((List Export × List Path) × σ) :=
  match slot with
  | .everything specifier =>
    (fetch specifier .exportsOnly s).map fun (f, s) =>
      (((f.table.map (·.exports)).getD [], f.dependencies), s)
  | .entry e =>
    match e.declaration with
    | .reference target origin =>
      (followReference fetch d target origin s).map fun ((found, paths), s) =>
        (([(found.map (exportAs e)).getD e], paths), s)
    | _ => some (([e], []), s)

/-- The exports that slots stand for, and the paths they led to. -/
def linkSlots {σ : Type} (fetch : Fetch σ) (d : Draft) :
    List Slot → σ → Option ((List Export × List Path) × σ)
  | [], s => some (([], []), s)
  | slot :: rest, s =>
    (linkSlot fetch d slot s).bind fun ((es, paths), s) =>
      (linkSlots fetch d rest s).map fun ((more, morePaths), s) =>
        ((es ++ more, paths ++ morePaths), s)

/-- Paths in order without those that repeat the one before, and without a module's own. -/
def dependencySet (own : Path) (paths : List Path) : List Path :=
  ((sortPaths paths).eraseRepsBy Path.same).filter (!·.same own)

/-- Links a draft at a path. -/
def link {σ : Type} (fetch : Fetch σ) (own : Path) (d : Draft) (s : σ) : Option (Linked × σ) :=
  (linkSlots fetch d d.slots s).map fun ((es, paths), s) =>
    ({ table := { exports := distinctExports es, imports := d.imports, locals := d.locals }
       dependencies := dependencySet own paths }, s)

end ModuleAtlas.Atlas
