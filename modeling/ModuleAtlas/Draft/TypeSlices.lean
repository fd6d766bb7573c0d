import ModuleAtlas.Draft.Basic
import ModuleAtlas.Text.Replace

/-!
# Types mentioned in signatures

Each callable entry of a draft carries the sources of the types of the same file that its
signature mentions, each once, in the order of mention.
-/

namespace ModuleAtlas.Draft

open Symbols

/-- Characters that start a name in a signature. -/
def isNameStart (c : Char) : Bool := c.isAlpha || c == '_' || c == '$'

/-- The names in a text from left to right; `current` is the name being read, last character
first. -/
def namesFrom (current : List Char) : List Char → List String
  | [] => if current.isEmpty then [] else [String.ofList current.reverse]
  | c :: cs =>
    if current.isEmpty then
      if isNameStart c then namesFrom [c] cs else namesFrom [] cs
    else if Text.isWordChar c then namesFrom (c :: current) cs
    else String.ofList current.reverse :: namesFrom [] cs

/-- The names mentioned in a text. -/
def mentioned (text : String) : List String := namesFrom [] text.toList

/-- The names and sources of the types a draft declares: first those it does not export. -/
def types (d : Draft) : List (String × String) :=
  let declared := d.locals.map (fun l => (l.name, l.declaration)) ++
    d.entries.map fun e => (e.name, e.declaration)
  declared.filterMap fun (name, declaration) =>
    if declaration.kind.namesType then declaration.source?.map (name, ·) else none

/-- The source of the first type of a name. -/
def sourceOf (types : List (String × String)) (name : String) : Option String :=
  (types.find? (·.1 == name)).map (·.2)

/-- The list without what occurred before. -/
def distinct (sources : List String) : List String :=
  sources.foldl (fun seen s => if seen.contains s then seen else seen ++ [s]) []

/-- The sources of the types that an entry's signature mentions besides itself. -/
def slicesOf (types : List (String × String)) (e : Export) (s : Signature) : List String :=
  distinct (((mentioned (s.params ++ " " ++ s.returnType)).filter (· != e.name)).filterMap
    (sourceOf types))

/-- An entry with its type slices, if it can be called. -/
def withSlices (types : List (String × String)) (e : Export) : Export :=
  match e.declaration.signature? with
  | some s => { e with typeSlices := slicesOf types e s }
  | none => e

/-- A draft with the type slices of its entries. -/
def withTypeSlices (d : Draft) : Draft :=
  { d with slots := d.slots.map (Slot.mapEntry (withSlices d.types)) }

end ModuleAtlas.Draft
