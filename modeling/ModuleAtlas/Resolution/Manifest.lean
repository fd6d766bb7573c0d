import ModuleAtlas.Json.Reader
import ModuleAtlas.Json.Record

/-!
# Package manifests

The fields of a manifest that say which file of a package a specifier means.
-/

namespace ModuleAtlas.Resolution

open Json (Value Rest)

/-- The fields of a manifest that decide the entry of a package. -/
structure Manifest where
  name : Option String := none
  types : Option String := none
  typings : Option String := none
  module : Option String := none
  main : Option String := none
  exports : Option Value := none
deriving Repr

namespace Manifest

/-! ## Reading -/

/-- The fields of a manifest, in order. -/
def fieldNames : List String := ["name", "types", "typings", "module", "main", "exports"]

/-- One field of an object: a known one with its value, any other only passed over. -/
def readKnownField (cs : Rest) : Option (Option (String × Value) × Rest) :=
  match Json.readString cs with
  | none => none
  | some (key, cs) =>
    match Json.skipSpace cs with
    | ':' :: cs =>
      if fieldNames.contains key then
        (Json.readValue (Json.maxDepth - 1) (Json.skipSpace cs)).map fun (v, cs) =>
          (some (key, v), cs)
      else (Json.skipValue (cs.length + 1) (Json.skipSpace cs)).map fun (_, cs) => (none, cs)
    | _ => none

/-- The manifest with the given fields. -/
def ofFields? (fs : Json.Fields) : Option Manifest := do
  return {
    name := ← fs.optional "name" Value.string?
    types := ← fs.optional "types" Value.string?
    typings := ← fs.optional "typings" Value.string?
    module := ← fs.optional "module" Value.string?
    main := ← fs.optional "main" Value.string?
    exports := ← fs.optional "exports" some }

/-- The manifest of a whole text. A known field may not be repeated. -/
def parse? (text : String) : Option Manifest :=
  match Json.skipSpace text.toList with
  | '\x7b' :: cs => do
    let (found, rest) ← Json.bracketed '\x7d' readKnownField cs
    guard (Json.skipSpace rest).isEmpty
    let fields := found.filterMap id
    guard (decide (fields.map (·.1)).Nodup)
    ofFields? (Json.lookup fields)
  | _ => do
    let v ← Json.parse? text
    guard v.array?.isSome
    ofFields? (← Json.fieldsOf fieldNames 1 v)

/-! ## Entries -/

/-- The `types` of a target, also inside its conditions `import` and `require`. -/
def typesOf (target : Value) : Option String :=
  ((target.get? "types").bind Value.string?).or
    (["import", "require"].findSome? fun condition =>
      ((target.get? condition).bind (·.get? "types")).bind Value.string?)

/-- The entry that the target of the package itself names. -/
def targetEntry (target : Value) : Option String :=
  target.string?.or ((typesOf target).or
    (["import", "default", "require"].findSome? fun condition =>
      (target.get? condition).bind Value.string?))

/-- The target of a path inside the package. -/
def subpathTarget (m : Manifest) (subpath : String) : Option Value :=
  m.exports.bind (·.get? ("./" ++ subpath))

/-- Whether a path inside the package is exported. -/
def hasSubpath (m : Manifest) (subpath : String) : Bool := (m.subpathTarget subpath).isSome

/-- The types of a path inside the package. -/
def typesAt (m : Manifest) (subpath : String) : Option String :=
  (m.subpathTarget subpath).bind typesOf

/-- The entry that the exports name for the package itself. -/
def exportsEntry (exported : Value) : Option String :=
  exported.string?.or
    ((["types", "default"].findSome? fun field => (exported.get? field).bind Value.string?).or
      ((exported.get? ".").bind targetEntry))

/-- The entry of the package itself: the first field that names one. -/
def ownEntry (m : Manifest) : Option String :=
  ([m.types, m.typings, m.module, m.main].findSome? fun field =>
    field.filter (!·.isEmpty)).or (m.exports.bind exportsEntry)

end Manifest

end ModuleAtlas.Resolution
