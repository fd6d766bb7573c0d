import ModuleAtlas.Json.Record
import ModuleAtlas.Symbols.Table

/-!
# Symbol tables as JSON

Each declaration is an object whose field `kind` says which of the forms it has. What is not set
is not written.

Tables and what stands in them may also be given as the list of their fields, in order. For
declarations this is left out: one that is given as a list, the name of its form first, is refused.
-/

namespace ModuleAtlas.Symbols

open Json (Value Fields)

/-! ## Writing -/

/-- The fields of a signature. -/
def Signature.toFields (s : Signature) : List (String × Value) :=
  [("params", .string s.params), ("return_type", .string s.returnType)] ++
    Json.fieldIfSet "source" s.source

namespace Declaration

/-- The name of a declaration's form. -/
def formName : Declaration → String
  | reference .. => "alias"
  | wholeModule _ => "namespace_reexport"
  | d => d.kind.name

/-- The fields of a declaration besides the name of its form. -/
def toFields : Declaration → List (String × Value)
  | function s | arrowFunction s => s.toFields
  | classDecl s | interface s | typeAlias s | enumDecl s | namespaceDecl s =>
    [("source", .string s)]
  | variableDecl k t s =>
    Json.fieldIfSet "expression_kind" k ++ Json.fieldIfSet "annotation" t ++
      Json.fieldIfSet "source" s
  | reference target origin => ("target", .string target) :: Json.fieldIfSet "from" origin
  | wholeModule specifier => [("specifier", .string specifier)]
  | json value => [("value", .string value)]

/-- A declaration as JSON. -/
def toJson (d : Declaration) : Value := .object (("kind", .string d.formName) :: d.toFields)

end Declaration

/-- The fields of an export. -/
def Export.toFields (e : Export) : List (String × Value) :=
  ("name", .string e.name) :: (Json.fieldIfSet "alias" e.newName ++
    [("is_default", .bool e.isDefault), ("declaration", e.declaration.toJson)] ++
    if e.typeSlices.isEmpty then []
    else [("extra_type_slices", .array (e.typeSlices.map .string))])

/-- An export as JSON. -/
def Export.toJson (e : Export) : Value := .object e.toFields

/-- An export as JSON with the name importers see and its tags. -/
def Export.toReport (e : Export) : Value :=
  .object (e.toFields ++
    [("exported_name", .string e.outerName), ("tags", .array (e.tags.map .string))])

/-- An import as JSON. -/
def Import.toJson (i : Import) : Value :=
  .object (("local_name", .string i.localName) ::
    (Json.fieldIfSet "imported_name" i.importedName ++
      [("is_default", .bool i.isDefault), ("is_namespace", .bool i.isNamespace),
        ("source", .string i.source)]))

/-- A local declaration as JSON. -/
def Local.toJson (l : Local) : Value :=
  .object [("name", .string l.name), ("declaration", l.declaration.toJson)]

/-- A table as JSON. -/
def Table.toJson (t : Table) : Value :=
  .object [("exports", .array (t.exports.map Export.toJson)),
    ("imports", .array (t.imports.map Import.toJson)),
    ("scoped", .array (t.locals.map Local.toJson))]

/-- A table as JSON with its exports described. -/
def Table.toReport (t : Table) : Value :=
  .object [("exports", .array (t.exports.map Export.toReport)),
    ("imports", .array (t.imports.map Import.toJson)),
    ("scoped", .array (t.locals.map Local.toJson))]

/-! ## Reading -/

/-- The signature in the fields of a declaration. -/
def Signature.ofFields? (fs : Fields) : Option Signature := do
  return {
    params := ← fs.required "params" Value.string?
    returnType := ← fs.required "return_type" Value.string?
    source := ← fs.optional "source" Value.string? }

namespace Declaration

/-- The declaration of a form with the given fields. -/
def ofFields? (form : String) (fs : Fields) : Option Declaration :=
  let source := fs.required "source" Value.string?
  match form with
  | "function" => (Signature.ofFields? fs).map function
  | "arrow_function" => (Signature.ofFields? fs).map arrowFunction
  | "class" => source.map classDecl
  | "interface" => source.map interface
  | "type_alias" => source.map typeAlias
  | "enum" => source.map enumDecl
  | "namespace" => source.map namespaceDecl
  | "variable" => do
    return variableDecl (← fs.optional "expression_kind" Value.string?)
      (← fs.optional "annotation" Value.string?) (← fs.optional "source" Value.string?)
  | "alias" => do
    return reference (← fs.required "target" Value.string?) (← fs.optional "from" Value.string?)
  | "namespace_reexport" => (fs.required "specifier" Value.string?).map wholeModule
  | "json" => (fs.required "value" Value.string?).map json
  | _ => none

/-- Reads a declaration from an object. -/
def ofJson? (v : Value) : Option Declaration :=
  match v with
  | .object fs => do
    ofFields? (← (Json.lookup fs "kind").bind Value.string?) (Json.lookup fs)
  | _ => none

end Declaration

/-- Reads an export. -/
def Export.ofJson? (v : Value) : Option Export := do
  let fs ← Json.fieldsOf ["name", "alias", "is_default", "declaration", "extra_type_slices"] 1 v
  return {
    name := ← fs.required "name" Value.string?
    newName := ← fs.optional "alias" Value.string?
    isDefault := ← fs.required "is_default" Value.bool?
    declaration := ← fs.required "declaration" Declaration.ofJson?
    typeSlices := ← fs.withDefault "extra_type_slices" (Json.readList Value.string?) [] }

/-- Reads an import. -/
def Import.ofJson? (v : Value) : Option Import := do
  let fs ← Json.fieldsOf ["local_name", "imported_name", "is_default", "is_namespace", "source"] 0 v
  return {
    localName := ← fs.required "local_name" Value.string?
    importedName := ← fs.optional "imported_name" Value.string?
    isDefault := ← fs.required "is_default" Value.bool?
    isNamespace := ← fs.required "is_namespace" Value.bool?
    source := ← fs.required "source" Value.string? }

/-- Reads a local declaration. -/
def Local.ofJson? (v : Value) : Option Local := do
  let fs ← Json.fieldsOf ["name", "declaration"] 0 v
  return {
    name := ← fs.required "name" Value.string?
    declaration := ← fs.required "declaration" Declaration.ofJson? }

/-- Reads a table. -/
def Table.ofJson? (v : Value) : Option Table := do
  let fs ← Json.fieldsOf ["exports", "imports", "scoped"] 0 v
  return {
    exports := ← fs.required "exports" (Json.readList Export.ofJson?)
    imports := ← fs.required "imports" (Json.readList Import.ofJson?)
    locals := ← fs.required "scoped" (Json.readList Local.ofJson?) }

end ModuleAtlas.Symbols
