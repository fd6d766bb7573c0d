import ModuleAtlas.Proofs.JsonPrinting
import ModuleAtlas.Symbols.Codec

/-!
# Tables in JSON and back

Writing a table and reading it again gives the same table (`Table.ofJson?_toJson`), by way of its
exports, imports, local declarations and their parts, each of which is read back by itself. A
written table is shallow and has no numbers, so it is also read back from its text, in every layout
(`Table.parse?_render`).
-/

namespace ModuleAtlas

/-! ## Fields -/

namespace Json

section Fields

variable {α : Type} {fs : Fields} {name : String} {read : Value → Option α}

theorem Fields.required_eq {v : Value} (field : fs name = some v) :
    fs.required name read = read v := by
  rw [Fields.required, field, Option.bind_some]

/-- A field that is written only when it is set is read as it was. -/
theorem Fields.optional_eq {s : Option String} (field : fs name = s.map .string) :
    fs.optional name Value.string? = some s := by
  rw [Fields.optional, field]
  cases s <;> rfl

theorem readList_map {encode : α → Value} (inverse : ∀ a, read (encode a) = some a) (as : List α) :
    readList read (.array (as.map encode)) = some as := by
  rw [readList, Value.array?, Option.bind_some]
  induction as with
  | nil => rfl
  | cons a as ih =>
    rw [List.map_cons, mapM_cons_option, inverse, ih]
    rfl

/-- A list that is written only when it has items is read as it was. -/
theorem Fields.withDefault_eq {encode : α → Value} (inverse : ∀ a, read (encode a) = some a)
    {as : List α} (field : fs name = if as.isEmpty then none else some (.array (as.map encode))) :
    fs.withDefault name (readList read) [] = some as := by
  rw [Fields.withDefault, field]
  cases as with
  | nil => rfl
  | cons a as => exact readList_map inverse (a :: as)

end Fields

end Json

/-! ## Reading what was written -/

namespace Symbols

open Json (Value Fields Simple Layout readList)

theorem Declaration.ofJson?_toJson (d : Declaration) : ofJson? d.toJson = some d := by
  cases d with
  | function s => obtain ⟨params, returnType, source⟩ := s; cases source <;> rfl
  | arrowFunction s => obtain ⟨params, returnType, source⟩ := s; cases source <;> rfl
  | variableDecl valueKind declaredType source =>
    cases valueKind <;> cases declaredType <;> cases source <;> rfl
  | reference target origin => cases origin <;> rfl
  | _ => rfl

theorem Export.ofJson?_toJson (e : Export) : ofJson? e.toJson = some e := by
  have isDefault : Json.lookup e.toFields "is_default" = some (.bool e.isDefault) := by
    rw [toFields]
    cases e.newName <;> rfl
  have newName : Json.lookup e.toFields "alias" = e.newName.map .string := by
    rw [toFields]
    cases e.newName with
    | none => cases e.typeSlices <;> rfl
    | some new => rfl
  have declaration : Json.lookup e.toFields "declaration" = some e.declaration.toJson := by
    rw [toFields]
    cases e.newName <;> rfl
  have slices : Json.lookup e.toFields "extra_type_slices" =
      if e.typeSlices.isEmpty then none else some (.array (e.typeSlices.map .string)) := by
    rw [toFields]
    cases e.newName <;> cases e.typeSlices <;> rfl
  have string (s : String) : Value.string? (.string s) = some s := rfl
  rw [toJson, ofJson?, Json.fieldsOf]
  simp only [Option.bind_eq_bind, Option.bind_some]
  rw [Fields.required_eq (v := .string e.name) rfl, Fields.optional_eq newName,
    Fields.required_eq isDefault, Fields.required_eq declaration,
    Fields.withDefault_eq string slices, Declaration.ofJson?_toJson]
  rfl

theorem Import.ofJson?_toJson (i : Import) : ofJson? i.toJson = some i := by
  obtain ⟨localName, importedName, isDefault, isNamespace, source⟩ := i
  cases importedName <;> rfl

theorem Local.ofJson?_toJson (l : Local) : ofJson? l.toJson = some l := by
  rw [toJson, ofJson?, Json.fieldsOf]
  simp only [Option.bind_eq_bind, Option.bind_some]
  rw [Fields.required_eq (v := .string l.name) rfl,
    Fields.required_eq (v := l.declaration.toJson) rfl, Declaration.ofJson?_toJson]
  rfl

theorem Table.ofJson?_toJson (t : Table) : ofJson? t.toJson = some t := by
  rw [toJson, ofJson?, Json.fieldsOf]
  simp only [Option.bind_eq_bind, Option.bind_some]
  rw [Fields.required_eq (v := .array (t.exports.map Export.toJson)) rfl,
    Fields.required_eq (v := .array (t.imports.map Import.toJson)) rfl,
    Fields.required_eq (v := .array (t.locals.map Local.toJson)) rfl,
    Json.readList_map Export.ofJson?_toJson, Json.readList_map Import.ofJson?_toJson,
    Json.readList_map Local.ofJson?_toJson]
  rfl

/-! ## Written tables -/

/-- Fields whose values are simple and whose names stand in the given order, some perhaps left
out. -/
structure FieldsOf (depth : Nat) (names : List String) (fs : List (String × Value)) : Prop where
  inOrder : (fs.map (·.1)).Sublist names
  simple : ∀ f ∈ fs, Simple depth f.2

namespace FieldsOf

variable {depth : Nat} {names names' : List String} {fs fs' : List (String × Value)} {v : Value}

theorem field (name : String) (simple : Simple depth v) : FieldsOf depth [name] [(name, v)] :=
  ⟨.refl _, by simpa using simple⟩

theorem ifSet (name : String) (s : Option String) :
    FieldsOf depth [name] (Json.fieldIfSet name s) := by
  cases s with
  | none => exact ⟨List.nil_sublist _, fun f member => absurd member List.not_mem_nil⟩
  | some s => exact field name (.string s)

theorem append (h : FieldsOf depth names fs) (h' : FieldsOf depth names' fs') :
    FieldsOf depth (names ++ names') (fs ++ fs') := by
  refine ⟨?_, List.forall_mem_append.mpr ⟨h.simple, h'.simple⟩⟩
  rw [List.map_append]
  exact h.inOrder.append h'.inOrder

theorem simple_object (h : FieldsOf depth names fs) (distinct : names.Nodup) :
    Simple (depth + 1) (.object fs) :=
  .object h.simple (distinct.sublist h.inOrder)

end FieldsOf

theorem simple_array {α : Type} {encode : α → Value} {depth : Nat}
    (simple : ∀ a, Simple depth (encode a)) (as : List α) :
    Simple (depth + 1) (.array (as.map encode)) :=
  .array (List.forall_mem_map.mpr fun a _ => simple a)

theorem Signature.fieldsOf (s : Signature) (depth : Nat) :
    FieldsOf depth ["params", "return_type", "source"] s.toFields :=
  ((FieldsOf.field "params" (.string s.params)).append
    (.field "return_type" (.string s.returnType))).append (.ifSet "source" s.source)

theorem Declaration.simple_toJson (d : Declaration) (depth : Nat) :
    Simple (depth + 1) d.toJson := by
  have withKind {names : List String} (fields : FieldsOf depth names d.toFields)
      (distinct : ("kind" :: names).Nodup) : Simple (depth + 1) d.toJson :=
    ((FieldsOf.field "kind" (.string d.formName)).append fields).simple_object distinct
  cases d with
  | function s => exact withKind (s.fieldsOf depth) (by decide)
  | arrowFunction s => exact withKind (s.fieldsOf depth) (by decide)
  | variableDecl valueKind declaredType source =>
    exact withKind (((FieldsOf.ifSet "expression_kind" valueKind).append
      (.ifSet "annotation" declaredType)).append (.ifSet "source" source)) (by decide)
  | reference target origin =>
    exact withKind ((FieldsOf.field "target" (.string target)).append (.ifSet "from" origin))
      (by decide)
  | wholeModule specifier => exact withKind (.field "specifier" (.string specifier)) (by decide)
  | json value => exact withKind (.field "value" (.string value)) (by decide)
  | _ => exact withKind (.field "source" (.string _)) (by decide)

theorem Export.simple_toJson (e : Export) (depth : Nat) : Simple (depth + 2) e.toJson := by
  have slices : FieldsOf (depth + 1) ["extra_type_slices"]
      (if e.typeSlices.isEmpty then []
        else [("extra_type_slices", .array (e.typeSlices.map .string))]) := by
    split
    · exact .ifSet "extra_type_slices" none
    · exact .field _ (simple_array .string e.typeSlices)
  exact ((FieldsOf.field "name" (.string e.name)).append
    (((FieldsOf.ifSet "alias" e.newName).append
      ((FieldsOf.field "is_default" (.bool e.isDefault)).append
        (.field "declaration" (e.declaration.simple_toJson depth)))).append slices)).simple_object
    (by decide)

theorem Import.simple_toJson (i : Import) (depth : Nat) : Simple (depth + 1) i.toJson :=
  ((FieldsOf.field "local_name" (.string i.localName)).append
    ((FieldsOf.ifSet "imported_name" i.importedName).append
      ((FieldsOf.field "is_default" (.bool i.isDefault)).append
        ((FieldsOf.field "is_namespace" (.bool i.isNamespace)).append
          (.field "source" (.string i.source)))))).simple_object (by decide)

theorem Local.simple_toJson (l : Local) (depth : Nat) : Simple (depth + 2) l.toJson :=
  ((FieldsOf.field "name" (.string l.name)).append
    (.field "declaration" (l.declaration.simple_toJson depth))).simple_object (by decide)

theorem Table.simple_toJson (t : Table) (depth : Nat) : Simple (depth + 4) t.toJson :=
  ((FieldsOf.field "exports" (simple_array (Export.simple_toJson · depth) t.exports)).append
    ((FieldsOf.field "imports" (simple_array (Import.simple_toJson · (depth + 1)) t.imports)).append
      (.field "scoped" (simple_array (Local.simple_toJson · depth) t.locals)))).simple_object
    (by decide)

/-! ## Texts -/

/-- The table in a JSON text. -/
def Table.ofText? (text : String) : Option Table := (Json.parse? text).bind Table.ofJson?

theorem Table.parse?_render (t : Table) (l : Layout) :
    Json.parse? (Json.render l t.toJson) = some t.toJson :=
  Json.parse?_render (t.simple_toJson _) l

theorem Table.ofText?_render (t : Table) (l : Layout) :
    ofText? (Json.render l t.toJson) = some t := by
  rw [ofText?, t.parse?_render, Option.bind_some, ofJson?_toJson]

/-- Every table is read back from its value, and the value from its text in every layout. What can
be read at all, as a value or as a text, is the same table after it is written and read again. -/
theorem table_survives_writing :
    (∀ t : Table, Table.ofJson? t.toJson = some t) ∧
      (∀ (t : Table) (l : Layout), Json.parse? (Json.render l t.toJson) = some t.toJson) ∧
      (∀ v : Value, (Table.ofJson? v).bind (fun t => Table.ofJson? t.toJson) = Table.ofJson? v) ∧
      ∀ (text : String) (l : Layout),
        (Table.ofText? text).bind (fun t => Table.ofText? (Json.render l t.toJson)) =
          Table.ofText? text := by
  refine ⟨Table.ofJson?_toJson, Table.parse?_render, fun v => ?_, fun text l => ?_⟩
  · rw [funext Table.ofJson?_toJson, Option.bind_fun_some]
  · rw [funext (Table.ofText?_render · l), Option.bind_fun_some]

/-- Fields in order, unset or unknown ones among them. -/
example :
    Table.ofText? ("[[[\"f\", null, true, \x7b\"kind\": \"alias\", \"from\": null, " ++
        "\"target\": \"g\", \"x\": 1\x7d]], [], []]") =
      some { exports :=
        [{ name := "f", isDefault := true, declaration := .reference "g" none }] } := by
  decide +kernel

end Symbols

end ModuleAtlas
