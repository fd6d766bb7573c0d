import ModuleAtlas.Json.Value

/-!
# Records in JSON

A record is written as an object of its fields. It may also be given as an array of its fields in
order, from which only the last ones may be left off, and only those that have a default. Fields
that the record does not have are of no interest.
-/

namespace ModuleAtlas.Json

/-- Access to the fields of a record by name. -/
abbrev Fields := String → Option Value

/-- The fields of a record with the given field names, the last `defaults` of which may be left
off an array. -/
def fieldsOf (names : List String) (defaults : Nat) : Value → Option Fields
  | .object fs => some (lookup fs)
  | .array items =>
    if items.length ≤ names.length ∧ names.length ≤ items.length + defaults then
      some (lookup (names.zip items))
    else none
  | _ => none

/-- A field that has to be there. -/
def Fields.required {α : Type} (fs : Fields) (name : String) (read : Value → Option α) :
    Option α :=
  (fs name).bind read

/-- A field that may be missing or null. -/
def Fields.optional {α : Type} (fs : Fields) (name : String) (read : Value → Option α) :
    Option (Option α) :=
  match fs name with
  | none => some none
  | some .null => some none
  | some v => (read v).map some

/-- A field that has a default when it is missing. -/
def Fields.withDefault {α : Type} (fs : Fields) (name : String) (read : Value → Option α)
    (default : α) : Option α :=
  match fs name with
  | none => some default
  | some v => read v

/-- A list, all of whose items can be read. -/
def readList {α : Type} (read : Value → Option α) (v : Value) : Option (List α) :=
  v.array?.bind (·.mapM read)

/-- A field that is written only when it is set. -/
def fieldIfSet (name : String) : Option String → List (String × Value)
  | some s => [(name, .string s)]
  | none => []

end ModuleAtlas.Json
