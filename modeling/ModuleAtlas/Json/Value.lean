import ModuleAtlas.Json.Binary64

/-!
# JSON values

A JSON value. Objects keep the order in which their keys first appeared, and a key that appears
again takes the last value.
-/

namespace ModuleAtlas.Json

/-- A number: an integer of at most 64 bits, or a floating point number. -/
inductive Number where
  | integer (n : Int)
  | double (x : Binary64)
deriving DecidableEq, Repr

/-- A JSON value. -/
inductive Value where
  | null
  | bool (b : Bool)
  | number (n : Number)
  | string (s : String)
  | array (items : List Value)
  | object (fields : List (String × Value))
deriving Repr

namespace Value

/-- The text of a string. -/
def string? : Value → Option String
  | string s => some s
  | _ => none

/-- The fields of an object. -/
def object? : Value → Option (List (String × Value))
  | object fs => some fs
  | _ => none

/-- The items of an array. -/
def array? : Value → Option (List Value)
  | array items => some items
  | _ => none

/-- A truth value. -/
def bool? : Value → Option Bool
  | bool b => some b
  | _ => none

/-- The value of a natural number. -/
def ofNat (n : Nat) : Value := number (.integer n)

end Value

/-- The value of a key among fields. -/
def lookup (fields : List (String × Value)) (key : String) : Option Value :=
  (fields.find? (·.1 == key)).map (·.2)

/-- Fields with a key set: in its place when it is there, else at the end. -/
def insertField (fields : List (String × Value)) (key : String) (v : Value) :
    List (String × Value) :=
  if fields.any (·.1 == key) then fields.map fun f => if f.1 == key then (key, v) else f
  else fields ++ [(key, v)]

/-- The value of a key of an object; none for anything else. -/
def Value.get? (v : Value) (key : String) : Option Value :=
  v.object?.bind (lookup · key)

end ModuleAtlas.Json
