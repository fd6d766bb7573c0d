import ModuleAtlas.Json.Value

/-!
# Writing JSON

Two layouts of one grammar: on one line, or with each item on a line of its own, indented by two
spaces. A floating point number is written with the fewest digits that read back: positionally
from `1e-5` up to below `1e16`, with `.0` when it is whole, and with a signed exponent otherwise.
-/

namespace ModuleAtlas.Json

/-- Two hexadecimal digits. -/
def hexByte (n : Nat) : List Char :=
  [Nat.digitChar (n / 16), Nat.digitChar (n % 16)]

/-- A character inside a string. Only quotes, backslashes and control characters are escaped. -/
def escapeChar (c : Char) : List Char :=
  if c = '"' then ['\\', '"']
  else if c = '\\' then ['\\', '\\']
  else if c = '\x08' then ['\\', 'b']
  else if c = '\x0c' then ['\\', 'f']
  else if c = '\n' then ['\\', 'n']
  else if c = '\r' then ['\\', 'r']
  else if c = '\t' then ['\\', 't']
  else if c.toNat < 0x20 then ['\\', 'u', '0', '0'] ++ hexByte c.toNat
  else [c]

/-- A string with its quotes. -/
def renderString (s : String) : String :=
  String.ofList (('"' :: s.toList.flatMap escapeChar) ++ ['"'])

/-- The decimal digits of a natural number. -/
def natDigits (n : Nat) : List Char := Nat.toDigits 10 n

/-- The least position of the point that is written out; further left takes an exponent. -/
def leastPoint : Int := -4

/-- The greatest position of the point that is written out; further right takes an exponent. -/
def greatestPoint : Int := 16

/-- Digits with the point behind the first `point` of them, or zeros before or behind them. -/
def positional (digits : List Char) (point : Int) : List Char :=
  if point ≤ 0 then
    "0.".toList ++ List.replicate point.natAbs '0' ++ digits
  else if digits.length ≤ point.toNat then
    digits ++ List.replicate (point.toNat - digits.length) '0' ++ ".0".toList
  else digits.take point.toNat ++ ('.' :: digits.drop point.toNat)

/-- Digits with the point behind the first and the power of ten written out. -/
def scientific (digits : List Char) (point : Int) : List Char :=
  let e := point - 1
  let mantissa := match digits with
    | [d] => [d]
    | d :: ds => d :: '.' :: ds
    | [] => []
  mantissa ++ ['e', if e < 0 then '-' else '+'] ++ natDigits e.natAbs

/-- A floating point number. -/
def renderDouble (x : Binary64) : String :=
  let sign := if x.negative then ['-'] else []
  let body :=
    if x.mantissa = 0 then "0.0".toList
    else
      let (n, k) := x.shortest
      let digits := natDigits n
      let point := k + digits.length
      if leastPoint ≤ point ∧ point ≤ greatestPoint then positional digits point
      else scientific digits point
  String.ofList (sign ++ body)

/-- A number. -/
def renderNumber : Number → String
  | .integer n => toString n
  | .double x => renderDouble x

/-- How items are laid out: on one line, or each on its own line at a depth. -/
inductive Layout where
  | line
  | indented (depth : Nat)

namespace Layout

/-- The layout of what stands inside. -/
def deeper : Layout → Layout
  | line => line
  | indented d => indented (d + 1)

/-- What starts a new item. -/
def newline : Layout → String
  | line => ""
  | indented d => String.ofList ('\n' :: List.replicate (2 * d) ' ')

/-- What stands between a key and its value. -/
def colon : Layout → String
  | line => ":"
  | indented _ => ": "

end Layout

/-- Items in brackets. -/
def bracket (l : Layout) (openMark closeMark : String) (items : List String) : String :=
  if items.isEmpty then openMark ++ closeMark
  else
    openMark ++ String.intercalate "," (items.map (l.deeper.newline ++ ·)) ++ l.newline ++
      closeMark

mutual

/-- A value in a layout. -/
def render (l : Layout) : Value → String
  | .null => "null"
  | .bool true => "true"
  | .bool false => "false"
  | .number n => renderNumber n
  | .string s => renderString s
  | .array items => bracket l "[" "]" (renderItems l.deeper items)
  | .object fields => bracket l "\x7b" "\x7d" (renderFields l.deeper fields)

/-- The items of an array. -/
def renderItems (l : Layout) : List Value → List String
  | [] => []
  | v :: vs => render l v :: renderItems l vs

/-- The fields of an object. -/
def renderFields (l : Layout) : List (String × Value) → List String
  | [] => []
  | (k, v) :: fs => (renderString k ++ l.colon ++ render l v) :: renderFields l fs

end

/-- A value on several lines. -/
def pretty (v : Value) : String := render (.indented 0) v

/-- A value on one line. -/
def compact (v : Value) : String := render .line v

end ModuleAtlas.Json
