import ModuleAtlas.Json.Value

/-!
# Reading JSON

A strict reader. Arrays and objects nest at most 127 deep. A number beyond the range of floating
point is an error, as are control characters in strings and escapes of half a surrogate pair.

`skipValue` passes over a value that is of no interest: it only checks that brackets, strings and
numbers are well formed, to any depth.
-/

namespace ModuleAtlas.Json

/-- What is left to read. -/
abbrev Rest := List Char

/-- The four characters between tokens. -/
def isSpace (c : Char) : Bool :=
  c == ' ' || c == '\n' || c == '\t' || c == '\r'

/-- Passes over space. -/
def skipSpace (cs : Rest) : Rest := cs.dropWhile isSpace

/-- Takes a fixed text. -/
def expect : List Char → Rest → Option Rest
  | [], cs => some cs
  | t :: ts, c :: cs => if t = c then expect ts cs else none
  | _ :: _, [] => none

/-! ## Strings -/

/-- The value of a hexadecimal digit. -/
def hexValue (c : Char) : Option Nat :=
  if c.isDigit then some (c.toNat - '0'.toNat)
  else if 'a' ≤ c ∧ c ≤ 'f' then some (c.toNat - 'a'.toNat + 10)
  else if 'A' ≤ c ∧ c ≤ 'F' then some (c.toNat - 'A'.toNat + 10)
  else none

/-- The number of four hexadecimal digits. -/
def hex4 : Rest → Option (Nat × Rest)
  | a :: b :: c :: d :: cs =>
    match hexValue a, hexValue b, hexValue c, hexValue d with
    | some a, some b, some c, some d => some (((a * 16 + b) * 16 + c) * 16 + d, cs)
    | _, _, _, _ => none
  | _ => none

/-- The character an escape stands for, behind its backslash. Halves of a surrogate pair count
only together. -/
def escaped : Rest → Option (Char × Rest)
  | '"' :: cs => some ('"', cs)
  | '\\' :: cs => some ('\\', cs)
  | '/' :: cs => some ('/', cs)
  | 'b' :: cs => some ('\x08', cs)
  | 'f' :: cs => some ('\x0c', cs)
  | 'n' :: cs => some ('\n', cs)
  | 'r' :: cs => some ('\r', cs)
  | 't' :: cs => some ('\t', cs)
  | 'u' :: cs =>
    match hex4 cs with
    | none => none
    | some (n, cs) =>
      if 0xD800 ≤ n ∧ n < 0xDC00 then
        match cs with
        | '\\' :: 'u' :: cs =>
          match hex4 cs with
          | some (m, cs) =>
            if 0xDC00 ≤ m ∧ m < 0xE000 then
              some (Char.ofNat (0x10000 + (n - 0xD800) * 0x400 + (m - 0xDC00)), cs)
            else none
          | none => none
        | _ => none
      else if 0xDC00 ≤ n ∧ n < 0xE000 then none
      else some (Char.ofNat n, cs)
  | _ => none

/-- The rest of a string behind its opening quote; `fuel` is at least the number of characters. -/
def stringBody : (fuel : Nat) → Rest → List Char → Option (String × Rest)
  | 0, _, _ => none
  | _, [], _ => none
  | fuel + 1, c :: cs, acc =>
    if c = '"' then some (String.ofList acc.reverse, cs)
    else if c = '\\' then
      match escaped cs with
      | some (e, cs) => stringBody fuel cs (e :: acc)
      | none => none
    else if c.toNat < 0x20 then none
    else stringBody fuel cs (c :: acc)

/-- A string with its quotes. -/
def readString : Rest → Option (String × Rest)
  | '"' :: cs => stringBody (cs.length + 1) cs []
  | _ => none

/-! ## Numbers -/

/-- The greatest integer of 64 bits. -/
def maxSignificand : Nat := Nat.pow 2 64 - 1

/-- The value of a decimal digit. -/
def digitValue (c : Char) : Nat := c.toNat - '0'.toNat

/-- The digits in front. -/
def takeDigits (cs : Rest) : List Char × Rest :=
  (cs.takeWhile Char.isDigit, cs.dropWhile Char.isDigit)

/-- Digits as one integer as long as it has 64 bits, and how many digits were left over. -/
def significand : List Char → Nat → Nat × Nat
  | [], n => (n, 0)
  | d :: ds, n =>
    if maxSignificand < n * 10 + digitValue d then (n, ds.length + 1)
    else significand ds (n * 10 + digitValue d)

/-- Scales by a power of ten. Exponents beyond 308 are worked off in steps, each of which
rounds; none when the result is out of range. -/
def scale : (steps : Nat) → Binary64 → Int → Option Binary64
  | 0, x, _ => some x
  | steps + 1, x, e =>
    if e.natAbs ≤ 308 then
      match Binary64.pow10? e.natAbs with
      | some p => if 0 ≤ e then x.mul? p else x.div? p
      | none => none
    else if x.mantissa = 0 then some x
    else if 0 ≤ e then none
    else
      match Binary64.pow10? 308 with
      | some p =>
        match x.div? p with
        | some x => scale steps x (e + 308)
        | none => none
      | none => none

/-- The floating point number of a significand and a power of ten. -/
def doubleOf (negative : Bool) (sig : Nat) (e : Int) : Option Number :=
  match Binary64.ofNat? sig with
  | some x =>
    match scale 4 x e with
    | some y => some (.double { y with negative })
    | none => none
  | none => none

/-- The greatest exponent that is counted; more digits make it infinite. -/
def maxExponent10 : Nat := Nat.pow 2 31 - 1

/-- An exponent behind its mark: the power of ten with its sign. -/
def readExponent (cs : Rest) : Option (Int × Rest) :=
  let (negative, cs) := match cs with
    | '+' :: cs => (false, cs)
    | '-' :: cs => (true, cs)
    | cs => (false, cs)
  let (ds, cs) := takeDigits cs
  if ds.isEmpty then none
  else
    let n := ds.foldl (fun n d => min (n * 10 + digitValue d) (10 * maxExponent10)) 0
    some (if negative then -(n : Int) else n, cs)

/-- Whether a text starts with the mark of an exponent. -/
def exponentMark : Rest → Option Rest
  | 'e' :: cs => some cs
  | 'E' :: cs => some cs
  | _ => none

/-- The number of a significand, a power of ten and the exponent that may follow. -/
def finishDouble (negative : Bool) (sig : Nat) (e : Int) (cs : Rest) :
    Option (Number × Rest) :=
  match exponentMark cs with
  | some cs =>
    match readExponent cs with
    | some (more, cs) =>
      if maxExponent10 < more.natAbs then
        if sig ≠ 0 ∧ 0 < more then none
        else some (.double ⟨negative, 0, Binary64.minExponent⟩, cs)
      else (doubleOf negative sig (e + more)).map (·, cs)
    | none => none
  | none => (doubleOf negative sig e).map (·, cs)

/-- An integer that stands alone: it stays one while it has 64 bits; minus zero does not. -/
def wholeNumber (negative : Bool) (sig : Nat) : Option Number :=
  if negative then
    if sig = 0 ∨ Nat.pow 2 63 < sig then
      (Binary64.ofNat? sig).map fun x => .double { x with negative := true }
    else some (.integer (-(sig : Int)))
  else some (.integer sig)

/-- A number. -/
def readNumber (cs : Rest) : Option (Number × Rest) :=
  let (negative, cs) := match cs with
    | '-' :: cs => (true, cs)
    | cs => (false, cs)
  let (ds, cs) := takeDigits cs
  if ds.isEmpty || (ds.head? == some '0' && 1 < ds.length) then none
  else
    let (sig, dropped) := significand ds 0
    match cs with
    | '.' :: cs =>
      let (fraction, cs) := takeDigits cs
      if fraction.isEmpty then none
      else
        let (sig, unread) := significand fraction sig
        finishDouble negative sig ((dropped : Int) - (fraction.length - unread : Nat)) cs
    | cs =>
      if dropped = 0 ∧ (exponentMark cs).isNone then (wholeNumber negative sig).map (·, cs)
      else finishDouble negative sig dropped cs

/-! ## Values -/

/-- Items between commas up to a closing character. Space around items is passed over; a comma
before the closing character is an error. -/
def itemsUntil {α : Type} (close : Char) (item : Rest → Option (α × Rest)) :
    (fuel : Nat) → Rest → List α → Option (List α × Rest)
  | 0, _, _ => none
  | fuel + 1, cs, acc =>
    match item (skipSpace cs) with
    | none => none
    | some (a, cs) =>
      match skipSpace cs with
      | c :: cs =>
        if c = close then some ((a :: acc).reverse, cs)
        else if c = ',' then itemsUntil close item fuel cs (a :: acc)
        else none
      | [] => none

/-- A bracketed list behind its opening bracket. -/
def bracketed {α : Type} (close : Char) (item : Rest → Option (α × Rest)) (cs : Rest) :
    Option (List α × Rest) :=
  match skipSpace cs with
  | c :: more =>
    if c = close then some ([], more) else itemsUntil close item (cs.length + 1) cs []
  | [] => none

/-- A key, a colon and a value. -/
def readField {α : Type} (value : Rest → Option (α × Rest)) (cs : Rest) :
    Option ((String × α) × Rest) :=
  match readString cs with
  | none => none
  | some (key, cs) =>
    match skipSpace cs with
    | ':' :: cs => (value (skipSpace cs)).map fun (v, cs) => ((key, v), cs)
    | _ => none

/-- Fields as an object holds them: each key in its first place with its last value. -/
def mergeFields (fields : List (String × Value)) : List (String × Value) :=
  fields.foldl (fun acc f => insertField acc f.1 f.2) []

/-- A value whose arrays and objects nest less than `depth` deep. -/
def readValue : (depth : Nat) → Rest → Option (Value × Rest)
  | _, 'n' :: cs => (expect "ull".toList cs).map (Value.null, ·)
  | _, 't' :: cs => (expect "rue".toList cs).map (Value.bool true, ·)
  | _, 'f' :: cs => (expect "alse".toList cs).map (Value.bool false, ·)
  | _, '"' :: cs => (readString ('"' :: cs)).map fun (s, cs) => (Value.string s, cs)
  | depth + 2, '[' :: cs =>
    (bracketed ']' (readValue (depth + 1)) cs).map fun (vs, cs) => (Value.array vs, cs)
  | depth + 2, '\x7b' :: cs =>
    (bracketed '\x7d' (readField (readValue (depth + 1))) cs).map fun (fs, cs) =>
      (Value.object (mergeFields fs), cs)
  | _, cs => (readNumber cs).map fun (n, cs) => (Value.number n, cs)

/-- One more than the number of levels that may nest. -/
def maxDepth : Nat := 128

/-- The value of a whole text. -/
def parse? (text : String) : Option Value :=
  match readValue maxDepth (skipSpace text.toList) with
  | some (v, cs) => if (skipSpace cs).isEmpty then some v else none
  | none => none

/-! ## Passing over a value -/

/-- The rest behind an escape whose meaning is of no interest. -/
def skipEscape : Rest → Option Rest
  | 'u' :: cs => (hex4 cs).map (·.2)
  | c :: cs => if "\"\\/bfnrt".toList.contains c then some cs else none
  | [] => none

/-- The rest behind a string whose opening quote has been taken. -/
def skipStringBody : (fuel : Nat) → Rest → Option Rest
  | 0, _ => none
  | _, [] => none
  | fuel + 1, c :: cs =>
    if c = '"' then some cs
    else if c = '\\' then
      match skipEscape cs with
      | some cs => skipStringBody fuel cs
      | none => none
    else if c.toNat < 0x20 then none
    else skipStringBody fuel cs

/-- The rest behind a number, whatever its size. -/
def skipNumber (cs : Rest) : Option Rest :=
  let cs := match cs with
    | '-' :: cs => cs
    | cs => cs
  let (ds, cs) := takeDigits cs
  if ds.isEmpty || (ds.head? == some '0' && 1 < ds.length) then none
  else
    let fraction : Option Rest := match cs with
      | '.' :: cs =>
        let (fs, cs) := takeDigits cs
        if fs.isEmpty then none else some cs
      | cs => some cs
    fraction.bind fun cs =>
      match exponentMark cs with
      | some cs => (readExponent cs).map (·.2)
      | none => some cs

/-- The rest behind a value, to any depth; `fuel` is at least the number of characters. -/
def skipValue : (fuel : Nat) → Rest → Option (Unit × Rest)
  | 0, _ => none
  | fuel + 1, cs =>
    match cs with
    | 'n' :: cs => (expect "ull".toList cs).map ((), ·)
    | 't' :: cs => (expect "rue".toList cs).map ((), ·)
    | 'f' :: cs => (expect "alse".toList cs).map ((), ·)
    | '"' :: cs => (skipStringBody (cs.length + 1) cs).map ((), ·)
    | '[' :: cs => (bracketed ']' (skipValue fuel) cs).map fun (_, cs) => ((), cs)
    | '\x7b' :: cs =>
      let field (cs : Rest) : Option (Unit × Rest) :=
        match cs with
        | '"' :: cs =>
          (skipStringBody (cs.length + 1) cs).bind fun cs =>
            match skipSpace cs with
            | ':' :: cs => skipValue fuel (skipSpace cs)
            | _ => none
        | _ => none
      (bracketed '\x7d' field cs).map fun (_, cs) => ((), cs)
    | cs => (skipNumber cs).map ((), ·)

end ModuleAtlas.Json
