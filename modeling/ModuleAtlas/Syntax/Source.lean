import ModuleAtlas.Syntax.Dialect
import ModuleAtlas.Text.Blank

/-!
# Source text

A text that is being read, addressed by character index, and the rules that need no grammar: which
characters are blank, where a comment ends, where a name or a literal ends. Every function takes
an index and gives an index, so a reader only ever moves forward.

A `Fragment` is a piece of the text together with the byte offset at which it starts; offsets are
UTF-8 byte offsets.
-/

namespace ModuleAtlas.Syntax

/-- A piece of a source text and the byte offset where it starts. -/
structure Fragment where
  start : Nat
  text : String
deriving DecidableEq, Repr

namespace Fragment

/-- The byte offset just behind the piece. -/
def stop (f : Fragment) : Nat :=
  f.start + f.text.utf8ByteSize

/-- An offset inside the piece or at one of its two ends. -/
def touches (f : Fragment) (offset : Nat) : Bool :=
  f.start ≤ offset && offset ≤ f.stop

/-- An offset strictly inside the piece. -/
def surrounds (f : Fragment) (offset : Nat) : Bool :=
  f.start < offset && offset < f.stop

/-- The same piece in a text that has `n` more bytes in front. -/
def shift (f : Fragment) (n : Nat) : Fragment :=
  { f with start := f.start + n }

end Fragment

/-- A text with its dialect; `offsets` gives the byte offset of each character and of the end. -/
structure Source where
  dialect : Dialect
  chars : Array Char
  offsets : Array Nat

namespace Source

/-- The text of a string, indexed by character. -/
def ofString (dialect : Dialect) (s : String) : Source :=
  let chars := s.toList.toArray
  let sums := chars.foldl (fun acc c => (acc.1.push acc.2, acc.2 + c.utf8Size))
    ((#[], 0) : Array Nat × Nat)
  { dialect, chars, offsets := sums.1.push sums.2 }

/-- The number of characters. -/
def size (s : Source) : Nat := s.chars.size

/-- The character at an index; behind the end it is the null character. -/
def charAt (s : Source) (i : Nat) : Char := s.chars.getD i '\x00'

/-- The byte offset of a character index; behind the end it is the end's. -/
def byteOffset (s : Source) (i : Nat) : Nat := s.offsets.getD (min i s.size) 0

/-- The characters from `i` to just before `j`. -/
def slice (s : Source) (i j : Nat) : String :=
  String.ofList (s.chars.extract i j).toList

/-- The piece from `i` to just before `j`. -/
def fragment (s : Source) (i j : Nat) : Fragment :=
  ⟨s.byteOffset i, s.slice i j⟩

/-- Whether the text at an index starts with the given characters. -/
def looksAt (s : Source) (i : Nat) : List Char → Bool
  | [] => true
  | c :: rest => i < s.size && s.charAt i == c && s.looksAt (i + 1) rest

/-- The first index from `i` on whose character fails `p`. -/
def skipWhile (s : Source) (p : Char → Bool) (i : Nat) : Nat :=
  if h : i < s.chars.size then
    if p s.chars[i] then s.skipWhile p (i + 1) else i
  else i
termination_by s.chars.size - i

theorem le_skipWhile (s : Source) (p : Char → Bool) (i : Nat) : i ≤ s.skipWhile p i := by
  fun_induction skipWhile s p i <;> omega

/-! ## Blanks and comments -/

/-- Blank between tokens: white space, and the invisible joiners that count as such in code. -/
def isGap (c : Char) : Bool :=
  Text.isBlank c || c == '\ufeff' || c == '\u2060' || c == '\u200b'

/-- A character that ends a line comment. -/
def isLineBreak (c : Char) : Bool :=
  c == '\n' || c == '\r' || c == '\u2028' || c == '\u2029'

/-- The index behind the next `*/` from `i` on, if there is one. -/
def blockCommentEnd (s : Source) (i : Nat) : Option Nat :=
  if i < s.chars.size then
    if s.looksAt i ['*', '/'] then some (i + 2) else s.blockCommentEnd (i + 1)
  else none
termination_by s.chars.size - i

/-- The index behind the comment that starts at `i`, if one does. -/
def commentEnd (s : Source) (i : Nat) : Option Nat :=
  if s.looksAt i ['/', '/'] then some (s.skipWhile (!isLineBreak ·) (i + 2))
  else if s.looksAt i ['/', '*'] then s.blockCommentEnd (i + 2)
  else none

/-- The start of the next token from `i` on: blanks and comments are passed over. -/
def tokenStart (s : Source) (i : Nat) : Nat :=
  let j := s.skipWhile isGap i
  match s.commentEnd j with
  | none => j
  | some e => if _h : i < e ∧ i < s.chars.size then s.tokenStart e else j
termination_by s.chars.size - i
decreasing_by omega

theorem le_tokenStart (s : Source) (i : Nat) : i ≤ s.tokenStart i := by
  fun_induction tokenStart s i with
  | case1 i j => exact le_skipWhile _ _ _
  | case2 i j e _ ahead ih => omega
  | case3 i j => exact le_skipWhile _ _ _

/-! ## Names -/

/-- The characters that no name may hold. -/
def isPunctuation (c : Char) : Bool :=
  c.toNat < 0x20 || isGap c ||
    ":;\x60\"'@#.,|^&<=>+-*/\\%?!~()[]\x7b\x7d".toList.contains c

/-- A character that may stand in a name. -/
def isNamePart (c : Char) : Bool := !isPunctuation c

/-- A character that may start a name. -/
def isNameStart (c : Char) : Bool := isNamePart c && !c.isDigit

/-- A hexadecimal digit. -/
def isHex (c : Char) : Bool :=
  c.isDigit || ('a' ≤ c && c ≤ 'f') || ('A' ≤ c && c ≤ 'F')

/-- The index behind the escape `\uXXXX` or `\u{...}` that starts at `i`. -/
def nameEscapeEnd (s : Source) (i : Nat) : Option Nat :=
  if s.looksAt i ['\\', 'u'] then
    if s.charAt (i + 2) == '\x7b' then
      let j := s.skipWhile isHex (i + 3)
      if s.charAt j == '\x7d' then some (j + 1) else none
    else if s.skipWhile isHex (i + 2) ≥ i + 6 then some (i + 6) else none
  else none

/-- The index behind the name characters and escapes that follow `i`. -/
def nameTail (s : Source) (i : Nat) : Nat :=
  if h : i < s.chars.size then
    if isNamePart s.chars[i] then s.nameTail (i + 1)
    else
      match s.nameEscapeEnd i with
      | some e => if _h : i < e then s.nameTail e else i
      | none => i
  else i
termination_by s.chars.size - i

/-- The index behind the name that starts at `i`; `i` itself when none does. -/
def nameEnd (s : Source) (i : Nat) : Nat :=
  if i < s.size && isNameStart (s.charAt i) then s.nameTail (i + 1)
  else
    match s.nameEscapeEnd i with
    | some e => s.nameTail e
    | none => i

/-- The name that starts at `i`; empty when none does. -/
def nameAt (s : Source) (i : Nat) : String := s.slice i (s.nameEnd i)

/-! ## Literals -/

/-- The index behind the quote that closes a string whose inside starts at `i`. A string does not
cross a line, unless the line break is escaped. -/
def stringTail (s : Source) (quote : Char) (i : Nat) : Option Nat :=
  if i < s.chars.size then
    let c := s.charAt i
    if c == quote then some (i + 1)
    else if c == '\\' then s.stringTail quote (i + 2)
    else if c == '\n' || c == '\r' then none
    else s.stringTail quote (i + 1)
  else none
termination_by s.chars.size - i

/-- The index behind the string literal that starts at `i`. -/
def stringEnd (s : Source) (i : Nat) : Option Nat :=
  let c := s.charAt i
  if c == '\x27' || c == '"' then s.stringTail c (i + 1) else none

theorem le_stringTail {s : Source} {quote : Char} {i j : Nat}
    (found : s.stringTail quote i = some j) : i ≤ j := by
  fun_induction stringTail s quote i <;> grind

theorem lt_stringEnd {s : Source} {i j : Nat} (found : s.stringEnd i = some j) : i < j := by
  simp only [stringEnd] at found
  split at found
  · exact le_stringTail found
  · cases found

/-- The index behind the `]` that closes a character class of a pattern. -/
def classTail (s : Source) (i : Nat) : Option Nat :=
  if i < s.chars.size then
    let c := s.charAt i
    if c == ']' then some (i + 1)
    else if c == '\\' then s.classTail (i + 2)
    else if c == '\n' then none
    else s.classTail (i + 1)
  else none
termination_by s.chars.size - i

/-- The index behind the `/` that closes a pattern whose inside starts at `i`. -/
def patternTail (s : Source) (i : Nat) : Option Nat :=
  if i < s.chars.size then
    let c := s.charAt i
    if c == '/' then some (i + 1)
    else if c == '\\' then s.patternTail (i + 2)
    else if c == '\n' then none
    else if c == '[' then
      match s.classTail (i + 1) with
      | some e => if _h : i < e then s.patternTail e else none
      | none => none
    else s.patternTail (i + 1)
  else none
termination_by s.chars.size - i

/-- The index behind the pattern literal `/.../flags` that starts at `i`. -/
def patternEnd (s : Source) (i : Nat) : Option Nat :=
  if s.charAt i == '/' && s.charAt (i + 1) != '/' && s.charAt (i + 1) != '*' then
    (s.patternTail (i + 1)).map (s.skipWhile (fun c => 'a' ≤ c && c ≤ 'z'))
  else none

/-- A character of a number after its prefix: digits of any base, separators, suffixes. -/
def isNumberPart (c : Char) : Bool :=
  c.isAlphanum || c == '_'

/-- The index behind digits, letters and separators from `i` on, with one sign allowed behind an
exponent mark. -/
def digitsEnd (s : Source) (i : Nat) : Nat :=
  let j := s.skipWhile isNumberPart i
  let signed := s.charAt j == '+' || s.charAt j == '-'
  let marked := s.charAt (j - 1) == 'e' || s.charAt (j - 1) == 'E'
  let based := s.charAt (i + 1) == 'x' || s.charAt (i + 1) == 'X'
  if i < j && signed && marked && !based && (s.charAt (j + 1)).isDigit then
    s.skipWhile isNumberPart (j + 1)
  else j

/-- The index behind the number that starts at `i`; `i` itself when none does. -/
def numberEnd (s : Source) (i : Nat) : Nat :=
  let c := s.charAt i
  if c.isDigit then
    let j := s.digitsEnd i
    let based := c == '0' && !(s.charAt (i + 1)).isDigit && (s.charAt (i + 1)).isAlpha &&
      s.charAt (i + 1) != 'e' && s.charAt (i + 1) != 'E' && s.charAt (i + 1) != 'n'
    if s.charAt j == '.' && !based then s.digitsEnd (j + 1) else j
  else if c == '.' && (s.charAt (i + 1)).isDigit then s.digitsEnd (i + 1)
  else i

/-! ## Operators -/

/-- The operators of more than one character, longest first. -/
def longOperators : List (List Char) :=
  [">>>=", "...", "===", "!==", "**=", "<<=", ">>=", ">>>", "&&=", "||=", "??=", "=>", "==",
    "!=", "<=", ">=", "&&", "||", "??", "++", "--", "+=", "-=", "*=", "/=", "%=", "&=", "|=",
    "^=", "<<", ">>", "**"].map String.toList

/-- The operator at `i`, the longest that fits; empty at the end of the text. `?.` is one operator
unless a digit follows. -/
def operatorAt (s : Source) (i : Nat) : String :=
  match longOperators.find? (s.looksAt i) with
  | some op => String.ofList op
  | none =>
    if s.looksAt i ['?', '.'] && !(s.charAt (i + 2)).isDigit then "?."
    else if i < s.size then String.ofList [s.charAt i]
    else ""

end Source

end ModuleAtlas.Syntax
