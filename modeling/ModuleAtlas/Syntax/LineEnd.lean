import ModuleAtlas.Syntax.Parser

/-!
# Where a line break ends a statement

A statement that needs a terminator may do without `;` at the end of a line, before `}` and at the
end of the text. `endsStatement` says when the place right behind a token is such an end;
`Parser.lineEnd` adds that comments on the same line still belong to the statement.

`operators` tells whether an operator could continue what has been read: it could behind an
expression, not behind a type or a bare name. A line that starts with `(` or `[` continues an
expression but not a type.
-/

namespace ModuleAtlas.Syntax

namespace Source

/-- White space as the line rule sees it: the six ASCII characters. -/
def isAsciiBlank (c : Char) : Bool :=
  c == ' ' || ('\t' ≤ c && c ≤ '\r')

/-- The index behind the comment at `j` as the line rule sees it: a line comment ends at a line
feed, and an open comment runs to the end. -/
def looseCommentEnd (s : Source) (j : Nat) : Option Nat :=
  if s.looksAt j ['/', '/'] then some (s.skipWhile (· != '\n') (j + 2))
  else if s.looksAt j ['/', '*'] then some ((s.blockCommentEnd (j + 2)).getD s.size)
  else none

/-- The index behind blanks and comments from `i` on, or none when a `/` starts no comment. -/
def skipLines (s : Source) (i : Nat) : Option Nat :=
  let j := s.skipWhile isAsciiBlank i
  match s.looseCommentEnd j with
  | some e => if _h : i < e ∧ i < s.chars.size then s.skipLines e else none
  | none => if s.charAt j == '/' then none else some j
termination_by s.chars.size - i
decreasing_by omega

/-- The letters that follow `in` in the longer word. -/
def instanceofTail : List Char := "stanceof".toList

/-- Whether the text at `i` is the operator `in` or `instanceof`. -/
def isRelationWord (s : Source) (i : Nat) : Bool :=
  s.looksAt i ['i', 'n'] &&
    (!(s.charAt (i + 2)).isAlpha ||
      (s.looksAt (i + 2) instanceofTail && !(s.charAt (i + 10)).isAlpha))

/-- Whether a statement may end before a line that starts at `i`: not before a character that
continues what stands above it. -/
def startsAnew (s : Source) (operators : Bool) (i : Nat) : Bool :=
  let c := s.charAt i
  if "\x60,.;*%><=?^|&/:".toList.contains c then false
  else if c == '(' || c == '[' then !operators
  else if c == '+' then s.charAt (i + 1) == '+'
  else if c == '-' then s.charAt (i + 1) == '-'
  else if c == '!' then s.charAt (i + 1) != '='
  else if c == 'i' then !s.isRelationWord i
  else true

/-- Whether a statement may end right behind index `i` without a semicolon. -/
def endsStatement (s : Source) (operators : Bool) (i : Nat) : Bool :=
  let j := s.skipWhile (fun c => isAsciiBlank c && c != '\n') i
  if s.size ≤ j then true
  else if s.charAt j == '\x7d' then
    let k := s.skipWhile isAsciiBlank (j + 1)
    if s.charAt k == ':' then operators else true
  else if s.charAt j == '\n' then
    match s.skipLines (j + 1) with
    | none => false
    | some k => s.startsAnew operators k
  else false

end Source

namespace Parser

/-- The index at which the statement may end without a semicolon: behind the last token, or behind
comments that follow it. -/
def lineEnd (operators : Bool) : Parser (Option Nat) := do
  let s ← source
  let start ← position
  let found ← loop ((start, (none : Option Nat), false)) fun (i, _, done) =>
    if done then return none
    else if s.endsStatement operators i then return some (i, some i, true)
    else
      match s.commentEnd (s.skipWhile Source.isGap i) with
      | some e => return some (e, none, false)
      | none => return none
  return found.2.1

/-- Whether a statement may end here. -/
def atLineEnd (operators : Bool) : Parser Bool := do
  return (← lineEnd operators).isSome

/-- Takes the end of a statement: the end of the line, or a semicolon. -/
def terminator (operators : Bool) : Parser Unit := do
  match ← lineEnd operators with
  | some i => moveTo i
  | none => symbol ';'

/-- Takes the end of the line when the statement may end there. -/
def optionalLineEnd (operators : Bool) : Parser Unit := do
  match ← lineEnd operators with
  | some i => moveTo i
  | none => return ()

end Parser

end ModuleAtlas.Syntax
