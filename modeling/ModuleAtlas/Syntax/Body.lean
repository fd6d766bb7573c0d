import ModuleAtlas.Syntax.Signature

/-!
# Bodies: blocks and classes

Blocks and class bodies are read through to find their end. A body whose inside cannot be read is
passed over up to its closing brace, so that one broken statement does not hide the declaration
around it. Where `closesAtEnd` is set, the end of the text closes an open body.
-/

namespace ModuleAtlas.Syntax

namespace Source

/-- The index behind the back quote that closes a template, by looking at escapes only. -/
def backQuoteEnd (s : Source) (i : Nat) : Option Nat :=
  if i < s.chars.size then
    let c := s.charAt i
    if c == '\x60' then some (i + 1)
    else if c == '\\' then s.backQuoteEnd (i + 2)
    else s.backQuoteEnd (i + 1)
  else none
termination_by s.chars.size - i

/-- The index behind the brace that closes the one opened before `i`; strings, templates and
comments are passed over. -/
def closingBrace (s : Source) (depth i : Nat) : Option Nat :=
  if i < s.chars.size then
    let c := s.charAt i
    let literalEnd :=
      if c == '\x60' then s.backQuoteEnd (i + 1)
      else (s.commentEnd i).or (s.stringEnd i)
    match literalEnd with
    | some e => if _h : i < e then s.closingBrace depth e else none
    | none =>
      if c == '\x7b' then s.closingBrace (depth + 1) (i + 1)
      else if c == '\x7d' then
        match depth with
        | 0 => some (i + 1)
        | d + 1 => s.closingBrace d (i + 1)
      else s.closingBrace depth (i + 1)
  else none
termination_by s.chars.size - i

end Source

namespace Parser

/-- The end of a body: the closing brace, or the end of the text where that closes it. -/
def closeBrace (closesAtEnd : Bool) : Parser Bool := do
  if ← took (symbol '\x7d') then return true
  if closesAtEnd && (← atEnd) then
    mend
    return true
  return false

/-- Passes over the rest of a body. -/
def skipBody : Parser Unit := do
  let s ← source
  match s.closingBrace 0 (← position) with
  | some i =>
    mend
    moveTo i
  | none => failure

/-- Items up to the end of a body. -/
def bodyItems {α : Type} (closesAtEnd : Bool) (item : Parser α) : Parser (List α) := do
  let found ← loop ((([] : List α), false)) fun (acc, done) => do
    if done then return none
    if ← closeBrace closesAtEnd then return some (acc, true)
    let a ← item
    return some (a :: acc, false)
  require found.2
  return found.1.reverse

/-- A block of statements with the line end behind it, if the line ends there. -/
def block (r : Rules) (closesAtEnd operators : Bool) : Parser (List Stmt) := do
  symbol '\x7b'
  let stmts ← bodyItems closesAtEnd r.statement <|> do
    skipBody
    return []
  optionalLineEnd operators
  return stmts

/-! ## Classes -/

/-- Words that may stand before the name of a class member. -/
def memberModifiers : List String :=
  ["public", "private", "protected", "static", "abstract", "override", "readonly", "declare",
    "async", "accessor", "get", "set"]

/-- The characters behind which a word was itself the name of a member. -/
def endsMemberName (c : Char) : Bool :=
  "(=:;?!,<\x7d".toList.contains c || c == '\x00'

/-- The body of a method, or the end of its signature. -/
def methodEnd (r : Rules) : Parser Unit := do
  if (← peekChar) == '\x7b' then discard <| block r false false
  else discard <| optional (symbol ',' <|> terminator false)

/-- A method or a field. -/
def classMember (r : Rules) : Parser Unit := do
  discard <| many (decorator r)
  discard <| many do
    let w ← peekName
    require (memberModifiers.contains w)
    word w
    require (!endsMemberName (← peekChar))
  discard <| took (operator "*")
  let index : Parser Unit := do
    symbol '['
    discard anyName
    operator ":"
    r.type .inner
    symbol ']'
  index <|> memberKey r
  discard <| took (operator "?" <|> operator "!")
  let c ← peekChar
  if c == '(' || c == '<' then
    discard <| callSignature r .typeEnd
    methodEnd r
  else
    discard <| optional (memberType r)
    let value ← optional (initializer r .statement)
    symbol ',' <|> terminator value.isSome

/-- One item of a class body. -/
def classItem (r : Rules) : Parser Unit := do
  symbol ';' <|>
    (do
      word "static"
      require ((← peekChar) == '\x7b')
      discard <| block r false false) <|>
    classMember r

/-- The body of a class. -/
def classBody (r : Rules) (closesAtEnd : Bool) : Parser Unit := do
  symbol '\x7b'
  discard (bodyItems closesAtEnd (classItem r)) <|> skipBody

end Parser

end ModuleAtlas.Syntax
