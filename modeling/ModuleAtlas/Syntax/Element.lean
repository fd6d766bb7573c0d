import ModuleAtlas.Syntax.Signature

/-!
# Elements of markup

An element `<name attribute="value">...</name>`, a self-closing one `<name/>`, or a fragment
`<>...</>`. Only the TSX dialect has them.
-/

namespace ModuleAtlas.Syntax.Parser

/-- The name of an element or attribute: names joined by `-`, `.` and `:`. -/
def elementName : Parser Unit := do
  discard anyName
  discard <| many do
    let s ← source
    let i ← position
    let c := s.charAt i
    require (c == '-' || c == '.' || c == ':')
    moveTo (s.nameTail (i + 1))

/-- `{ ... }` inside markup: an expression, a spread or only comments. -/
def hole (r : Rules) : Parser Unit := do
  symbol '\x7b'
  discard <| took (operator "...")
  discard <| optional (expressions r .inner)
  symbol '\x7d'

/-- A value in quotes, in which nothing is escaped. -/
def attributeText : Parser Unit := do
  let s ← source
  let i ← token
  let quote := s.charAt i
  require (quote == '"' || quote == '\x27')
  let j := s.skipWhile (· != quote) (i + 1)
  require (j < s.size)
  moveTo (j + 1)

/-- One attribute. -/
def elementAttribute (r : Rules) : Parser Unit :=
  hole r <|> do
    elementName
    discard <| optional do
      operator "="
      attributeText <|> hole r <|> discard r.element

/-- The children of an element, up to the `<` of its closing tag. -/
def children (r : Rules) : Parser Unit := do
  let done ← loop false fun done => do
    if done then return none
    let s ← source
    let i ← position
    require (i < s.size)
    let c := s.charAt i
    if c == '<' then
      let j := s.tokenStart (i + 1)
      if s.charAt j == '/' then
        moveTo (j + 1)
        return some true
      discard r.element
      return some false
    else if c == '\x7b' then
      hole r
      return some false
    else
      moveTo (i + 1)
      return some false
  require done

/-- An element. -/
def elementRule (r : Rules) : Parser ExprKind := do
  require ((← source).dialect == .tsx)
  symbol '<'
  if ← took (symbol '>') then
    children r
    symbol '>'
    return .element
  elementName
  discard <| optional (typeArguments r)
  discard <| many (elementAttribute r)
  if ← took (symbol '/') then
    symbol '>'
    return .selfClosingElement
  symbol '>'
  children r
  elementName
  symbol '>'
  return .element

end ModuleAtlas.Syntax.Parser
