import ModuleAtlas.Syntax.Rules

/-!
# Types, patterns and call signatures

Types are read only for where they end. Call signatures keep the text of each parameter and of the
return type.
-/

namespace ModuleAtlas.Syntax.Parser

/-! ## Templates -/

/-- The rest of a template whose inside starts here: text, escapes, and `hole`s between `${` and
`}`, up to the closing back quote. -/
def templateTail (hole : Parser Unit) : Parser Unit := do
  let done ← loop false fun done => do
    if done then return none
    let s ← source
    let i ← position
    let c := s.charAt i
    require (i < s.size)
    if c == '\x60' then
      moveTo (i + 1)
      return some true
    else if c == '\\' then
      moveTo (i + 2)
      return some false
    else if c == '$' && s.charAt (i + 1) == '\x7b' then
      moveTo (i + 2)
      hole
      symbol '\x7d'
      return some false
    else
      moveTo (i + 1)
      return some false
  require done

/-- A template literal with the given holes. -/
def template (hole : Parser Unit) : Parser Unit := do
  symbol '\x60'
  templateTail hole

/-! ## Lists of types -/

/-- Type arguments `<A, B>`. -/
def typeArguments (r : Rules) : Parser Unit := do
  let s ← source
  let i ← token
  require (s.charAt i == '<' && s.charAt (i + 1) != '<' && s.charAt (i + 1) != '=')
  moveTo (i + 1)
  let types ← listUntil '>' (r.type .inner)
  require (!types.isEmpty)

/-- One type parameter, with its variance, bound and default. -/
def typeParameter (r : Rules) : Parser Unit := do
  for modifier in ["const", "in", "out"] do
    if (← peekName) == modifier then
      let more ← succeeds do
        word modifier
        discard anyName
      if more then word modifier
  discard anyName
  if ← took (word "extends") then r.type .inner
  if ← took (operator "=") then r.type .inner

/-- Type parameters `<A extends B = C, D>`. -/
def typeParameters (r : Rules) : Parser Unit := do
  symbol '<'
  discard <| listUntil '>' (typeParameter r)

/-! ## Patterns -/

/-- The key of a member: a name, a string, a number, a private name, or a computed key. -/
def memberKey (r : Rules) : Parser Unit := do
  let c ← peekChar
  if c == '[' then
    symbol '['
    discard <| expressions r .inner
    symbol ']'
  else if c == '#' then
    symbol '#'
    discard anyName
  else
    (do discard anyName) <|> (do discard stringLiteral) <|> number

/-- A default value. -/
def initializer (r : Rules) (ctx : Context) : Parser Expr := do
  operator "="
  r.expression ctx

/-- One member of an object pattern. -/
def objectPatternMember (r : Rules) : Parser Unit := do
  if ← took (operator "...") then r.pattern
  else
    memberKey r
    if ← took (operator ":") then r.pattern
    discard <| optional (initializer r .inner)

/-- One element of an array pattern. -/
def arrayPatternElement (r : Rules) : Parser Unit := do
  discard <| took (operator "...")
  r.pattern
  discard <| optional (initializer r .inner)

/-- A name, an object pattern or an array pattern. -/
def patternRule (r : Rules) : Parser Unit := do
  match ← peekChar with
  | '\x7b' =>
    symbol '\x7b'
    discard <| listUntil '\x7d' (objectPatternMember r)
  | '[' =>
    symbol '['
    discard <| listUntil ']' (arrayPatternElement r)
  | _ => discard variableName

/-! ## Decorators -/

/-- A decorator: `@` and a name, a member, a call or an expression in parentheses. -/
def decorator (r : Rules) : Parser Unit := do
  symbol '@'
  if (← peekChar) == '(' then condition r
  else
    discard anyName
    discard <| many do
      operator "."
      discard anyName
    discard <| optional do
      discard <| optional (typeArguments r)
      operator "("
      discard <| listUntil ')' do
        discard <| took (operator "...")
        discard <| r.expression .inner

/-! ## Call signatures -/

/-- Words that may stand before a parameter's name. -/
def parameterModifiers : List String :=
  ["public", "private", "protected", "override", "readonly"]

/-- One parameter, as written. -/
def parameter (r : Rules) : Parser String := do
  let start ← token
  discard <| many (decorator r)
  discard <| many do
    let w ← peekName
    require (parameterModifiers.contains w)
    word w
    let c ← peekChar
    require (Source.isNameStart c || c == '\x7b' || c == '[' || c == '\\')
  discard <| took (operator "...")
  word "this" <|> r.pattern
  discard <| took (operator "?")
  discard <| optional do
    operator ":"
    r.type .inner
  discard <| optional (initializer r .inner)
  textSince start

/-- Parameters in parentheses. -/
def parameters (r : Rules) : Parser (List String) := do
  symbol '('
  listUntil ')' (parameter r)

/-- A return type with its colon, as written. -/
def returnType (r : Rules) (ctx : Context) : Parser String := do
  let start ← token
  operator ":"
  r.type ctx
  textSince start

/-- Type parameters, parameters and return type. -/
def callSignature (r : Rules) (ctx : Context) : Parser CallShape := do
  discard <| optional (typeParameters r)
  let params ← parameters r
  let result ← optional (returnType r ctx)
  return ⟨params, result⟩

/-! ## Types -/

/-- `(a: A) => B`, with `new` and type parameters before it. -/
def functionType (r : Rules) (ctx : Context) : Parser Unit := do
  discard <| took do
    word "abstract"
    require ((← peekName) == "new")
  discard <| took (word "new")
  discard <| optional (typeParameters r)
  discard <| parameters r
  operator "=>"
  r.type ctx

/-- A member name in a type, with the marks that may follow it. -/
def typeMemberName (r : Rules) : Parser Unit := do
  memberKey r
  discard <| took (operator "?")

/-- A type behind a colon, at the end of a member. -/
def memberType (r : Rules) : Parser Unit := do
  operator ":"
  r.type .typeEnd

/-- `[K in T as U]` or `[key: T]`, with optional marks and the type. -/
def indexMember (r : Rules) : Parser Unit := do
  symbol '['
  discard anyName
  if ← took (word "in") then
    r.type .inner
    if ← took (word "as") then r.type .inner
  else
    operator ":"
    r.type .inner
  symbol ']'
  discard <| took (symbol '+' <|> symbol '-')
  discard <| took (operator "?")
  discard <| optional (memberType r)

/-- A call or construct signature in a type. -/
def signatureMember (r : Rules) : Parser Unit := do
  discard <| took (word "abstract")
  discard <| took (word "new")
  discard <| callSignature r .typeEnd

/-- A property or method in a type. -/
def namedMember (r : Rules) : Parser Unit := do
  typeMemberName r
  let c ← peekChar
  if c == '(' || c == '<' then discard <| callSignature r .typeEnd
  else discard <| optional (memberType r)

/-- Words that may stand before a member's name. -/
def typeMemberModifiers : List String :=
  ["readonly", "get", "set", "static", "public", "private", "protected", "override", "async"]

/-- One member of an object type. -/
def typeMember (r : Rules) : Parser Unit := do
  discard <| optional do
    discard <| took (symbol '+' <|> symbol '-')
    word "readonly"
    require ((← peekChar) == '[')
  indexMember r <|> signatureMember r <|>
    (do
      discard <| many do
        let w ← peekName
        require (typeMemberModifiers.contains w)
        word w
        let c ← peekChar
        require (Source.isNameStart c || c == '[' || c == '"' || c == '\x27' || c == '#' ||
          c.isDigit)
      namedMember r) <|>
    namedMember r

/-- The members between braces: separated by commas, semicolons or line ends. -/
def typeMembers (r : Rules) (closesAtEnd : Bool) : Parser Unit := do
  let done ← loop false fun done => do
    if done then return none
    if ← took (symbol '\x7d') then return some true
    if ← took (symbol ';' <|> symbol ',') then return some false
    if ← atEnd then
      require closesAtEnd
      mend
      return some true
    typeMember r
    let c ← peekChar
    if c == ',' || c == ';' || c == '\x7d' then return some false
    optionalLineEnd false
    return some false
  require done

/-- An object type; `closesAtEnd` lets the end of the text stand for a missing brace. -/
def objectType (r : Rules) (closesAtEnd : Bool) : Parser Unit := do
  symbol '\x7b'
  typeMembers r closesAtEnd

/-- One member of a tuple type. -/
def tupleMember (r : Rules) : Parser Unit := do
  discard <| took (operator "...")
  let named ← took do
    discard anyName
    discard <| took (operator "?")
    operator ":"
  discard <| pure named
  r.type .inner
  discard <| took (operator "?")

/-- A dotted name. -/
def dottedName : Parser Unit := do
  discard anyName
  discard <| many do
    operator "."
    discard <| took (symbol '#')
    discard anyName

/-- `import(...)` in a type, with the names behind it. -/
def importType (r : Rules) : Parser Unit := do
  word "import"
  symbol '('
  discard <| listUntil ')' (r.type .inner <|> discard (r.expression .inner))
  discard <| many do
    operator "."
    discard anyName

/-- Words that stand before a type. -/
def typeOperators : List String := ["keyof", "readonly", "unique", "asserts"]

/-- A type to be found: `infer`, its name, and what it has to extend. -/
def inferredType (r : Rules) (ctx : Context) : Parser Unit := do
  word "infer"
  let name ← peekName
  require (name != "is" && name != "extends")
  discard anyName
  discard <| optional do
    require (!(← stopsHere ctx))
    word "extends"
    r.plainType ctx

/-- A type without operators between types and without marks behind it. -/
def primaryType (r : Rules) (ctx : Context) : Parser Unit := do
  let s ← source
  let i ← token
  let c := s.charAt i
  if c == '\x7b' then objectType r false
  else if c == '[' then
    symbol '['
    discard <| listUntil ']' (tupleMember r)
  else if c == '(' then
    symbol '('
    r.type .inner
    symbol ')'
  else if c == '\x60' then template (r.type .inner)
  else if c == '"' || c == '\x27' then discard stringLiteral
  else if c.isDigit || c == '.' then number
  else if c == '-' then
    symbol '-'
    number
  else if c == '*' then symbol '*'
  else if c == '?' then
    symbol '?'
    r.type ctx
  else
    let name ← peekName
    require (name != "")
    if name == "typeof" then
      word "typeof"
      importType r <|> dottedName
      discard <| optional (typeArguments r)
    else if name == "import" then
      importType r
      discard <| optional (typeArguments r)
    else
      let operand : Parser Unit := do
        require (typeOperators.contains name)
        word name
        require (!(← stopsHere ctx))
        let c ← peekChar
        require (Source.isNameStart c || "\x7b[(\x60'\"".toList.contains c)
        require ((← peekName) != "is" && (← peekName) != "extends")
        r.type ctx
      operand <|> inferredType r ctx <|> do
        dottedName
        discard <| optional do
          require (!(← stopsHere ctx))
          typeArguments r

/-- The marks behind a type: `[]`, `[K]`, and `is T` behind a name. -/
def typeTail (r : Rules) (ctx : Context) : Parser Unit := do
  discard <| many do
    require (!(← stopsHere ctx))
    (do
      symbol '['
      discard <| optional (r.type .inner)
      symbol ']') <|>
    (do
      word "is"
      r.type ctx)

/-- Types joined by `|` and `&`, one of which may stand first. -/
def joinedTypes (r : Rules) (ctx : Context) : Parser Unit := do
  let one : Parser Unit := do
    (do functionType r ctx) <|> do
      primaryType r ctx
      typeTail r ctx
  discard <| took (operator "|" <|> operator "&")
  one
  discard <| many do
    require (!(← stopsHere ctx))
    operator "|" <|> operator "&"
    one

/-- A type. -/
def typeRule (r : Rules) (ctx : Context) : Parser Unit := do
  joinedTypes r ctx
  discard <| optional do
    require (!(← stopsHere ctx))
    word "extends"
    joinedTypes r .inner
    operator "?"
    r.type .inner
    operator ":"
    r.type ctx

end ModuleAtlas.Syntax.Parser
