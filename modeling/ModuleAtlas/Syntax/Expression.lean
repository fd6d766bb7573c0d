import ModuleAtlas.Syntax.Body

/-!
# Expressions

Expressions are read by operator strength. Of the result only the outermost kind is kept, with the
details that `Expr` has room for.

Three marks bind in their own way: `as`, `satisfies` and the non-null `!` apply to everything read
so far in the statement, except inside the operand of `await` and to the right of `**`, where they
stay with that operand.
-/

namespace ModuleAtlas.Syntax.Parser

/-! ## Operator strength -/

/-- The strength of an operator between two operands. -/
def binaryStrength (op : String) : Option Nat :=
  if op == "??" then some 1
  else if op == "||" then some 2
  else if op == "&&" then some 3
  else if op == "|" then some 4
  else if op == "^" then some 5
  else if op == "&" then some 6
  else if ["==", "!=", "===", "!=="].contains op then some 7
  else if ["<", ">", "<=", ">=", "in", "instanceof"].contains op then some 8
  else if ["<<", ">>", ">>>"].contains op then some 9
  else if ["+", "-"].contains op then some 10
  else if ["*", "/", "%"].contains op then some 11
  else if op == "**" then some 12
  else none

/-- A strength that no operator between two operands has. -/
def unaryStrength : Nat := 13

/-- The operators that change their target. -/
def augmentedOperators : List String :=
  ["+=", "-=", "*=", "/=", "%=", "**=", "<<=", ">>=", ">>>=", "&=", "|=", "^=", "&&=", "||=",
    "??="]

/-- The operator between two operands at the next token, and its strength. -/
def peekBinary (ctx : Context) : Parser (Option (String × Nat)) := do
  let name ← peekName
  let op ← if name == "" then peekOperator else pure name
  if name == "in" && ctx.noIn then return none
  return (binaryStrength op).map (op, ·)

/-! ## Arguments and members -/

/-- One argument or array element. -/
def argument (r : Rules) : Parser Expr := do
  let start ← token
  if ← took (operator "...") then
    discard <| r.expression .inner
    return .plain (← since start) .sequence
  r.expression .inner

/-- Arguments in parentheses; the result is the first, when it is a string literal. -/
def arguments (r : Rules) : Parser (Option Fragment) := do
  symbol '('
  match ← listUntil ')' (argument r) with
  | .plain code .string :: _ => return some code
  | _ => return none

/-- A call of `e`. -/
def callOf (start : Nat) (e : Option Expr) (first : Option Fragment) : Parser Expr := do
  let callee := match e with
    | some (.identifier name) => some name.text
    | _ => none
  return .call (← since start) callee first

/-- The name behind a dot. -/
def memberName : Parser Unit := do
  discard <| took (symbol '#')
  discard anyName

/-- What may follow type arguments that are not part of a call. -/
def endsInstantiation (c : Char) : Bool :=
  ";,)].?:=\x7d|&".toList.contains c || c == '\x00'

/-- What extends an expression from behind: members, subscripts, and calls where `calls` allows
them. -/
def postfixTail (r : Rules) (calls : Bool) (start : Nat) (e : Expr) : Parser Expr :=
  loop e fun e => do
    let op ← peekOperator
    if op == "." then
      operator "."
      memberName
      return some (.plain (← since start) .member)
    else if op == "?." && calls then
      operator "?."
      let c ← peekChar
      if c == '[' then
        symbol '['
        discard <| expressions r .inner
        symbol ']'
        return some (.plain (← since start) .subscript)
      else if c == '(' || c == '<' then
        discard <| optional (typeArguments r)
        let first ← arguments r
        return some (← callOf start (some e) first)
      else
        memberName
        return some (.plain (← since start) .member)
    else if op == "[" then
      symbol '['
      discard <| expressions r .inner
      symbol ']'
      return some (.plain (← since start) .subscript)
    else if op == "(" && calls then
      let first ← arguments r
      return some (← callOf start (some e) first)
    else if op == "\x60" then
      if !calls then return none
      template (discard <| expressions r .inner)
      return some (← callOf start none none)
    else if op == "<" && calls then
      let called ← optional do
        typeArguments r
        let c ← peekChar
        require (c == '(' || c == '\x60')
      if called.isSome then
        if (← peekChar) == '(' then
          let first ← arguments r
          return some (← callOf start (some e) first)
        template (discard <| expressions r .inner)
        return some (← callOf start none none)
      let applied ← optional do
        typeArguments r
        let here ← atLineEnd true
        require (here || endsInstantiation (← peekChar))
      if applied.isSome then return some (.plain (← since start) .instantiation)
      return none
    else return none

/-! ## Functions and classes -/

/-- A function expression. -/
def functionExpr (r : Rules) : Parser Expr := do
  let start ← token
  discard <| took (word "async")
  word "function"
  let generator ← took (operator "*")
  let name ← optional do
    let name ← anyName
    return name.text
  let shape ← callSignature r .inner
  discard <| block r false true
  return .callable (← since start) (if generator then .generator else .function) name shape

/-- What stands between a class name and its body. -/
def classHeritage (r : Rules) : Parser Unit := do
  discard <| optional (typeParameters r)
  if ← took (word "extends") then
    separated do
      discard <| r.unary .inner
      optional (typeArguments r)
  if ← took (word "implements") then separated (r.type .inner)

/-- The name of a class, if it has one. -/
def className : Parser (Option String) := optional do
  let name ← anyName
  require (name.text != "extends" && name.text != "implements")
  return name.text

/-- A class expression. -/
def classExpr (r : Rules) : Parser Expr := do
  let start ← token
  discard <| many (decorator r)
  word "class"
  let name ← className
  classHeritage r
  classBody r false
  return .classExpr (← since start) name

/-- An arrow function. -/
def arrow (r : Rules) (ctx : Context) : Parser Expr := do
  let start ← token
  let single : Parser CallShape := do
    let name ← variableName
    operator "=>"
    return ⟨[name.text], none⟩
  let full : Parser CallShape := do
    let c ← peekChar
    require (c == '(' || c == '<')
    let shape ← if ctx.noReturnType then do
        discard <| optional (typeParameters r)
        let params ← parameters r
        return ⟨params, none⟩
      else callSignature r .inner
    operator "=>"
    return shape
  let shape ← single <|> full <|> (do
    word "async"
    single <|> full)
  if (← peekChar) == '\x7b' then
    discard <| block r false true
    postfixTail r true start (.callable (← since start) .arrow none shape)
  else
    discard <| r.expression ctx
    return .callable (← since start) .arrow none shape

/-! ## Objects -/

/-- The first member of an object, as far as it is kept. -/
inductive FirstMember where
  | head (head : ObjectHead)
  | pair (code : Fragment) (key : String) (value : Expr)

/-- Words that may stand before the name of a method. -/
def methodModifiers : List String :=
  ["async", "get", "set", "static", "public", "private", "protected", "readonly", "override"]

/-- One member of an object literal. -/
def objectMember (r : Rules) : Parser FirstMember := do
  let start ← token
  let spread : Parser FirstMember := do
    operator "..."
    discard <| r.expression .inner
    return .head .spread
  let pair : Parser FirstMember := do
    memberKey r
    let key ← textSince start
    operator ":"
    let value ← r.expression .inner
    return .pair (← since start) key value
  let method : Parser FirstMember := do
    discard <| many do
      let w ← peekName
      require (methodModifiers.contains w)
      word w
      require (!endsMemberName (← peekChar))
    discard <| took (operator "*")
    let nameStart ← token
    memberKey r
    let name ← textSince nameStart
    discard <| took (operator "?")
    let shape ← callSignature r .inner
    discard <| block r false false
    return .head (.method name shape)
  let shorthand : Parser FirstMember := do
    let name ← anyName
    discard <| optional (initializer r .inner)
    return .head (.shorthand name.text)
  spread <|> pair <|> method <|> shorthand

/-- An object literal. -/
def objectExpr (r : Rules) : Parser Expr := do
  let start ← token
  symbol '\x7b'
  let members ← listUntil '\x7d' (objectMember r)
  let code ← since start
  match members.head? with
  | none => return .object code .nothing
  | some (.head head) => return .object code head
  | some (.pair pairCode key value) => return .objectPair code pairCode key value

/-! ## Primary expressions -/

/-- An expression or several in parentheses. -/
def parenthesizedExpr (r : Rules) : Parser Expr := do
  let start ← token
  symbol '('
  let inner ← expressions r .inner
  discard <| optional do
    operator ":"
    r.type .inner
  symbol ')'
  return .parenthesized (← since start) inner

/-- The kinds of expression that are one word. -/
def wordKind (w : String) : Option ExprKind :=
  if w == "true" then some .true
  else if w == "false" then some .false
  else if w == "null" then some .null
  else if w == "undefined" then some .undefined
  else if w == "this" then some .this
  else if w == "super" then some .super
  else none

/-- An expression that starts with a word. -/
def wordExpr (r : Rules) : Parser Expr := do
  let start ← token
  let w ← peekName
  match wordKind w with
  | some kind =>
    word w
    return .plain (← since start) kind
  | none =>
    if w == "function" then functionExpr r
    else if w == "class" then classExpr r
    else if w == "import" then
      word "import"
      if ← took (operator ".") then
        discard anyName
        return .plain (← since start) .metaProperty
      let first ← arguments r
      callOf start none first
    else if w == "async" then
      functionExpr r <|> do
        let name ← variableName
        return .identifier name
    else
      let name ← variableName
      return .identifier name

/-- An expression without operators and without anything behind it. -/
def primary (r : Rules) : Parser Expr := do
  let s ← source
  let start ← token
  let c := s.charAt start
  if c == '(' then parenthesizedExpr r
  else if c == '[' then
    symbol '['
    discard <| listUntil ']' (argument r)
    return .plain (← since start) .array
  else if c == '\x7b' then objectExpr r
  else if c == '\x60' then
    template (discard <| expressions r .inner)
    return .plain (← since start) .templateString
  else if c == '"' || c == '\x27' then
    let code ← stringLiteral
    return .plain code .string
  else if c.isDigit || c == '.' then
    number
    return .plain (← since start) .number
  else if c == '/' then
    match s.patternEnd start with
    | some i =>
      moveTo i
      return .plain (← since start) .regex
    | none => failure
  else if c == '@' then classExpr r
  else if c == '#' then
    symbol '#'
    discard anyName
    return .plain (← since start) .privateName
  else if c == '<' then
    let kind ← r.element
    return .plain (← since start) kind
  else wordExpr r

/-- `new` with what it builds and the arguments. -/
def newExpr (r : Rules) : Parser Expr := do
  let start ← token
  word "new"
  if ← took (operator ".") then
    discard anyName
    return .plain (← since start) .metaProperty
  let calleeStart ← token
  if (← peekName) == "new" then discard <| r.unary .inner
  else
    let callee ← primary r
    discard <| postfixTail r false calleeStart callee
  discard <| optional do
    discard <| optional (typeArguments r)
    discard <| arguments r
  return .plain (← since start) .new

/-! ## Operators before and between operands -/

/-- The words that are operators before an operand. -/
def unaryWords : List String := ["typeof", "void", "delete"]

/-- An expression with its members and calls, and a step behind it. -/
def stepped (r : Rules) (ctx : Context) : Parser Expr := do
  let start ← token
  let base ← if (← peekName) == "new" then newExpr r else primary r
  let e ← postfixTail r true start base
  if ← stopsHere ctx then return e
  if ← took (operator "++" <|> operator "--") then return .plain (← since start) .update
  return e

/-- An expression with the operators before it. -/
def unaryRule (r : Rules) (ctx : Context) : Parser Expr := do
  let start ← token
  let op ← peekOperator
  let name ← peekName
  if ["!", "~", "-", "+"].contains op then
    operator op
    discard <| r.unary ctx
    return .plain (← since start) .unary
  else if op == "++" || op == "--" then
    operator op
    discard <| r.unary ctx
    return .plain (← since start) .update
  else if unaryWords.contains name then
    word name
    discard <| r.unary ctx
    return .plain (← since start) .unary
  else if name == "await" then
    (do
      word "await"
      discard <| r.operand unaryStrength true ctx
      return .plain (← since start) .await) <|> stepped r ctx
  else if op == "<" && (← source).dialect == .typescript then
    typeArguments r
    discard <| r.unary ctx
    return .plain (← since start) .typeAssertion
  else stepped r ctx

/-- An operand: what binds at least as strongly as `least`. -/
def operandRule (r : Rules) (least : Nat) (tail : Bool) (ctx : Context) : Parser Expr := do
  let start ← token
  let first ← if least == 0 then arrow r ctx <|> r.unary ctx else r.unary ctx
  loop first fun _ => do
    if ← stopsHere ctx then return none
    let binary ← peekBinary ctx
    match binary with
    | some (op, strength) =>
      if strength < least then return none
      (operator op <|> word op)
      let rightTail := op == "**"
      discard <| r.operand (if rightTail then strength else strength + 1) rightTail ctx
      return some (.plain (← since start) .binary)
    | none =>
      if !tail then return none
      let name ← peekName
      if name == "as" then
        word "as"
        r.type ctx
        return some (.plain (← since start) .asType)
      else if name == "satisfies" then
        word "satisfies"
        r.type ctx
        return some (.plain (← since start) .satisfies)
      else if ← took (operator "!") then
        return some (← postfixTail r true start (.plain (← since start) .nonNull))
      else return none

/-- A choice between two values, or what would be its condition. -/
def conditional (r : Rules) (ctx : Context) : Parser Expr := do
  let start ← token
  let test ← r.operand 0 true ctx
  if ← stopsHere ctx then return test
  if (← peekOperator) != "?" then return test
  operator "?"
  let plain : Parser Unit := do
    discard <| r.expression .inner
    operator ":"
  let guarded : Parser Unit := do
    discard <| r.expression { Context.inner with noReturnType := true }
    operator ":"
  plain <|> guarded
  discard <| r.expression ctx
  return .plain (← since start) .ternary

/-- `yield` with what it yields. -/
def yieldExpr (r : Rules) (ctx : Context) : Parser Expr := do
  let start ← token
  word "yield"
  require (!(["=", "=>", ".", "?."].contains (← peekOperator)))
  discard <| took (operator "*")
  if !(← stopsHere ctx) then discard <| optional (r.expression ctx)
  return .plain (← since start) .yield

/-- An expression without a comma. -/
def expressionRule (r : Rules) (ctx : Context) : Parser Expr :=
  yieldExpr r ctx <|> do
    let start ← token
    let left ← conditional r ctx
    if ← stopsHere ctx then return left
    let op ← peekOperator
    if op == "=" then
      operator "="
      let value ← r.expression ctx
      return .assignment (← since start) left.code value
    else if augmentedOperators.contains op then
      operator op
      discard <| r.expression ctx
      return .plain (← since start) .augmentedAssignment
    else return left

end ModuleAtlas.Syntax.Parser
