import ModuleAtlas.Syntax.Expression

/-!
# Declarations and statements

The statements of a module. Words that open a declaration may also be plain names, so each
declaration is tried first and an expression statement last.
-/

namespace ModuleAtlas.Syntax.Parser

/-! ## Declarations -/

/-- A function declaration, or a signature when it has no body. -/
def functionDecl (r : Rules) : Parser Decl := do
  let start ← token
  discard <| took (word "async")
  word "function"
  let generator ← took (operator "*")
  let name ← anyName
  let shape ← callSignature r .typeEnd
  if (← peekChar) == '\x7b' then
    discard <| block r true false
    let form := if generator then FunctionForm.generator else .function
    return .function (← since start) form name.text shape
  require !generator
  terminator false
  return .function (← since start) .signature name.text shape

/-- A class declaration; the line end behind it belongs to it unless it is abstract. -/
def classDecl (r : Rules) : Parser Decl := do
  let start ← token
  discard <| many (decorator r)
  let isAbstract ← took (word "abstract")
  word "class"
  let name ← anyName
  require (name.text != "extends" && name.text != "implements")
  classHeritage r
  classBody r true
  if !isAbstract then optionalLineEnd false
  return .classDecl (← since start) isAbstract name.text

/-- An interface. -/
def interfaceDecl (r : Rules) : Parser Decl := do
  let start ← token
  word "interface"
  let name ← anyName
  discard <| optional (typeParameters r)
  if ← took (word "extends") then separated (r.type .inner)
  objectType r true
  return .interface (← since start) name.text

/-- A type alias. -/
def typeAliasDecl (r : Rules) : Parser Decl := do
  let start ← token
  word "type"
  let name ← anyName
  discard <| optional (typeParameters r)
  operator "="
  r.type .typeEnd
  terminator false
  return .typeAlias (← since start) name.text

/-- An enumeration. -/
def enumDecl (r : Rules) : Parser Decl := do
  let start ← token
  discard <| took (word "const")
  word "enum"
  let name ← anyName
  symbol '\x7b'
  let item : Parser Unit := do
    memberKey r
    discard <| optional (initializer r .inner)
    let c ← peekChar
    require (c == ',' || c == '\x7d' || (← atEnd))
    discard <| took (symbol ',')
  discard <| bodyItems true (item <|> symbol ',')
  return .enumDecl (← since start) name.text

/-- One variable of a declaration. -/
def declarator (r : Rules) (ctx : Context) : Parser Declarator := do
  let start ← token
  let simple := (← peekName) != ""
  r.pattern
  let name ← textSince start
  discard <| took do
    require (simple && !(← stopsHere { ctx with operators := false }))
    operator "!"
    require ((← peekChar) == ':')
  let typed ← optional (returnType r { ctx with operators := false })
  let value ← optional (initializer r ctx)
  return { code := ← since start, name, simple, declaredType := typed, value }

/-- The variables of a declaration, between commas. -/
def declarators (r : Rules) (ctx : Context) : Parser (List Declarator) := do
  let first ← declarator r ctx
  let more ← many do
    operator ","
    declarator r ctx
  return first :: more

/-- A variable declaration. -/
def variableDecl (r : Rules) : Parser Decl := do
  let start ← token
  let lexical ← (do word "var"; return false) <|> (do word "let" <|> word "const"; return true)
  let vars ← declarators r .statement
  let valued := (vars.getLast?.bind (·.value)).isSome
  terminator valued
  return .variableNames (← since start) lexical vars

/-- A name for a namespace: a string, or a dotted name, as written. -/
def namespaceName : Parser String := do
  let start ← token
  (do discard stringLiteral) <|> dottedName
  textSince start

/-- A namespace or module with its body. -/
def namespaceDecl (r : Rules) : Parser Decl := do
  let start ← token
  let keyword ←
    (do word "namespace"; return NamespaceKeyword.namespaceWord) <|>
    (do word "module"; return NamespaceKeyword.moduleWord)
  let name ← namespaceName
  let members ← if (← peekChar) == '\x7b' then block r true false else pure []
  return .namespaceDecl (← since start) keyword name members

/-- `import a = b.c`. -/
def importAliasDecl : Parser Decl := do
  let start ← token
  word "import"
  discard anyName
  operator "="
  dottedName
  terminator false
  return .importAlias (← since start)

/-- A declaration without `declare`. -/
def plainDecl (r : Rules) : Parser Decl := do
  match ← peekName with
  | "function" | "async" => functionDecl r
  | "class" | "abstract" => classDecl r
  | "interface" => interfaceDecl r
  | "type" => typeAliasDecl r
  | "enum" => enumDecl r
  | "const" => enumDecl r <|> variableDecl r
  | "let" | "var" => variableDecl r
  | "namespace" | "module" => namespaceDecl r
  | "import" => importAliasDecl
  | _ =>
    require ((← peekChar) == '@')
    classDecl r

/-- `declare` with what it declares. -/
def ambientDecl (r : Rules) : Parser Decl := do
  let start ← token
  word "declare"
  let isGlobal ← took do
    word "global"
    require ((← peekChar) == '\x7b')
  if isGlobal then
    discard <| block r true false
    return .ambient (← since start) none
  let member ← took do
    word "module"
    operator "."
    discard anyName
    operator ":"
  if member then
    r.type .typeEnd
    terminator false
    return .ambient (← since start) none
  let inner ← plainDecl r
  return .ambient (← since start) (some inner)

/-- A declaration. -/
def declarationRule (r : Rules) : Parser Decl := do
  if (← peekName) == "declare" then ambientDecl r else plainDecl r

/-! ## Imports -/

/-- A name inside braces: a name or a string. -/
def specifierName : Parser String := do
  let start ← token
  (do discard stringLiteral) <|> (do discard anyName)
  textSince start

/-- `name`, `name as newName`. -/
def namedSpecifier : Parser Specifier := do
  let name ← specifierName
  let newName ← optional do
    word "as"
    specifierName
  let c ← peekChar
  require (c == ',' || c == '\x7d')
  return ⟨name, newName⟩

/-- A specifier, with `type` or `typeof` before it where that is not the name itself. -/
def specifier : Parser Specifier :=
  namedSpecifier <|> do
    word "type" <|> word "typeof"
    namedSpecifier

/-- Specifiers in braces. -/
def specifiers : Parser (List Specifier) := do
  symbol '\x7b'
  listUntil '\x7d' specifier

/-- The literal behind `from`. -/
def fromClause : Parser Fragment := do
  word "from"
  stringLiteral

/-- `* as name`. -/
def wholeName : Parser String := do
  operator "*"
  word "as"
  specifierName

/-- What an import statement binds, and the literal it ends with. -/
def importForm : Parser (ImportForm × Option Fragment) := do
  let fromLiteral (d w : Option String) (n : List Specifier) :
      Parser (ImportForm × Option Fragment) := do
    let source ← fromClause
    return (.clause d w n, some source)
  let bare : Parser (ImportForm × Option Fragment) := do
    let source ← stringLiteral
    return (.bare, some source)
  let whole : Parser (ImportForm × Option Fragment) := do
    let name ← wholeName
    fromLiteral none (some name) []
  let named : Parser (ImportForm × Option Fragment) := do
    let names ← specifiers
    fromLiteral none none names
  let required : Parser (ImportForm × Option Fragment) := do
    let name ← anyName
    operator "="
    word "require"
    symbol '('
    let literal ← stringLiteral
    symbol ')'
    return (.required name.text literal.text, none)
  let default : Parser (ImportForm × Option Fragment) := do
    let name ← anyName
    if ← took (operator ",") then
      (do
        let rest ← wholeName
        fromLiteral (some name.text) (some rest) []) <|>
      (do
        let names ← specifiers
        fromLiteral (some name.text) none names)
    else fromLiteral (some name.text) none []
  bare <|> whole <|> named <|> required <|> default

/-- A stray word before the literal, which is passed over. -/
def strayWordImport : Parser (ImportForm × Option Fragment) := do
  discard anyName
  let source ← stringLiteral
  mend
  return (.bare, some source)

/-- The attributes behind an import. -/
def importAttributes (r : Rules) : Parser Unit := do
  word "with" <|> word "assert"
  discard <| objectExpr r

/-- An import statement. -/
def importStmt (r : Rules) : Parser Stmt := do
  let start ← token
  word "import"
  let (form, source) ← importForm <|>
    (do
      word "type" <|> word "typeof"
      importForm) <|> strayWordImport
  discard <| optional (importAttributes r)
  terminator false
  return .importing { code := ← since start, form, source }

/-! ## Exports -/

/-- What an export statement names besides declarations and values. -/
def exportForm (r : Rules) : Parser ExportForm := do
  let whole : Parser ExportForm := do
    let name ← wholeName
    let source ← fromClause
    return .whole name source.text
  let all : Parser ExportForm := do
    operator "*"
    let source ← fromClause
    return .all source.text
  let names : Parser ExportForm := do
    discard <| took (word "type")
    let specs ← specifiers
    let source ← optional fromClause
    return .names specs (source.map (·.text))
  let assigned : Parser ExportForm := do
    operator "="
    discard <| r.expression .statement
    terminator true
    return .none
  let globalName : Parser ExportForm := do
    word "as"
    word "namespace"
    discard anyName
    return .none
  assigned <|> do
    let form ← whole <|> all <|> names <|> globalName
    terminator false
    return form

/-- An export statement. -/
def exportStmt (r : Rules) : Parser Stmt := do
  let start ← token
  discard <| many (decorator r)
  word "export"
  let named : Parser Stmt := do
    let form ← exportForm r
    return .exportNames (← since start) form
  let value : Parser Stmt := do
    word "default"
    let value ← r.expression .statement
    terminator true
    return .exportValue (← since start) value
  let defaultDecl : Parser Stmt := do
    word "default"
    let decl ← declarationRule r
    return .exportDecl (← since start) true decl
  let decl : Parser Stmt := do
    let decl ← declarationRule r
    return .exportDecl (← since start) false decl
  named <|> defaultDecl <|> value <|> decl

/-! ## Plain statements -/

/-- A plain statement that starts at `start`. -/
def plainStmt (start : Nat) (kind : PlainKind) : Parser Stmt := do
  return .plain (← since start) kind

/-- `if` with its branches. -/
def ifStmt (r : Rules) : Parser Stmt := do
  let start ← token
  word "if"
  condition r
  discard r.statement
  if ← took (word "else") then discard r.statement
  plainStmt start .ifStatement

/-- The head of a loop over the keys or the elements of a value. -/
def forInHead (r : Rules) : Parser Unit := do
  discard <| took (word "var" <|> word "let" <|> word "const")
  r.pattern <|> discard (r.unary .inner)
  discard <| optional (returnType r .inner)
  word "in" <|> word "of"
  discard <| expressions r .inner
  symbol ')'

/-- The head of a loop with a start, a condition and a step. -/
def forHead (r : Rules) : Parser Unit := do
  let ctx := { Context.inner with noIn := true }
  let declared : Parser Unit := do
    word "var" <|> word "let" <|> word "const"
    discard <| declarators r ctx
    symbol ';'
  symbol ';' <|> declared <|> (do
    discard <| expressions r ctx
    symbol ';')
  discard <| optional (expressions r .inner)
  symbol ';'
  discard <| optional (expressions r .inner)
  symbol ')'

/-- A loop that starts with `for`. -/
def forStmt (r : Rules) : Parser Stmt := do
  let start ← token
  word "for"
  discard <| took (word "await")
  symbol '('
  let kind ← (do forInHead r; return PlainKind.forInStatement) <|>
    (do forHead r; return PlainKind.forStatement)
  discard r.statement
  plainStmt start kind

/-- `while` with its body. -/
def whileStmt (r : Rules) : Parser Stmt := do
  let start ← token
  word "while"
  condition r
  discard r.statement
  plainStmt start .whileStatement

/-- `do` with its body and condition. -/
def doStmt (r : Rules) : Parser Stmt := do
  let start ← token
  word "do"
  discard r.statement
  word "while"
  condition r
  discard <| optional (terminator false)
  plainStmt start .doStatement

/-- One label of a `switch`, without its statements. -/
def caseLabel (r : Rules) : Parser Unit := do
  (do
    word "case"
    discard <| expressions r .inner) <|> word "default"
  operator ":"

/-- `switch` with its cases. -/
def switchStmt (r : Rules) : Parser Stmt := do
  let start ← token
  word "switch"
  condition r
  symbol '\x7b'
  discard <| bodyItems true (caseLabel r <|> discard r.statement)
  optionalLineEnd false
  plainStmt start .switchStatement

/-- `try` with its handlers. -/
def tryStmt (r : Rules) : Parser Stmt := do
  let start ← token
  word "try"
  discard <| block r true false
  if ← took (word "catch") then
    discard <| optional do
      symbol '('
      r.pattern
      discard <| optional (returnType r .inner)
      symbol ')'
    discard <| block r true false
  if ← took (word "finally") then discard <| block r true false
  plainStmt start .tryStatement

/-- `with` and its body. -/
def withStmt (r : Rules) : Parser Stmt := do
  let start ← token
  word "with"
  condition r
  discard r.statement
  plainStmt start .withStatement

/-- `break` or `continue` with its label. -/
def jumpStmt (keyword : String) (kind : PlainKind) : Parser Stmt := do
  let start ← token
  word keyword
  if !(← atLineEnd false) then discard <| optional variableName
  terminator false
  plainStmt start kind

/-- `return` or `throw` with its value. -/
def valueStmt (r : Rules) (keyword : String) (kind : PlainKind) : Parser Stmt := do
  let start ← token
  word keyword
  let value ← if ← atLineEnd false then pure none
    else optional (expressions r .statement)
  terminator value.isSome
  plainStmt start kind

/-- A statement with a label. -/
def labeledStmt (r : Rules) : Parser Stmt := do
  let start ← token
  discard variableName
  operator ":"
  discard r.statement
  plainStmt start .labeledStatement

/-- An expression as a statement. -/
def expressionStmt (r : Rules) : Parser Stmt := do
  let start ← token
  let value ← expressions r .statement
  terminator true
  return .expression (← since start) value

/-- A declaration as a statement. A namespace that ends its line counts as an expression. -/
def declarationStmt (r : Rules) : Parser Stmt := do
  let start ← token
  let decl ← declarationRule r
  match decl with
  | .namespaceDecl _ .namespaceWord .. =>
    match ← lineEnd true with
    | some i =>
      moveTo i
      return .namespaceLine (← since start) decl
    | none => return .declaration decl
  | _ => return .declaration decl

/-- A statement. -/
def statementRule (r : Rules) : Parser Stmt := do
  let start ← token
  let c ← peekChar
  if c == '\x7b' then
    discard <| block r true false
    plainStmt start .block
  else if c == ';' then
    symbol ';'
    plainStmt start .emptyStatement
  else if c == '@' then exportStmt r <|> declarationStmt r <|> expressionStmt r
  else
    match ← peekName with
    | "" => expressionStmt r
    | "import" => importStmt r <|> declarationStmt r <|> expressionStmt r
    | "export" => exportStmt r
    | "if" => ifStmt r
    | "for" => forStmt r
    | "while" => whileStmt r
    | "do" => doStmt r
    | "switch" => switchStmt r
    | "try" => tryStmt r
    | "with" => withStmt r
    | "break" => jumpStmt "break" .breakStatement
    | "continue" => jumpStmt "continue" .continueStatement
    | "return" => valueStmt r "return" .returnStatement
    | "throw" => valueStmt r "throw" .throwStatement
    | "debugger" => jumpStmt "debugger" .debuggerStatement
    | _ => declarationStmt r <|> labeledStmt r <|> expressionStmt r

end ModuleAtlas.Syntax.Parser
