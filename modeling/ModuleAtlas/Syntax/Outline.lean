import ModuleAtlas.Syntax.Source

/-!
# The outline of a module

What reading a module keeps of it: its top-level statements in order, and of each statement the
names, texts and places that say what it imports, declares and exports. The inside of functions
and classes is read but not kept.

Every node holds its own text as a `Fragment`. `kindName` gives the name under which a kind of
node is reported.
-/

namespace ModuleAtlas.Syntax

/-! ## Expressions -/

/-- The kinds of expression whose inside is of no interest. -/
inductive ExprKind where
  | number | string | templateString | true | false | null | undefined | this | super | regex
  | array | member | subscript | nonNull | new | metaProperty | binary | unary | update
  | await | yield | augmentedAssignment | ternary | sequence | asType | satisfies
  | typeAssertion | instantiation | privateName | element | selfClosingElement
deriving DecidableEq, Repr

/-- The reported name of a kind of expression. -/
def ExprKind.kindName : ExprKind → String
  | .number => "number"
  | .string => "string"
  | .templateString => "template_string"
  | .true => "true"
  | .false => "false"
  | .null => "null"
  | .undefined => "undefined"
  | .this => "this"
  | .super => "super"
  | .regex => "regex"
  | .array => "array"
  | .member => "member_expression"
  | .subscript => "subscript_expression"
  | .nonNull => "non_null_expression"
  | .new => "new_expression"
  | .metaProperty => "meta_property"
  | .binary => "binary_expression"
  | .unary => "unary_expression"
  | .update => "update_expression"
  | .await => "await_expression"
  | .yield => "yield_expression"
  | .augmentedAssignment => "augmented_assignment_expression"
  | .ternary => "ternary_expression"
  | .sequence => "sequence_expression"
  | .asType => "as_expression"
  | .satisfies => "satisfies_expression"
  | .typeAssertion => "type_assertion"
  | .instantiation => "instantiation_expression"
  | .privateName => "private_property_identifier"
  | .element => "jsx_element"
  | .selfClosingElement => "jsx_self_closing_element"

/-- The parameters of a callable, each as written, and its return type as written, colon
included. -/
structure CallShape where
  params : List String
  returnType : Option String
deriving DecidableEq, Repr

/-- The kinds of expression that can be called and carry a `CallShape`. -/
inductive CallableKind where
  | arrow
  | function
  | generator
deriving DecidableEq, Repr

/-- The reported name of a kind of callable. -/
def CallableKind.kindName : CallableKind → String
  | .arrow => "arrow_function"
  | .function => "function_expression"
  | .generator => "generator_function"

/-- What stands first in an object literal, when it is no `key: value` pair. -/
inductive ObjectHead where
  | nothing
  | shorthand (name : String)
  | method (name : String) (shape : CallShape)
  | spread
deriving DecidableEq, Repr

/-- An expression. -/
inductive Expr where
  /-- An expression whose inside is not kept. -/
  | plain (code : Fragment) (kind : ExprKind)
  /-- A name. -/
  | identifier (code : Fragment)
  /-- An expression in parentheses. -/
  | parenthesized (code : Fragment) (inner : Expr)
  /-- An arrow function or a function expression. -/
  | callable (code : Fragment) (kind : CallableKind) (name : Option String) (shape : CallShape)
  /-- A class expression. -/
  | classExpr (code : Fragment) (name : Option String)
  /-- An object literal that does not start with a pair. -/
  | object (code : Fragment) (head : ObjectHead)
  /-- An object literal that starts with the pair `key: value`. -/
  | objectPair (code : Fragment) (pair : Fragment) (key : String) (value : Expr)
  /-- A call: the name that is called, when it is a plain name, and the first argument, when it is
  a string literal. -/
  | call (code : Fragment) (callee : Option String) (argument : Option Fragment)
  /-- An assignment with `=`. -/
  | assignment (code : Fragment) (target : Fragment) (value : Expr)
deriving DecidableEq, Repr

namespace Expr

/-- The text of an expression and where it stands. -/
def code : Expr → Fragment
  | plain c _ | identifier c | parenthesized c _ | callable c .. | classExpr c _ | object c _
  | objectPair c .. | call c .. | assignment c .. => c

/-- The reported name of an expression's kind. -/
def kindName : Expr → String
  | plain _ k => k.kindName
  | identifier _ => "identifier"
  | parenthesized .. => "parenthesized_expression"
  | callable _ k _ _ => k.kindName
  | classExpr .. => "class"
  | object .. | objectPair .. => "object"
  | call .. => "call_expression"
  | assignment .. => "assignment_expression"

/-- The expression inside any number of parentheses. -/
def unwrap : Expr → Expr
  | parenthesized _ inner => inner.unwrap
  | e => e

end Expr

/-! ## Declarations and statements -/

/-- One `name: type = value` of a variable declaration. The name is kept as written; `simple` says
that it is a name and no pattern. -/
structure Declarator where
  code : Fragment
  name : String
  simple : Bool
  declaredType : Option String
  value : Option Expr
deriving DecidableEq, Repr

/-- The forms of a function declaration. -/
inductive FunctionForm where
  | function
  | generator
  | signature
deriving DecidableEq, Repr

/-- The reported name of a form of function declaration. -/
def FunctionForm.kindName : FunctionForm → String
  | .function => "function_declaration"
  | .generator => "generator_function_declaration"
  | .signature => "function_signature"

/-- The keyword that opens a namespace. -/
inductive NamespaceKeyword where
  | namespaceWord
  | moduleWord
deriving DecidableEq, Repr

/-- The reported name of a namespace declaration. -/
def NamespaceKeyword.kindName : NamespaceKeyword → String
  | .namespaceWord => "internal_module"
  | .moduleWord => "module"

/-- `name as newName` inside braces; names keep their quotes. -/
structure Specifier where
  name : String
  newName : Option String
deriving DecidableEq, Repr

/-- What an import statement binds. -/
inductive ImportForm where
  /-- Nothing: the module is only run. -/
  | bare
  /-- A default name, a name for the whole module, named bindings. -/
  | clause (defaultName : Option String) (whole : Option String) (named : List Specifier)
  /-- `name = require(source)`. -/
  | required (name : String) (source : String)
deriving DecidableEq, Repr

/-- An import statement. `source` is the literal behind `from`, or the only one. -/
structure ImportStmt where
  code : Fragment
  form : ImportForm
  source : Option Fragment
deriving DecidableEq, Repr

/-- What an export statement names besides declarations and values. -/
inductive ExportForm where
  /-- `{ a, b as c }`, with the module they come from. -/
  | names (specifiers : List Specifier) (source : Option String)
  /-- `* as name from source`. -/
  | whole (name : String) (source : String)
  /-- `* from source`. -/
  | all (source : String)
  /-- `= value` and `as namespace Name`, which export no name. -/
  | none
deriving DecidableEq, Repr

/-- The kinds of statement that neither import, declare nor export anything. -/
inductive PlainKind where
  | ifStatement | forStatement | forInStatement | whileStatement | doStatement
  | switchStatement | tryStatement | withStatement | breakStatement | continueStatement
  | returnStatement | throwStatement | emptyStatement | labeledStatement
  | debuggerStatement | block
deriving DecidableEq, Repr

/-- The reported name of a plain statement. -/
def PlainKind.kindName : PlainKind → String
  | .ifStatement => "if_statement"
  | .forStatement => "for_statement"
  | .forInStatement => "for_in_statement"
  | .whileStatement => "while_statement"
  | .doStatement => "do_statement"
  | .switchStatement => "switch_statement"
  | .tryStatement => "try_statement"
  | .withStatement => "with_statement"
  | .breakStatement => "break_statement"
  | .continueStatement => "continue_statement"
  | .returnStatement => "return_statement"
  | .throwStatement => "throw_statement"
  | .emptyStatement => "empty_statement"
  | .labeledStatement => "labeled_statement"
  | .debuggerStatement => "debugger_statement"
  | .block => "statement_block"

mutual

/-- A declaration. -/
inductive Decl where
  | function (code : Fragment) (form : FunctionForm) (name : String) (shape : CallShape)
  | classDecl (code : Fragment) (isAbstract : Bool) (name : String)
  | interface (code : Fragment) (name : String)
  | typeAlias (code : Fragment) (name : String)
  | enumDecl (code : Fragment) (name : String)
  | variableNames (code : Fragment) (lexical : Bool) (declarators : List Declarator)
  | namespaceDecl (code : Fragment) (keyword : NamespaceKeyword) (name : String)
      (members : List Stmt)
  /-- `declare` and what it declares; nothing for `declare global`. -/
  | ambient (code : Fragment) (inner : Option Decl)
  | importAlias (code : Fragment)

/-- A statement. -/
inductive Stmt where
  | declaration (decl : Decl)
  | importing (stmt : ImportStmt)
  /-- `export` or `export default` before a declaration. -/
  | exportDecl (code : Fragment) (isDefault : Bool) (decl : Decl)
  /-- `export default` before an expression. -/
  | exportValue (code : Fragment) (value : Expr)
  | exportNames (code : Fragment) (form : ExportForm)
  | expression (code : Fragment) (value : Expr)
  /-- A namespace that ends its line and so counts as an expression statement. -/
  | namespaceLine (code : Fragment) (decl : Decl)
  | plain (code : Fragment) (kind : PlainKind)

end

namespace Decl

/-- The text of a declaration and where it stands. -/
def code : Decl → Fragment
  | function c .. | classDecl c .. | interface c _ | typeAlias c _ | enumDecl c _
  | variableNames c .. | namespaceDecl c .. | ambient c _ | importAlias c => c

/-- The reported name of a declaration's kind. -/
def kindName : Decl → String
  | function _ form _ _ => form.kindName
  | classDecl _ isAbstract _ =>
    if isAbstract then "abstract_class_declaration" else "class_declaration"
  | interface .. => "interface_declaration"
  | typeAlias .. => "type_alias_declaration"
  | enumDecl .. => "enum_declaration"
  | variableNames _ lexical _ => if lexical then "lexical_declaration" else "variable_declaration"
  | namespaceDecl _ keyword _ _ => keyword.kindName
  | ambient .. => "ambient_declaration"
  | importAlias _ => "import_alias"

/-- The declared name, for the kinds that have one. -/
def name? : Decl → Option String
  | function _ _ n _ | classDecl _ _ n | interface _ n | typeAlias _ n | enumDecl _ n
  | namespaceDecl _ _ n _ => some n
  | variableNames .. | ambient .. | importAlias _ => none

end Decl

namespace Stmt

/-- The text of a statement and where it stands. -/
def code : Stmt → Fragment
  | declaration d => d.code
  | importing i => i.code
  | exportDecl c .. | exportValue c _ | exportNames c _ | expression c _ | namespaceLine c _
  | plain c _ => c

/-- The reported name of a statement's kind. -/
def kindName : Stmt → String
  | declaration d => d.kindName
  | importing _ => "import_statement"
  | exportDecl .. | exportValue .. | exportNames .. => "export_statement"
  | expression .. | namespaceLine .. => "expression_statement"
  | plain _ k => k.kindName

end Stmt

/-! ## Modules -/

/-- What stands at the top level of a text. -/
inductive Item where
  | statement (stmt : Stmt)
  | comment (code : Fragment)
  | markupComment (code : Fragment)
  | scriptLine (code : Fragment)
  /-- A stretch that cannot be read. -/
  | broken (code : Fragment)

namespace Item

/-- The text of an item and where it stands. -/
def code : Item → Fragment
  | statement s => s.code
  | comment c | markupComment c | scriptLine c | broken c => c

/-- The reported name of an item's kind. -/
def kindName : Item → String
  | statement s => s.kindName
  | comment _ => "comment"
  | markupComment _ => "html_comment"
  | scriptLine _ => "hash_bang_line"
  | broken _ => "ERROR"

end Item

/-- The outline of a module: its items in order, and whether any part was broken. -/
structure Outline where
  items : List Item
  hasError : Bool

namespace Outline

/-- The statements of a module, without what stands between them. -/
def statements (o : Outline) : List Stmt :=
  o.items.filterMap fun
    | .statement s => some s
    | _ => none

end Outline

end ModuleAtlas.Syntax
