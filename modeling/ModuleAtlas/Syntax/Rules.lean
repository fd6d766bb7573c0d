import ModuleAtlas.Syntax.LineEnd
import ModuleAtlas.Syntax.Outline

/-!
# The recursive rules of the grammar

Expressions, types, patterns, elements and statements contain one another. `Rules` lists the
readers through which they do, and every grammar module is written against it. The readers
themselves are tied together for a bounded depth of nesting in `ModuleAtlas.Syntax.Program`.
-/

namespace ModuleAtlas.Syntax

/-- What surrounds an expression or a type. -/
structure Context where
  /-- A line break may end the statement here. -/
  ends : Bool
  /-- An operator may follow, so that a line starting with `(` or `[` goes on. -/
  operators : Bool
  /-- `in` is no operator here: the head of a loop. -/
  noIn : Bool
  /-- A colon behind parameters belongs to a conditional, not to a return type. -/
  noReturnType : Bool
deriving DecidableEq, Repr

namespace Context

/-- Inside brackets, where no line break ends anything. -/
def inner : Context := ⟨false, true, false, false⟩

/-- An expression at the end of a statement. -/
def statement : Context := ⟨true, true, false, false⟩

/-- A type at the end of a statement or of a member. -/
def typeEnd : Context := ⟨true, false, false, false⟩

end Context

/-- The readers through which the parts of the grammar contain one another. -/
structure Rules where
  /-- An expression without a comma. -/
  expression : Context → Parser Expr
  /-- An operand of an operator of the given strength; `tail` lets it take type and non-null
  marks behind it. -/
  operand : Nat → (tail : Bool) → Context → Parser Expr
  /-- An expression with the operators that stand before it. -/
  unary : Context → Parser Expr
  /-- A type. -/
  type : Context → Parser Unit
  /-- A type that is no choice between two. -/
  plainType : Context → Parser Unit
  /-- A name or a pattern that binds names. -/
  pattern : Parser Unit
  /-- An element of markup. -/
  element : Parser ExprKind
  /-- A statement. -/
  statement : Parser Stmt

/-- The rules at depth zero read nothing. -/
def Rules.none : Rules where
  expression _ := failure
  operand _ _ _ := failure
  unary _ := failure
  type _ := failure
  plainType _ := failure
  pattern := failure
  element := failure
  statement := failure

namespace Parser

/-- Whether the statement around may end here, so that what follows is no part of it. -/
def stopsHere (ctx : Context) : Parser Bool :=
  if ctx.ends then atLineEnd ctx.operators else return false

/-- The words that are never names of variables. -/
def reservedWords : List String :=
  ["break", "case", "catch", "class", "const", "continue", "debugger", "default", "delete",
    "do", "else", "enum", "export", "extends", "false", "finally", "for", "function", "if",
    "import", "in", "instanceof", "new", "null", "return", "super", "switch", "this", "throw",
    "true", "try", "typeof", "var", "void", "while", "with"]

/-- A name that may stand for a variable. -/
def variableName : Parser Fragment := do
  let name ← anyName
  require (!reservedWords.contains name.text)
  return name

/-- Several expressions between commas, as in the head of a statement. -/
def expressions (r : Rules) (ctx : Context) : Parser Expr := do
  let start ← token
  let first ← r.expression ctx
  let more ← many do
    operator ","
    r.expression ctx
  if more.isEmpty then return first
  return .plain (← since start) .sequence

/-- An expression in parentheses, as behind `if` and `while`. -/
def condition (r : Rules) : Parser Unit := do
  operator "("
  discard <| expressions r .inner
  operator ")"

end Parser

end ModuleAtlas.Syntax
