import ModuleAtlas.Draft.TypeSlices
import ModuleAtlas.Syntax.Outline
import ModuleAtlas.Text.Blank
import ModuleAtlas.Text.Quotes

/-!
# What statements say

The facts of each top-level statement: imports, declarations, exports. A namespace also gives the
exported declarations among its members, at any depth of exported namespaces.
-/

namespace ModuleAtlas.Draft

open Symbols Syntax
open Text (withoutQuotes trim trimFront)

/-! ## Declarations -/

/-- A type as written behind a name: without its colon and the blanks around it. -/
def plainType (text : String) : String :=
  match trimFront text.toList with
  | ':' :: cs => trim (String.ofList cs)
  | cs => trim (String.ofList cs)

/-- The signature of a callable. -/
def callSignature (shape : CallShape) : Signature :=
  { params := String.intercalate ", " shape.params
    returnType := (shape.returnType.map plainType).getD "" }

/-- What is declared by giving a value to a name in a statement with the given source. -/
def ofValue (value : Expr) (declaredType : Option String) (source : String) : Declaration :=
  match value.unwrap with
  | .identifier c => .reference c.text none
  | .callable _ _ _ shape => .arrowFunction { callSignature shape with source := some source }
  | e => .variableDecl (some e.kindName) declaredType (some source)

/-- The names of a variable declaration with what is known of them. Patterns give nothing. -/
def declaredNames (source : String) (declarators : List Declarator) :
    List (String × Declaration) :=
  (declarators.filter (·.simple)).map fun d =>
    let declaredType := d.declaredType.map plainType
    match d.value with
    | some value => (d.name, ofValue value declaredType source)
    | none => (d.name, .variableDecl none declaredType (some source))

/-- An entry exported under its own name. -/
def exported (name : String) (declaration : Declaration) : Fact :=
  .exports { name, declaration }

mutual

/-- What exporting a declaration says. -/
def exportFacts : Decl → List Fact
  | .function _ _ name shape => [.exportsFunction name (callSignature shape)]
  | .classDecl c _ n => [exported (withoutQuotes n) (.classDecl c.text)]
  | .interface c n => [exported (withoutQuotes n) (.interface c.text)]
  | .typeAlias c n => [exported (withoutQuotes n) (.typeAlias c.text)]
  | .enumDecl c n => [exported (withoutQuotes n) (.enumDecl c.text)]
  | .variableNames c _ ds => (declaredNames c.text ds).map fun (n, d) => exported n d
  | .namespaceDecl c _ n members =>
    exported (withoutQuotes n) (.namespaceDecl c.text) :: membersFacts members
  | .ambient _ (some d) => exportFacts d
  | .ambient _ none => []
  | .importAlias _ => []

/-- What the exported declarations among the members of a namespace say. -/
def membersFacts : List Stmt → List Fact
  | [] => []
  | s :: rest => memberFacts s ++ membersFacts rest

/-- What a member of a namespace says: only exported declarations count. -/
def memberFacts : Stmt → List Fact
  | .exportDecl _ _ d => exportFacts d
  | _ => []

end

/-- What a declaration that is not exported says. -/
def declFacts : Decl → List Fact
  | .function _ _ name shape => [.declares name (.function (callSignature shape))]
  | .classDecl c _ n => [.declares (withoutQuotes n) (.classDecl c.text)]
  | .interface c n => [.declares (withoutQuotes n) (.interface c.text)]
  | .typeAlias c n => [.declares (withoutQuotes n) (.typeAlias c.text)]
  | .enumDecl c n => [.declares (withoutQuotes n) (.enumDecl c.text)]
  | .variableNames c _ ds => (declaredNames c.text ds).map fun (n, d) => .declares n d
  | .namespaceDecl c _ n members =>
    .declares (withoutQuotes n) (.namespaceDecl c.text) :: membersFacts members
  | .ambient _ (some d) => declFacts d
  | .ambient _ none => []
  | .importAlias _ => []

/-! ## Default exports -/

/-- What exporting a declaration as the default says. -/
def defaultDeclFact (d : Decl) : Fact :=
  let source := d.code.text
  let declaration : Declaration := match d with
    | .function _ _ _ shape => .function (callSignature shape)
    | .classDecl .. => .classDecl source
    | .interface .. => .interface source
    | _ => .variableDecl (some d.kindName) none (some source)
  let name := (d.name?.map withoutQuotes).getD defaultName
  .exports (Export.markedDefault { name, declaration })

/-- What exporting a value as the default says. -/
def defaultValueFact (value : Expr) : Fact :=
  let e := value.unwrap
  let source := e.code.text
  let entry : Export := match e with
    | .callable _ .arrow _ shape =>
      { name := defaultName
        declaration := .arrowFunction { callSignature shape with source := some source } }
    | .callable _ _ name shape =>
      { name := name.getD defaultName
        declaration := .function { callSignature shape with source := some source } }
    | .classExpr _ name => { name := name.getD defaultName, declaration := .classDecl source }
    | .identifier _ => { name := source, declaration := .reference source none }
    | _ =>
      { name := defaultName
        declaration := .variableDecl (some e.kindName) none (some source) }
  .exports entry.markedDefault

/-! ## Names from and to other modules -/

/-- What an import statement binds. -/
def importFacts (i : ImportStmt) : List Fact :=
  match i.form with
  | .bare => []
  | .required name source =>
    [.imports { localName := name, isDefault := true, source := withoutQuotes source }]
  | .clause default whole named =>
    match i.source.map (withoutQuotes ·.text) with
    | none => []
    | some source =>
      default.toList.map (fun n => .imports { localName := n, isDefault := true, source }) ++
      whole.toList.map (fun n => .imports { localName := n, isNamespace := true, source }) ++
      named.map fun s =>
        let name := withoutQuotes s.name
        .imports { localName := (s.newName.map withoutQuotes).getD name
                   importedName := some name, source }

/-- The entry of `name as new` in a list of exported names. -/
def specifierEntry (origin : Option String) (s : Specifier) : Export :=
  let name := withoutQuotes s.name
  let entry : Export := { name, declaration := .reference name origin }
  match s.newName with
  | some new => entry.renamed (withoutQuotes new)
  | none => if name = defaultName then entry.markedDefault else entry

/-- What an export of names says. -/
def namesFacts : ExportForm → List Fact
  | .names specifiers source =>
    specifiers.map (.exports <| specifierEntry (source.map withoutQuotes) ·)
  | .whole name source => [exported (withoutQuotes name) (.wholeModule (withoutQuotes source))]
  | .all source => [.exportsAllOf (withoutQuotes source)]
  | .none => []

/-! ## Assigned exports -/

/-- The target whose assignment exports the properties of an object. -/
def assignedExports : String := "module.exports"

/-- What an expression statement says: an object assigned to `module.exports` exports its first
property. -/
def expressionFacts : Expr → List Fact
  | .assignment _ target value =>
    if Text.withoutBlanks target.text = assignedExports then
      match value with
      | .objectPair _ pair key value =>
        [exported (withoutQuotes key) (ofValue value none pair.text)]
      | .object _ (.shorthand name) => [exported name (.reference name none)]
      | .object _ (.method name shape) => [exported name (.function (callSignature shape))]
      | _ => []
    else []
  | _ => []

/-! ## Statements -/

/-- What a top-level statement says. -/
def statementFacts (mode : Mode) : Stmt → List Fact
  | .declaration d => declFacts d
  | .importing i => if mode = .full then importFacts i else []
  | .exportDecl _ true d => [defaultDeclFact d]
  | .exportDecl _ false d => exportFacts d
  | .exportValue _ value => [defaultValueFact value]
  | .exportNames _ form => namesFacts form
  | .expression _ value => expressionFacts value
  | .namespaceLine _ d => declFacts d
  | .plain .. => []

/-- The draft of an outline. -/
def ofOutline (mode : Mode) (o : Outline) : Draft :=
  (ofFacts (o.statements.flatMap (statementFacts mode))).withTypeSlices

end ModuleAtlas.Draft
