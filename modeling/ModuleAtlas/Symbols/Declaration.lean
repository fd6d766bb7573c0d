/-!
# Declarations

What a module says about one of its names: a function with its signature, a type or namespace with
its source, a variable with what is known of its value, or a reference to another name that is
followed later.
-/

namespace ModuleAtlas.Symbols

/-- The kinds of declaration. -/
inductive Kind where
  | function
  | arrowFunction
  | classKind
  | interface
  | typeAlias
  | enumKind
  | namespaceKind
  | variableKind
  | json
deriving DecidableEq, Repr

namespace Kind

/-- The reported name of a kind. -/
def name : Kind → String
  | function => "function"
  | arrowFunction => "arrow_function"
  | classKind => "class"
  | interface => "interface"
  | typeAlias => "type_alias"
  | enumKind => "enum"
  | namespaceKind => "namespace"
  | variableKind => "variable"
  | json => "json"

/-- All kinds. -/
def all : List Kind :=
  [function, arrowFunction, classKind, interface, typeAlias, enumKind, namespaceKind,
    variableKind, json]

/-- The kind of a reported name. -/
def ofName? (text : String) : Option Kind := all.find? (·.name == text)

/-- Whether declarations of the kind name a type: their source is shown beside the functions whose
signatures mention them. -/
def namesType : Kind → Bool
  | interface | typeAlias | enumKind | classKind => true
  | _ => false

end Kind

/-- The parameters and the return type of a callable as written, and the statement that declares
it when that is kept. -/
structure Signature where
  params : String
  returnType : String
  source : Option String := none
deriving DecidableEq, Repr

/-- A signature joined with another one of the same function. -/
def Signature.withOverload (s other : Signature) : Signature :=
  { s with
    params := s.params ++ " | " ++ other.params
    returnType := s.returnType ++ " | " ++ other.returnType }

/-- What is known of a declared name. -/
inductive Declaration where
  | function (signature : Signature)
  | arrowFunction (signature : Signature)
  | classDecl (source : String)
  | interface (source : String)
  | typeAlias (source : String)
  | enumDecl (source : String)
  | namespaceDecl (source : String)
  /-- A variable: the kind of its initial value, its declared type, its statement. -/
  | variableDecl (valueKind declaredType source : Option String)
  /-- Another name of `target`, which stands in this module or in the module `origin`. -/
  | reference (target : String) (origin : Option String)
  /-- All of another module under one name. -/
  | wholeModule (specifier : String)
  /-- A value of a data module, printed. -/
  | json (value : String)
deriving DecidableEq, Repr

namespace Declaration

/-- The kind of a declaration: a reference counts as a variable, a whole module as a namespace. -/
def kind : Declaration → Kind
  | function _ => .function
  | arrowFunction _ => .arrowFunction
  | classDecl _ => .classKind
  | interface _ => .interface
  | typeAlias _ => .typeAlias
  | enumDecl _ => .enumKind
  | namespaceDecl _ | wholeModule _ => .namespaceKind
  | variableDecl .. | reference .. => .variableKind
  | json _ => .json

/-- The signature of a callable. -/
def signature? : Declaration → Option Signature
  | function s | arrowFunction s => some s
  | _ => none

/-- The text that shows a declaration. -/
def source? : Declaration → Option String
  | classDecl s | interface s | typeAlias s | enumDecl s | namespaceDecl s | json s => some s
  | variableDecl _ _ s => s
  | function s | arrowFunction s => s.source
  | reference .. | wholeModule _ => none

/-- The declaration with its text changed; one that has no text stays as it is. -/
def mapSource (f : String → String) : Declaration → Declaration
  | classDecl s => classDecl (f s)
  | interface s => interface (f s)
  | typeAlias s => typeAlias (f s)
  | enumDecl s => enumDecl (f s)
  | namespaceDecl s => namespaceDecl (f s)
  | json s => json (f s)
  | variableDecl k t s => variableDecl k t (s.map f)
  | function s => function { s with source := s.source.map f }
  | arrowFunction s => arrowFunction { s with source := s.source.map f }
  | d => d

/-- The declaration with another signature joined to its own; one that cannot be called stays as
it is. -/
def withOverload (other : Signature) : Declaration → Declaration
  | function s => function (s.withOverload other)
  | arrowFunction s => arrowFunction (s.withOverload other)
  | d => d

/-- Whether a declaration stands for another name. -/
def isReference : Declaration → Bool
  | reference .. => true
  | _ => false

end Declaration

end ModuleAtlas.Symbols
