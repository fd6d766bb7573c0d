import ModuleAtlas.Text.Order

/-!
# Dialects

A module is read in one of two dialects: plain TypeScript, where `<T>x` asserts a type, and TSX,
where `<T>` opens an element. JavaScript is read as TSX.
-/

namespace ModuleAtlas.Syntax

/-- The dialect a text is read in. -/
inductive Dialect where
  | typescript
  | tsx
deriving DecidableEq, Repr

namespace Dialect

/-- The name under which a dialect is asked for and reported. -/
def name : Dialect → String
  | typescript => "typescript"
  | tsx => "tsx"

/-- The file extensions of each dialect. -/
def extensions : Dialect → List String
  | typescript => ["ts", "mts", "cts"]
  | tsx => ["tsx", "jsx", "js", "mjs", "cjs", "vue"]

/-- The editor language identifiers of each dialect. -/
def languageIds : Dialect → List String
  | typescript => ["typescript"]
  | tsx => ["typescriptreact", "javascript", "javascriptreact", "vue"]

/-- Both dialects. -/
def all : List Dialect := [typescript, tsx]

/-- The dialect of a name. -/
def ofName? (s : String) : Option Dialect :=
  all.find? (·.name == s)

/-- The dialect of a file extension, given without its dot. -/
def ofExtension? (s : String) : Option Dialect :=
  all.find? (·.extensions.contains s)

/-- The dialect of an editor language identifier. -/
def ofLanguageId? (s : String) : Option Dialect :=
  all.find? (·.languageIds.contains s)

/-- Every extension that some dialect reads, in alphabetical order. -/
def allExtensions : List String :=
  Text.sort (all.flatMap extensions)

end Dialect

end ModuleAtlas.Syntax
