import ModuleAtlas.Draft.File
import ModuleAtlas.Text.Position

/-!
# The import at a cursor

Which module the statement under a cursor imports. The cursor is looked for in import statements
and in declarations `x = require(…)`; in component files only in the import statements of their
script blocks. Where no statement is found, the cursor's line is tried against an unfinished
`import from "…"`.
-/

namespace ModuleAtlas

open Syntax Text

/-- An import: the text before its specifier or the name it is bound to, the specifier, and whether
the cursor is in the specifier. -/
structure ImportSite where
  importsText : String
  specifier : String
  inSpecifier : Bool
deriving DecidableEq, Repr

namespace ImportSite

/-- A site as JSON. -/
def toJson (s : ImportSite) : Json.Value :=
  .object [("imports_text", .string s.importsText), ("specifier", .string s.specifier),
    ("in_specifier", .bool s.inSpecifier)]

/-- The site of an import statement that has a specifier. The statement was read from the part of
the text that starts at byte `base`. -/
def ofImport (text : String) (base offset : Nat) (i : ImportStmt) : Option ImportSite := do
  let source ← i.source
  let code := i.code.shift base
  let literal := source.shift base
  let importsText ← piece? text code.start literal.start
  let specifier ← piece? text literal.start literal.stop
  return { importsText, specifier := withoutQuotes specifier, inSpecifier := literal.touches offset }

/-- The function whose call imports a module. -/
def requireName : String := "require"

/-- The site of a declaration whose first name is given by a call of `require`. -/
def ofDeclarators (offset : Nat) : List Declarator → Option ImportSite
  | [] => none
  | d :: _ =>
    if d.code.touches offset then
      match d.value with
      | some (.call _ (some callee) (some argument)) =>
        if callee = requireName then
          some
            { importsText := d.name
              specifier := withoutQuotes argument.text
              inSpecifier := argument.touches offset }
        else none
      | _ => none
    else none

/-- The site of a statement, if the cursor is in it. -/
def ofStatement (text : String) (offset : Nat) : Stmt → Option ImportSite
  | .importing i => if i.code.touches offset then ofImport text 0 offset i else none
  | .declaration (.variableNames _ _ ds) => ofDeclarators offset ds
  | _ => none

/-- The site at a byte offset of a module. -/
def inModule (dialect : Dialect) (text : String) (offset : Nat) : Option ImportSite :=
  (Outline.read dialect text).statements.findSome? (ofStatement text offset)

/-- The import statements of a text. -/
def importsOf (dialect : Dialect) (text : String) : List ImportStmt :=
  (Outline.read dialect text).statements.filterMap fun
    | .importing i => some i
    | _ => none

/-- The site at a byte offset of a component file. -/
def inComponent (text : String) (offset : Nat) : Option ImportSite :=
  let found := (scripts text).findSome? fun block =>
    ((importsOf .tsx block.content).find? fun i =>
      (i.code.shift block.offset).surrounds offset).map fun i => (block.offset, i)
  found.bind fun (base, i) => ofImport text base offset i

/-! ## Unfinished imports -/

/-- What follows one blank or more. -/
def afterBlanks (cs : List Char) : Option (List Char) :=
  if (cs.head?.map isBlank).getD false then some (trimFront cs) else none

/-- What follows a word. -/
def afterWord (word : String) (cs : List Char) : Option (List Char) :=
  if word.toList.isPrefixOf cs then some (cs.drop word.length) else none

/-- The quotes around a specifier. -/
def isSpecifierQuote (c : Char) : Bool := c == '\x27' || c == '"'

/-- The specifier of `import from "…"` at the start of a text, and what follows. -/
def unfinishedHere (cs : List Char) : Option (List Char × List Char) := do
  let cs ← afterWord "import" cs
  let cs ← afterBlanks cs
  let cs ← afterWord "from" cs
  let cs ← afterBlanks cs
  guard ((cs.head?.map isSpecifierQuote).getD false)
  let cs := cs.drop 1
  let specifier := cs.takeWhile (!isSpecifierQuote ·)
  guard !specifier.isEmpty
  let rest := cs.drop specifier.length
  guard !rest.isEmpty
  return (specifier, rest.drop 1)

/-- The first unfinished import in a text. -/
def unfinished : List Char → Option ImportSite
  | [] => none
  | c :: cs =>
    match unfinishedHere (c :: cs) with
    | some (specifier, rest) =>
      some
        { importsText := String.ofList ((c :: cs).take (cs.length + 1 - rest.length))
          specifier := String.ofList specifier
          inSpecifier := false }
    | none => unfinished cs

/-! ## Documents -/

/-- The language identifier of component files. -/
def componentLanguage : String := "vue"

/-- The import at a position of a document in a language. -/
def find (text languageId : String) (p : Position) : Option ImportSite :=
  (byteOffset text p).bind fun offset =>
    let found :=
      if languageId = componentLanguage then inComponent text offset
      else inModule ((Dialect.ofLanguageId? languageId).getD .tsx) text offset
    found.or ((lineText text p.line).bind fun line => unfinished (trim line).toList)

end ImportSite

end ModuleAtlas
