import ModuleAtlas.Command.Arguments
import ModuleAtlas.Atlas.Basic
import ModuleAtlas.ImportSite
import ModuleAtlas.Symbols.Codec

/-!
# Running a command

What a command line prints on a file tree, and how it fails.
-/

namespace ModuleAtlas.Command

open Symbols (Export Table)
open Text (Position)

/-- Why a command fails. -/
inductive Failure where
  | rootNotFound (root : String)
  | unresolved (specifier : String) (file : Path)
  | noModule (target : String)
  | unreadable (file : Path)
  | noImport (file : Path) (p : Position)
deriving DecidableEq, Repr

/-- The wording of a failure. -/
def Failure.message : Failure → String
  | rootNotFound root => "project root " ++ root ++ " not found"
  | unresolved specifier file => "Cannot resolve " ++ specifier ++ " from " ++ file.text
  | noModule target => "No module found for " ++ target
  | unreadable file => "Failed to read " ++ file.text
  | noImport file p =>
    "No import at " ++ file.text ++ ":" ++ toString p.line ++ ":" ++ toString p.character

/-! ## Output -/

/-- What a signature adds to the line of an export. -/
def signatureText (s : Symbols.Signature) : String :=
  " (" ++ s.params ++ ")" ++ if s.returnType.isEmpty then "" else ": " ++ s.returnType

/-- The line of an export. -/
def exportLine (e : Export) : String :=
  e.outerName ++ " [" ++ String.intercalate ", " e.tags ++ "]" ++
    (e.declaration.signature?.map signatureText).getD ""

/-- The lines of a module's exports. -/
def tableLines (json : Bool) (t : Table) : List String :=
  if json then [Json.pretty (.array (t.exports.map Export.toJson))]
  else if t.exports.isEmpty then ["No exports"]
  else
    ("Exports (" ++ toString t.exports.length ++ "):") ::
      t.exports.map fun e => "  " ++ exportLine e

/-- The lines of a location. -/
def locationLines (json : Bool) (l : Resolution.Location) : List String :=
  if json then [Json.pretty l.toJson]
  else l.path.text :: l.context.toList.map fun c => "  package context: " ++ c.text

/-- The lines of an import. -/
def siteLines (json : Bool) (s : ImportSite) : List String :=
  if json then [Json.pretty s.toJson]
  else
    ["Specifier: " ++ s.specifier, "Imports: " ++ Text.trim s.importsText,
      "Cursor in specifier: " ++ if s.inSpecifier then "true" else "false"]

/-- The language identifier of a file by its extension. -/
def languageIdOf (file : Path) : String :=
  match file.extension?.getD "" with
  | "ts" | "mts" | "cts" => "typescript"
  | "tsx" => "typescriptreact"
  | "jsx" => "javascriptreact"
  | "vue" => "vue"
  | _ => "javascript"

/-! ## Commands -/

/-- The lines a request prints, run in a working directory. -/
def answer (t : Tree) (cwd : Path) (json : Bool) (atlas : Atlas) :
    Request → Except Failure (List String)
  | .resolve specifier file =>
    let file := cwd / file
    match (atlas.resolve t specifier file none).1 with
    | some l => .ok (locationLines json l)
    | none => .error (.unresolved specifier file)
  | .exports target file =>
    let found := match file with
      | some file => (atlas.importModule t target (cwd / file)).1
      | none => (atlas.tableAt t (cwd / target) .full).1
    match found with
    | some table => .ok (tableLines json table)
    | none => .error (.noModule target)
  | .importAt file line character languageId withExports =>
    let file := cwd / file
    let p : Position := ⟨line, character⟩
    match t.read? file with
    | none => .error (.unreadable file)
    | some text =>
      match ImportSite.find text (languageId.getD (languageIdOf file)) p with
      | none => .error (.noImport file p)
      | some site =>
        let exported := match (atlas.importModule t site.specifier file).1 with
          | some table => tableLines json table
          | none => ["Unresolved: " ++ site.specifier]
        .ok (siteLines json site ++ if withExports then exported else [])

/-- The lines a command prints, run in a working directory. -/
def run (t : Tree) (cwd : Path) (o : Options) (r : Request) : Except Failure (List String) :=
  match t.canonical? (cwd / o.root) with
  | none => .error (.rootNotFound o.root)
  | some root => answer t cwd (o.format == "json") { project := .ofRoot root o.extensions } r

end ModuleAtlas.Command
