import ModuleAtlas.Draft.Facts
import ModuleAtlas.Json.Printer
import ModuleAtlas.Json.Reader
import ModuleAtlas.Path.Basic
import ModuleAtlas.Syntax.Program
import ModuleAtlas.Text.Script

/-!
# Drafts of files

How the text of a file becomes a draft: data files give one export per key, component files give
what their script blocks say, all other files are read in the dialect of their extension.
-/

namespace ModuleAtlas.Draft

open Symbols Syntax

/-- A file whose extension belongs to no dialect. -/
structure UnsupportedLanguage where
  path : Path
deriving DecidableEq, Repr

/-- The wording of the failure. -/
def UnsupportedLanguage.message (e : UnsupportedLanguage) : String :=
  "Language not supported: " ++ e.path.text

/-- The dialect a file is read in. -/
def dialectOf (path : Path) : Except UnsupportedLanguage Dialect :=
  match path.extension?.bind Dialect.ofExtension? with
  | some dialect => .ok dialect
  | none => .error ⟨path⟩

/-- The extension of data files. -/
def dataExtension : String := "json"

/-- The extension of component files. -/
def componentExtension : String := "vue"

/-- The draft of a data file: one export for each key of its object. Anything else exports
nothing. -/
def ofData (content : String) : Draft :=
  match (Json.parse? content).bind Json.Value.object? with
  | some fields =>
    { slots := fields.map fun (key, v) =>
        .entry { name := key, declaration := .json (Json.pretty v) } }
  | none => {}

/-- The code of a file: of a component file, its script blocks. -/
def codeOf (path : Path) (content : String) : String :=
  if path.extension? = some componentExtension then Text.joinedScripts content else content

/-- The draft of a file. -/
def ofFile (mode : Mode) (path : Path) (content : String) : Except UnsupportedLanguage Draft :=
  if path.extension? = some dataExtension then .ok (ofData content)
  else do
    let dialect ← dialectOf path
    return ofOutline mode (Outline.read dialect (codeOf path content))

end ModuleAtlas.Draft
