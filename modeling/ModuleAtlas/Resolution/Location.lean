import ModuleAtlas.Project
import ModuleAtlas.Resolution.Alias
import ModuleAtlas.Resolution.Manifest
import ModuleAtlas.Resolution.PackageSearch
import ModuleAtlas.Resolution.Candidates

/-!
# From specifiers to files

A relative specifier, or one that an alias expands, is the path of a file. A package specifier leads
to a package, whose manifest says which of its files is meant.
-/

namespace ModuleAtlas.Resolution

/-- A file that a specifier means. Files of packages carry the directory in which the package's
own imports are looked for first. -/
structure Location where
  path : Path
  context : Option Path
deriving DecidableEq, Repr

/-- A location as JSON. -/
def Location.toJson (l : Location) : Json.Value :=
  .object (("absolute_path", .string l.path.text) ::
    Json.fieldIfSet "package_node_modules" (l.context.map (·.text)))

/-! ## Aliases of a project -/

/-- The configuration files that may hold aliases, in order. -/
def aliasFiles : List String := ["tsconfig.json", "jsconfig.json"]

/-- The aliases of a project: those of the first configuration file that is there. One that cannot
be read gives none. -/
def projectAliases (t : Tree) (root : Path) : Aliases :=
  match (aliasFiles.map (root / ·)).find? t.has with
  | none => { base := root }
  | some file => ((t.read? file).bind (Aliases.parse? · root)).getD { base := root }

/-! ## Manifests -/

/-- Why the manifest of a package cannot be used. -/
inductive ManifestError where
  | unreadable
  | malformed
deriving DecidableEq, Repr

/-- The manifest of a package directory. -/
def loadManifest (t : Tree) (dir : Path) : Except ManifestError Manifest :=
  match t.read? (dir / manifestName) with
  | none => .error .unreadable
  | some text =>
    match Manifest.parse? text with
    | some m => .ok m
    | none => .error .malformed

/-- The file of a package that its main entry means. -/
def mainFile (t : Tree) (extensions : List String) (dir : Path) (m : Manifest) : Option Path :=
  m.ownEntry.bind fun entry => fileFor t extensions (dir / entry).normalize

/-- The file of a package that an exported path inside it means: its types, else its declarations
among the built files. -/
def exportedEntry (t : Tree) (dir : Path) (m : Manifest) (subpath : String) : Option Path :=
  match m.typesAt subpath with
  | some types => some (dir / types)
  | none =>
    let built := dir / "dist" / (subpath ++ ".d.ts")
    if t.isFile built then some built else none

/-- The file of a package that a specifier means, with the path inside the package behind its name,
if any. A path that leads nowhere means the main entry. -/
def entryFile (t : Tree) (extensions : List String) (dir : Path) (m : Manifest)
    (subpath : Option String) : Option Path :=
  match subpath with
  | none => mainFile t extensions dir m
  | some sub =>
    if m.hasSubpath sub then
      match exportedEntry t dir m sub with
      | some entry => fileFor t extensions entry.normalize
      | none => mainFile t extensions dir m
    else
      let declarations := dir / (sub ++ ".d.ts")
      if t.isFile declarations then some declarations.normalize
      else mainFile t extensions dir m

/-! ## Specifiers -/

/-- The path that a relative specifier means, seen from a file. -/
def relativePath (a : Aliases) (file : Path) (specifier : String) : Option Path :=
  match a.expand specifier with
  | some expanded => some (a.base / expanded)
  | none =>
    if (⟨specifier⟩ : Path).isAbsolute then some ⟨specifier⟩
    else file.parent?.map (· / specifier)

/-- The file that a relative specifier means. -/
def relativeFile (t : Tree) (project : Project) (a : Aliases) (file : Path) (specifier : String) :
    Option Path :=
  (relativePath a file specifier).bind fun p => fileFor t project.extensions p.normalize

/-- What follows the name of a package in a specifier, without leading slashes; none when nothing
does. -/
def subpathOf (specifier name : String) : Option String :=
  if name.toList.isPrefixOf specifier.toList then
    let rest := (specifier.toList.drop name.length).dropWhile (· == '/')
    if rest.isEmpty then none else some (String.ofList rest)
  else none

/-- The file of a package that a specifier means. -/
def entryOf (t : Tree) (project : Project) (specifier : String) (p : Package) : Option Location :=
  match loadManifest t p.dir with
  | .error _ => none
  | .ok m =>
    (entryFile t project.extensions p.dir m (subpathOf specifier p.name)).map fun path =>
      ⟨path, some (p.dir / packagesName)⟩

/-- The file that a specifier means, seen from a file in a package context. -/
def resolve (t : Tree) (project : Project) (a : Aliases) (specifier : String) (file : Path)
    (context : Option Path) (m : Finds) : Option Location × Finds :=
  if specifier.isEmpty then (none, m)
  else
    match LookupKind.of a specifier with
    | .relative => ((relativeFile t project a file specifier).map (⟨·, context⟩), m)
    | .package =>
      let (found, m) := findPackage t ⟨project.root, context⟩ file specifier m
      (found.bind (entryOf t project specifier), m)

end ModuleAtlas.Resolution
