import ModuleAtlas.Path.Basic

/-!
# Projects

The root of a project and the extensions that are tried for specifiers without one; and which
changed files matter to a project.
-/

namespace ModuleAtlas

/-- The root of a project and the extensions tried, in order, each with its dot. -/
structure Project where
  root : Path
  extensions : List String
deriving DecidableEq, Repr

namespace Project

/-- The extensions tried when none are given. -/
def usualExtensions : List String := [".ts", ".js", ".tsx", ".jsx"]

/-- An extension with its dot. -/
def dotted (extension : String) : String :=
  if extension.toList.head? = some '.' then extension else "." ++ extension

/-- The project of a root with the given extensions; none given means the usual ones. -/
def ofRoot (root : Path) (extensions : List String) : Project :=
  { root
    extensions := if extensions.isEmpty then usualExtensions else extensions.map dotted }

end Project

/-- The files that configure resolution, whatever the extensions. -/
def resolutionFiles : List String := ["tsconfig.json", "jsconfig.json", "package.json", "lock.yaml"]

/-- The extensions that are always read. -/
def fixedExtensions : List String := ["json", "vue", "mts", "cts", "mjs", "cjs"]

/-- Whether a change of a file can affect what is resolved or read. -/
def affectsAnswers (path : Path) (extensions : List String) : Bool :=
  resolutionFiles.contains (path.fileName?.getD "") ||
    match path.extension? with
    | some e =>
      fixedExtensions.contains e ||
        extensions.any fun known => String.ofList (known.toList.dropWhile (· == '.')) == e
    | none => false

end ModuleAtlas
