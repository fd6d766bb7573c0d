import ModuleAtlas.Tree.Basic

/-!
# Finding the file of a path

A path in a specifier may leave out the extension of its file, or name a directory with an index
file.
-/

namespace ModuleAtlas.Resolution

/-- The paths a path may stand for, in the order in which they are tried: itself, itself with each
extension, the index file with each extension inside it. -/
def candidates (extensions : List String) (p : Path) : List Path :=
  p :: (extensions.map p.append ++ extensions.map fun e => p / ("index" ++ e))

/-- The first file a path may stand for. -/
def fileFor (t : Tree) (extensions : List String) (p : Path) : Option Path :=
  (candidates extensions p).find? t.isFile

end ModuleAtlas.Resolution
