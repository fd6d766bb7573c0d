import ModuleAtlas.Symbols.Declaration

/-!
# Symbol tables

The table of a module: what it exports, what it imports, and what it declares without exporting.
-/

namespace ModuleAtlas.Symbols

/-- The name under which a default export is asked for. -/
def defaultName : String := "default"

/-- One exported symbol: the name it has in its module, the name it is exported under, if another,
whether it is the default export, its declaration, and the sources of the types its signature
mentions. -/
structure Export where
  name : String
  newName : Option String := none
  isDefault : Bool := false
  declaration : Declaration
  typeSlices : List String := []
deriving DecidableEq, Repr

namespace Export

/-- The symbol exported under another name; under the name `default` it is the default export. -/
def renamed (e : Export) (name : String) : Export :=
  { e with newName := some name, isDefault := e.isDefault || name == defaultName }

/-- The symbol as the default export. -/
def markedDefault (e : Export) : Export := { e with isDefault := true }

/-- The name importers see. The new name `default` is none: such an entry is reached as the
default export. -/
def outerName (e : Export) : String :=
  match e.newName with
  | some new => if new = defaultName then e.name else new
  | none => e.name

/-- The kind of the symbol, and whether it is the default export. -/
def tags (e : Export) : List String :=
  e.declaration.kind.name :: if e.isDefault then [defaultName] else []

end Export

/-- One imported binding: its name here, the name it has where it comes from, whether it is that
module's default export or the whole module, and the specifier of the module. -/
structure Import where
  localName : String
  importedName : Option String := none
  isDefault : Bool := false
  isNamespace : Bool := false
  source : String
deriving DecidableEq, Repr

/-- The name to look up in the module a binding comes from. -/
def Import.soughtName (i : Import) : String := i.importedName.getD i.localName

/-- A declaration that is not exported. -/
structure Local where
  name : String
  declaration : Declaration
deriving DecidableEq, Repr

/-- The symbol table of a module. -/
structure Table where
  exports : List Export := []
  imports : List Import := []
  locals : List Local := []
deriving DecidableEq, Repr

namespace Table

/-- The first export that importers see under a name. -/
def named? (t : Table) (name : String) : Option Export :=
  t.exports.find? (·.outerName == name)

/-- The first default export. -/
def default? (t : Table) : Option Export := t.exports.find? (·.isDefault)

/-- The exports that are not the default. -/
def nonDefault (t : Table) : List Export := t.exports.filter (!·.isDefault)

/-- The names importers see. -/
def outerNames (t : Table) : List String := t.exports.map (·.outerName)

/-- Whether the table has nothing in it. -/
def isEmpty (t : Table) : Bool := t.exports.isEmpty && t.imports.isEmpty && t.locals.isEmpty

/-- What a name asks of a module: `default` the default export, any other the export importers
see under it. -/
def lookup (t : Table) (name : String) : Option Export :=
  if name = defaultName then t.default? else t.named? name

end Table

end ModuleAtlas.Symbols
