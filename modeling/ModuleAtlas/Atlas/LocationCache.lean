import ModuleAtlas.Resolution.Location

/-!
# Resolutions kept

Which file a specifier was found to mean, by specifier, importing file and package context. Only
finds are kept: what is not found is looked for again.
-/

namespace ModuleAtlas.Atlas

open Resolution (Location sameContext)

/-- What a resolution depends on. -/
structure LocationKey where
  specifier : String
  file : Path
  context : Option Path
deriving DecidableEq, Repr

/-- Whether two keys ask the same. -/
def LocationKey.same (k l : LocationKey) : Bool :=
  k.specifier == l.specifier && k.file.same l.file && sameContext k.context l.context

/-- The resolutions kept, at most one for each key, and how often they served. -/
structure LocationCache where
  entries : List (LocationKey × Location) := []
  hits : Nat := 0
  misses : Nat := 0
deriving DecidableEq, Repr

namespace LocationCache

/-- The location kept for a key. -/
def find? (c : LocationCache) (k : LocationKey) : Option Location :=
  (c.entries.find? fun e => e.1.same k).map (·.2)

/-- The location kept for a key, counted as a hit or a miss. -/
def get (c : LocationCache) (k : LocationKey) : Option Location × LocationCache :=
  match c.find? k with
  | some l => (some l, { c with hits := c.hits + 1 })
  | none => (none, { c with misses := c.misses + 1 })

/-- Keeps a location for a key. -/
def insert (c : LocationCache) (k : LocationKey) (l : Location) : LocationCache :=
  if (c.find? k).isSome then
    { c with entries := c.entries.map fun e => if e.1.same k then (e.1, l) else e }
  else { c with entries := c.entries ++ [(k, l)] }

/-- Drops the location of a key. -/
def remove (c : LocationCache) (k : LocationKey) : LocationCache :=
  { c with entries := c.entries.filter fun e => !e.1.same k }

/-- Drops all locations. -/
def clear (c : LocationCache) : LocationCache := { c with entries := [] }

end LocationCache

end ModuleAtlas.Atlas
