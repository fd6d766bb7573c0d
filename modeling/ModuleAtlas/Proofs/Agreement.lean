import ModuleAtlas.Proofs.Standing
import ModuleAtlas.Proofs.Termination

/-!
# Atlases that agree on the files of a module

Loading a module looks up tables of the module and of its dependencies, and of no other file. So two
atlases that resolve alike and keep the same tables for these files load it alike (`AgreeOn.load`),
whatever else they keep. In particular an atlas that keeps nothing about resolving and no table of
the files that a module comes from answers as a new one does (`loadTable_of_unkept`).
-/

namespace ModuleAtlas.Atlas

open Draft (Mode)
open Resolution (Location Slashless)

/-! ## Resolving -/

/-- Two atlases that go by the same project, aliases, packages and locations. -/
structure ResolveAlike (t : Tree) (a b : Atlas) : Prop where
  project : a.project = b.project
  aliases : a.aliasesIn t = b.aliasesIn t
  finds : a.finds = b.finds
  locations : a.locations.entries = b.locations.entries

theorem LocationCache.find?_of_entries {c c' : LocationCache} (same : c.entries = c'.entries)
    (k : LocationKey) : c.find? k = c'.find? k := by
  rw [find?, find?, same]

theorem LocationCache.insert_of_entries {c c' : LocationCache} (same : c.entries = c'.entries)
    (k : LocationKey) (l : Location) : (c.insert k l).entries = (c'.insert k l).entries := by
  rw [insert, insert, find?_of_entries same, same]
  split <;> rfl

section Resolve

variable {t : Tree} {a b : Atlas}

theorem ResolveAlike.keptLocation (h : ResolveAlike t a b) (k : LocationKey) :
    (a.keptLocation t k).1 = (b.keptLocation t k).1 ∧
      ResolveAlike t (a.keptLocation t k).2 (b.keptLocation t k).2 := by
  unfold Atlas.keptLocation LocationCache.get
  rw [LocationCache.find?_of_entries h.locations]
  cases b.locations.find? k with
  | none => exact ⟨rfl, h.project, h.aliases, h.finds, h.locations⟩
  | some l =>
    dsimp only
    split
    · exact ⟨rfl, h.project, h.aliases, h.finds, h.locations⟩
    · refine ⟨rfl, h.project, h.aliases, h.finds, ?_⟩
      exact congrArg (List.filter _) h.locations

/-- They find the same, and go by the same afterwards. -/
theorem ResolveAlike.resolve (h : ResolveAlike t a b) (specifier : String) (file : Path)
    (context : Option Path) :
    (a.resolve t specifier file context).1 = (b.resolve t specifier file context).1 ∧
      ResolveAlike t (a.resolve t specifier file context).2
        (b.resolve t specifier file context).2 := by
  obtain ⟨found, alike⟩ := h.keptLocation ⟨specifier, file, context⟩
  unfold Atlas.resolve
  dsimp only
  cases keptA : a.keptLocation t ⟨specifier, file, context⟩ with
  | mk r a₁ =>
    cases keptB : b.keptLocation t ⟨specifier, file, context⟩ with
    | mk r' b₁ =>
      rw [keptA, keptB] at found alike
      dsimp only at found alike
      subst found
      cases r with
      | some l => exact ⟨rfl, alike⟩
      | none =>
        dsimp only
        rw [getAliases_eq, getAliases_eq]
        dsimp only
        rw [alike.aliases, alike.project, alike.finds]
        split
        · exact ⟨rfl, rfl, rfl, rfl, LocationCache.insert_of_entries alike.locations _ _⟩
        · exact ⟨rfl, rfl, rfl, rfl, alike.locations⟩

end Resolve

/-! ## Loading -/

/-- Two sessions that go by the same in everything but the tables of other files. -/
structure AgreeOn (t : Tree) (files : List Path) (s u : Session) : Prop where
  nesting : s.nesting = u.nesting
  atlas : ResolveAlike t s.atlas u.atlas
  tables : ∀ p mode, among files p = true →
    s.atlas.tables.find? p mode = u.atlas.tables.find? p mode

/-- Files that hold a module and all it was linked against. -/
def Contain (files : List Path) (own : Path) (m : Option Linked) : Prop :=
  among files own = true ∧ ∀ linked, m = some linked → ∀ d ∈ linked.dependencies,
    among files d = true

section Load

variable {t : Tree} {files : List Path} {s u : Session} {l : Location} {mode : Mode}
  {content : String}

theorem AgreeOn.counted (h : AgreeOn t files s u) : AgreeOn t files s.counted u.counted :=
  ⟨h.nesting, ⟨h.atlas.project, h.atlas.aliases, h.atlas.finds, h.atlas.locations⟩, h.tables⟩

theorem AgreeOn.withNesting (h : AgreeOn t files s u) (nesting : Nesting) :
    AgreeOn t files { s with nesting } { u with nesting } :=
  ⟨rfl, h.atlas, h.tables⟩

theorem AgreeOn.get (h : AgreeOn t files s u) (inside : among files l.path = true)
    {r : Option Linked} {tables : TableCache}
    (got : s.atlas.tables.get l.path mode content = (r, tables)) :
    ∃ tables', u.atlas.tables.get l.path mode content = (r, tables') ∧
      AgreeOn t files (s.withTables tables) (u.withTables tables') := by
  have own := h.tables l.path mode inside
  have served : (u.atlas.tables.get l.path mode content).1 = r := by
    rw [TableCache.get_fst, ← own, ← TableCache.get_fst, got]
  refine ⟨_, Prod.ext served rfl, h.nesting,
    ⟨h.atlas.project, h.atlas.aliases, h.atlas.finds, h.atlas.locations⟩, fun p mode' member => ?_⟩
  have left := TableCache.find?_get s.atlas.tables l.path mode content p mode'
  rw [got] at left
  dsimp only [Session.withTables]
  rw [left, TableCache.find?_get, own, h.tables p mode' member]

theorem AgreeOn.finish (h : AgreeOn t files s u) (inside : among files l.path = true) (mode : Mode)
    (content : String) (level : Level) (m : Option Linked) :
    AgreeOn t files (s.finish l mode content level m) (u.finish l mode content level m) := by
  have own := h.tables l.path mode inside
  unfold Session.finish
  rw [h.nesting]
  unfold keep
  split
  · split
    · refine ⟨rfl, ⟨h.atlas.project, h.atlas.aliases, h.atlas.finds, h.atlas.locations⟩,
        fun p mode' member => ?_⟩
      dsimp only
      rw [TableCache.find?_insert, TableCache.find?_insert, own, h.tables p mode' member]
    · exact ⟨rfl, h.atlas, h.tables⟩
  · exact ⟨rfl, h.atlas, h.tables⟩

theorem contain_of_fetched {target : Location} {m : Option Linked}
    (h : ∀ d ∈ (fetched target m).dependencies, among files d = true) :
    Contain files target.path m := by
  cases m with
  | none => exact ⟨h target.path List.mem_cons_self, fun _ h => nomatch h⟩
  | some m =>
    refine ⟨h target.path List.mem_cons_self, ?_⟩
    rintro _ ⟨⟩ d member
    exact h d (List.mem_cons_of_mem _ member)

/-- All that a module asked for is among its files. -/
theorem Contain.answers {own : Path} {d : Draft} {fs : List Fetched}
    (h : Contain files own (some (linkedWith own d fs))) :
    ∀ f ∈ fs, ∀ p ∈ f.dependencies, among files p = true := by
  intro f member p inside
  by_cases same : p.same own = true
  · rw [among_congr same]
    exact h.1
  · have depends : among (dependencySet own (pathsOf fs)) p = true := by
      rw [among_dependencySet]
      refine ⟨among_iff.mpr ⟨p, List.mem_flatMap.mpr ⟨f, member, inside⟩, Path.same_refl p⟩, ?_⟩
      rwa [Bool.not_eq_true] at same
    obtain ⟨q, isDependency, alike⟩ := among_iff.mp depends
    rw [← among_congr alike]
    exact h.2 _ rfl q isDependency

/-- Requests get the same answers where loads give the same modules. -/
theorem AgreeOn.fetch (load : Load)
    (loads : ∀ {l mode s m s' u}, load l mode s = some (m, s') → Contain files l.path m →
      AgreeOn t files s u → ∃ u', load l mode u = some (m, u') ∧ AgreeOn t files s' u')
    {specifier : String} {f : Fetched} {s' : Session}
    (h : (fetch t load l).Gives specifier mode s f s')
    (inside : ∀ d ∈ f.dependencies, among files d = true) (agree : AgreeOn t files s u) :
    ∃ u', (Atlas.fetch t load l).Gives specifier mode u f u' ∧ AgreeOn t files s' u' := by
  obtain ⟨sameTarget, alike⟩ := agree.atlas.resolve specifier l.path l.context
  unfold Fetch.Gives Atlas.fetch at h ⊢
  cases foundS : s.atlas.resolve t specifier l.path l.context with
  | mk target atlas =>
    cases foundU : u.atlas.resolve t specifier l.path l.context with
    | mk target' atlas' =>
      have tables := (resolve_cases foundS).2.1
      have tables' := (resolve_cases foundU).2.1
      rw [foundS, foundU] at sameTarget alike
      dsimp only at sameTarget alike
      subst sameTarget
      have agree' : AgreeOn t files { s with atlas } { u with atlas := atlas' } := by
        refine ⟨agree.nesting, alike, fun p mode member => ?_⟩
        rw [tables, tables', agree.tables p mode member]
      rw [foundS] at h
      cases target with
      | none =>
        cases h
        exact ⟨_, rfl, agree'⟩
      | some target =>
        obtain ⟨⟨m, s₁⟩, loading, whole⟩ := Option.map_eq_some_iff.mp h
        cases whole
        obtain ⟨u', loading', related⟩ := loads loading (contain_of_fetched inside) agree'
        exact ⟨u', Option.map_eq_some_iff.mpr ⟨_, loading', rfl⟩, related⟩

/-- A module is loaded alike where its files have the same tables. -/
theorem AgreeOn.load {fuel : Nat} {m : Option Linked} {s' : Session}
    (h : load t fuel l mode s = some (m, s')) (contain : Contain files l.path m)
    (agree : AgreeOn t files s u) :
    ∃ u', Atlas.load t fuel l mode u = some (m, u') ∧ AgreeOn t files s' u' := by
  induction fuel generalizing l mode s m s' u with
  | zero => cases h
  | succ fuel ih =>
    simp only [load_succ_iff] at h ⊢
    cases h with
    | unreadable unread => exact ⟨u, .unreadable unread, agree⟩
    | hit read kept =>
      obtain ⟨tables', kept', agree⟩ := agree.get contain.1 kept
      exact ⟨_, .hit read kept', agree⟩
    | cut read missed pushed =>
      obtain ⟨tables', missed', begun⟩ := agree.get contain.1 missed
      rw [agree.nesting] at pushed
      exact ⟨_, .cut read missed' pushed, begun.withNesting _⟩
    | built read missed pushed building =>
      obtain ⟨tables', missed', begun⟩ := agree.get contain.1 missed
      rw [agree.nesting] at pushed
      obtain ⟨u₁, building', agree⟩ := building.lockstep (fun agree => agree.counted)
        (fun gives inside agree => AgreeOn.fetch (Atlas.load t fuel) ih gives inside agree)
        (fun _ _ whole => Contain.answers (whole ▸ contain)) (begun.withNesting _)
      exact ⟨_, .built read missed' pushed building', agree.finish contain.1 ..⟩

/-- The files that the module at a location comes from, as a new atlas loads it: its own and those
it is linked against. -/
def filesOf (t : Tree) (project : Project) (l : Location) (mode : Mode) : List Path :=
  match load t (loadDepth t project) l mode { atlas := { project } } with
  | some (some m, _) => l.path :: m.dependencies
  | _ => [l.path]

theorem contain_filesOf {project : Project} {m : Option Linked} {s' : Session}
    (h : load t (loadDepth t project) l mode { atlas := { project } } = some (m, s')) :
    Contain (filesOf t project l mode) l.path m := by
  rw [filesOf, h]
  cases m with
  | none => exact ⟨among_iff.mpr ⟨l.path, by simp, Path.same_refl _⟩, fun _ h => nomatch h⟩
  | some m =>
    refine ⟨among_iff.mpr ⟨l.path, by simp, Path.same_refl _⟩, ?_⟩
    rintro _ ⟨⟩ d member
    exact among_iff.mpr ⟨d, List.mem_cons_of_mem _ member, Path.same_refl d⟩

/-- An atlas that resolves as a new one, and has no table of the files that a module comes from,
answers for the module as a new one. -/
theorem loadTable_of_unkept {project : Project} {atlas : Atlas}
    (slashless : Slashless project.extensions) (alike : ResolveAlike t { project } atlas)
    (unkept : ∀ p ∈ filesOf t project l mode, ∀ mode', atlas.tables.find? p mode' = none) :
    (atlas.loadTable t l mode).1 = (({ project } : Atlas).loadTable t l mode).1 := by
  have normal : KeepsNormal { project } := ⟨slashless, fun e member => nomatch member⟩
  obtain ⟨m, s', loading⟩ := exists_load normal t l mode
  have agree : AgreeOn t (filesOf t project l mode) { atlas := { project } } { atlas } := by
    refine ⟨rfl, alike, fun p mode' member => ?_⟩
    obtain ⟨q, isFile, same⟩ := among_iff.mp member
    rw [← TableCache.find?_sameKey ⟨same, rfl⟩ atlas.tables, unkept q isFile mode']
    rfl
  obtain ⟨u', loading', -⟩ := agree.load loading (contain_filesOf loading)
  rw [loadTable, loadTable, loading, ← alike.project, loading']

end Load

end ModuleAtlas.Atlas
