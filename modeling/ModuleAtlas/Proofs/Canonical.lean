import ModuleAtlas.Proofs.Tables
import ModuleAtlas.Proofs.Termination

/-!
# One name for each file

Every specifier that means a file means it by a normal path, whatever way it is found, so two
specifiers that mean one file give one path. All resolved paths that an atlas goes by are of this
kind: the locations it keeps, the paths its tables are kept for and depend on, and the modules that
are linked inside another (`Sees.isNormal`). Only a path that the atlas is asked for may be spelled
otherwise. So no resolved file is seen under two names (`resolved_paths_canonical`).
-/

namespace ModuleAtlas

/-- A normal path has no dots among its components. -/
theorem Path.IsNormal.components {p : Path} (h : p.IsNormal) :
    .here ∉ p.components ∧ .parent ∉ p.components := by
  obtain ⟨names, isName, rfl⟩ := Path.isNormal_iff.mp h
  rw [Path.components_ofNames isName]
  constructor <;> simp [Path.nameOf]

namespace Atlas

open Draft (Mode)
open Resolution (Location Slashless)

variable {t : Tree}

/-! ## Dependencies -/

theorem upheld_keepsNormal (t : Tree) : Upheld t KeepsNormal (·.path.IsNormal) :=
  ⟨fun tables kept => kept.withTables tables, fun fewer kept => kept.forgets fewer,
    fun found kept => kept.resolve found⟩

/-- Everything that a module depends on has a normal path. -/
def NormalDependencies (_ : Mode) (_ : Path) (_ : String) (m : Linked) : Prop :=
  ∀ q ∈ m.dependencies, q.IsNormal

theorem inherited_normalDependencies (t : Tree) :
    Inherited t (·.path.IsNormal) NormalDependencies where
  respell := fun _ normal => normal
  plain := fun _ _ _ _ member => nomatch member
  linked := fun _ _ _ handed =>
    forall_dependencies handed (fun _ normal => normal) (fun normal => normal) _ _

/-! ## Keys -/

/-- The paths that tables are kept for have a property. -/
def KeepsFor (P : Path → Prop) (atlas : Atlas) : Prop := ∀ e ∈ atlas.tables.entries, P e.path

theorem KeepsFor.of_tables {P : Path → Prop} {atlas atlas' : Atlas} (kept : KeepsFor P atlas)
    (fewer : ∀ e ∈ atlas'.tables.entries, e ∈ atlas.tables.entries) : KeepsFor P atlas' :=
  fun e member => kept e (fewer e member)

theorem KeepsFor.finish {P : Path → Prop} {s : Session} {l : Location} (kept : KeepsFor P s.atlas)
    (own : P l.path) (mode : Mode) (content : String) (level : Level) (m : Option Linked) :
    KeepsFor P (s.finish l mode content level m).atlas := by
  intro e member
  rcases mem_keep member with ⟨member, -⟩ | ⟨-, -, -, -, isOwn | ⟨old, inside, isOld⟩⟩
  · exact kept e member
  · exact isOwn ▸ own
  · exact isOld ▸ kept old inside

/-- A load keeps tables for the path it is asked for and for normal paths. -/
theorem KeepsFor.loads {P : Path → Prop} (ofNormal : ∀ p, p.IsNormal → P p) {l : Location}
    {mode : Mode} {s s' : Session} {m : Option Linked} (h : Loads t l mode s m s') :
    KeepsNormal s.atlas → KeepsFor P s.atlas → P l.path → KeepsFor P s'.atlas := by
  refine load_induction (P := fun l _ s _ s' => KeepsNormal s.atlas → KeepsFor P s.atlas →
    P l.path → KeepsFor P s'.atlas) ?_ ?_ ?_ ?_ h
  · exact fun _ _ kept _ => kept
  · intro l mode s content m tables _ hit _ kept _
    exact kept.of_tables fun e member => TableCache.mem_of_get hit member
  · intro l mode s content tables nesting _ missed _ _ kept _
    exact kept.of_tables fun e member => TableCache.mem_of_get missed member
  · intro l mode s content tables level nesting m s' _ missed _ building normal kept own
    have begun : KeepsFor P { s.atlas with tables } :=
      kept.of_tables fun e member => TableCache.mem_of_get missed member
    have inside : KeepsNormal s'.atlas ∧ KeepsFor P s'.atlas := by
      refine building.keeps (I := fun s : Session => KeepsNormal s.atlas ∧ KeepsFor P s.atlas)
        (fun s kept => ⟨kept.1.withTables _, kept.2⟩) ?_ ⟨normal.withTables tables, begun⟩
      intro specifier mode s f s' answer kept
      obtain ⟨normal, kept⟩ := kept
      rcases answer with ⟨atlas, found, rfl, rfl⟩ | ⟨target, atlas, m, found, load, rfl⟩
      · have same := (resolve_cases found).2.1
        exact ⟨(normal.resolve found).1, kept.of_tables fun e member => same ▸ member⟩
      · have same := (resolve_cases found).2.1
        obtain ⟨normal', place⟩ := normal.resolve found
        exact ⟨normal'.loads load.1, load.2 normal' (kept.of_tables fun e member => same ▸ member)
          (ofNormal _ (place target rfl))⟩
    exact inside.2.finish own mode content level m

theorem KeepsFor.loadTable {P : Path → Prop} (ofNormal : ∀ p, p.IsNormal → P p) {atlas : Atlas}
    (kept : KeepsFor P atlas) (normal : KeepsNormal atlas) {l : Location} (own : P l.path)
    (mode : Mode) : KeepsFor P (atlas.loadTable t l mode).2 := by
  unfold Atlas.loadTable
  split
  · next loading => exact KeepsFor.loads ofNormal ⟨_, loading⟩ normal kept own
  · exact kept

/-- The paths that steps of a run ask for tables of. -/
def askedPaths (steps : List (Tree × Operation)) : List Path :=
  steps.filterMap fun step =>
    match step.2 with
    | .tableAt path _ => some path
    | _ => none

theorem KeepsFor.perform {P : Path → Prop} (ofNormal : ∀ p, p.IsNormal → P p) {atlas : Atlas}
    (kept : KeepsFor P atlas) (normal : KeepsNormal atlas) {operation : Operation}
    (asked : ∀ path mode, operation = .tableAt path mode → P path) :
    KeepsFor P (perform t operation atlas).2 := by
  cases query : operation.isQuery with
  | false =>
    have fewer := forgets_perform query t atlas
    exact kept.of_tables fun e member => fewer.tables member
  | true =>
    cases operation with
    | tableAt path mode => exact kept.loadTable ofNormal normal (asked path mode rfl) mode
    | resolve specifier file context =>
      have same : (atlas.resolve t specifier file context).2.tables = atlas.tables :=
        (resolve_cases rfl).2.1
      exact kept.of_tables fun e member => same ▸ member
    | importModule specifier file =>
      rw [Atlas.perform, importModule]
      cases found : atlas.resolve t specifier file none with
      | mk l atlas' =>
        have same := (resolve_cases found).2.1
        have kept' : KeepsFor P atlas' := kept.of_tables fun e member => same ▸ member
        obtain ⟨normal', place⟩ := normal.resolve found
        cases l with
        | none => exact kept'
        | some l => exact kept'.loadTable ofNormal normal' (ofNormal _ (place l rfl)) .full
    | _ => cases query

/-- A path that is normal or is one of the paths asked for. -/
def NormalOrAsked (asked : List Path) (p : Path) : Prop := p.IsNormal ∨ p ∈ asked

theorem keepsFor_run {project : Project} (slashless : Slashless project.extensions)
    (steps : List (Tree × Operation)) :
    KeepsFor (NormalOrAsked (askedPaths steps)) (run project steps) := by
  refine (run_keeps (I := fun atlas => KeepsNormal atlas ∧
    KeepsFor (NormalOrAsked (askedPaths steps)) atlas)
    ⟨⟨slashless, fun _ member => nomatch member⟩, fun _ member => nomatch member⟩ ?_).2
  intro step member atlas start
  obtain ⟨normal, kept⟩ := start
  refine ⟨normal.perform step.1 step.2, kept.perform (fun _ => .inl) normal ?_⟩
  intro path mode isTableAt
  exact .inr (List.mem_filterMap.mpr ⟨step, member, by rw [isTableAt]⟩)

/-! ## What an atlas sees -/

/-- The resolved paths that an atlas goes by while a load is watched: where locations kept are, the
paths that tables are kept for, unless the atlas was asked for them by a path that is not normal,
what tables depend on, and the modules that were linked inside another. -/
inductive Watched.Sees (asked : List Path) (w : Watched) : Path → Prop
  | location {e : LocationKey × Location} :
    e ∈ w.session.atlas.locations.entries → Sees asked w e.2.path
  | table {e : KeptTable} :
    e ∈ w.session.atlas.tables.entries → e.path.IsNormal ∨ e.path ∉ asked → Sees asked w e.path
  | dependency {e : KeptTable} {p : Path} :
    e ∈ w.session.atlas.tables.entries → p ∈ e.module.dependencies → Sees asked w p
  | nested {stack : List Path} {p : Path} :
    stack ∈ w.stackLog → p ∈ stack.tail → Sees asked w p

/-- All resolved paths that an atlas goes by are normal, after any questions on any trees. -/
theorem Watched.Sees.isNormal {project : Project} (slashless : Slashless project.extensions)
    {steps : List (Tree × Operation)} {l : Location} {mode : Mode} {m : Option Linked} {w : Watched}
    (h : Watches t l mode { session := { atlas := run project steps } } m w) {p : Path}
    (seen : w.Sees (l.path :: askedPaths steps) p) : p.IsNormal := by
  have normal := keepsNormal_run slashless steps
  have inOrder : InOrder t w := (InOrder.start normal).watches (.inl rfl) h
  cases seen with
  | location member => exact inOrder.normal.locations _ member
  | table member spelled =>
    have kept : KeepsFor (NormalOrAsked (l.path :: askedPaths steps)) w.session.atlas := by
      refine KeepsFor.loads (fun _ => .inl) h.loads normal ?_ (.inr List.mem_cons_self)
      exact fun e member => (keepsFor_run slashless steps e member).imp_right
        (List.mem_cons_of_mem _)
    exact spelled.elim id (kept _ member).resolve_right
  | dependency member inside =>
    have begun : AllKept NormalDependencies (run project steps) :=
      (run_keeps (I := fun atlas => KeepsNormal atlas ∧ AllKept NormalDependencies atlas)
        ⟨⟨slashless, fun _ member => nomatch member⟩, fun _ member => nomatch member⟩
        fun step _ atlas start =>
          (inherited_normalDependencies step.1).perform (upheld_keepsNormal step.1) step.2 atlas
            start).2
    have passes := (inherited_normalDependencies t).loads (upheld_keepsNormal t) h.loads normal
      begun
    exact passes.kept _ member p inside
  | nested logged inside => exact (inOrder.logged _ logged).normal p inside

/-- Whatever a specifier means is an absolute path without dots, in whatever way it is found: from
any file, in any package context, through any aliases and after any finds. So specifiers that mean
one file give one path, and of the resolved paths that an atlas goes by no two name one file. -/
theorem resolved_paths_canonical {project : Project} (slashless : Slashless project.extensions) :
    (∀ t a specifier file context finds l,
      (Resolution.resolve t project a specifier file context finds).1 = some l →
        l.path.isAbsolute = true ∧ .here ∉ l.path.components ∧ .parent ∉ l.path.components ∧
          l.path.normalize = l.path) ∧
    (∀ t a a' specifier specifier' file file' context context' finds finds' l l',
      (Resolution.resolve t project a specifier file context finds).1 = some l →
      (Resolution.resolve t project a' specifier' file' context' finds').1 = some l' →
      t.locate? l.path = t.locate? l'.path → l.path = l'.path) ∧
    ∀ steps t l mode m w, Watches t l mode { session := { atlas := run project steps } } m w →
      ∀ p q x, w.Sees (l.path :: askedPaths steps) p → w.Sees (l.path :: askedPaths steps) q →
        t.locate? p = some x → t.locate? q = some x → p = q := by
  refine ⟨?_, ?_, ?_⟩
  · intro t a specifier file context finds l found
    have normal := Resolution.resolve_isNormal slashless found
    exact ⟨normal.1, normal.components.1, normal.components.2, normal.2⟩
  · intro t a a' specifier specifier' file file' context context' finds finds' l l' found found'
      samePlace
    obtain ⟨content, there⟩ := Tree.isFile_iff.mp (Resolution.resolve_isFile found)
    obtain ⟨x, located, -⟩ := Tree.get?_eq_some there
    exact Tree.locate?_inj (Resolution.resolve_isNormal slashless found)
      (Resolution.resolve_isNormal slashless found') located (samePlace ▸ located)
  · intro steps t l mode m w watches p q x seen seen' located located'
    exact Tree.locate?_inj (seen.isNormal slashless watches) (seen'.isNormal slashless watches)
      located located'

/-- Aliases whose base and target are not worked out. -/
def windingAliases : Resolution.Aliases := { entries := [("~", "..//p/./")], base := ⟨"/p/lib/.."⟩ }

/-- A relative specifier and an alias mean one path. The outermost module may be spelled in any way,
and is seen by its one name where another module asks for it. -/
theorem resolved_paths_canonical_ring :
    Slashless sample.extensions ∧
    (∃ l l', (Resolution.resolve ringTree sample windingAliases "./b" ⟨"/p/a.ts"⟩ none {}).1 =
        some l ∧
      (Resolution.resolve ringTree sample windingAliases "~/b.ts" ⟨"/p/./a.ts"⟩
        (some ⟨"/q"⟩) {}).1 = some l' ∧ l.path = l'.path) ∧
    ∃ m w, Watches ringTree ⟨⟨"/p/../p/a.ts"⟩, none⟩ .full
        { session := { atlas := { project := sample } } } m w ∧
      w.Sees [⟨"/p/../p/a.ts"⟩] ⟨"/p/a.ts"⟩ ∧
      ∀ q, w.Sees [⟨"/p/../p/a.ts"⟩] q → ringTree.locate? q = some ["p", "a.ts"] →
        q = ⟨"/p/a.ts"⟩ := by
  have slashless : Slashless sample.extensions := by decide
  obtain ⟨-, onePath, oneName⟩ := resolved_paths_canonical slashless
  refine ⟨slashless, ⟨⟨⟨"/p/b.ts"⟩, none⟩, ⟨⟨"/p/b.ts"⟩, some ⟨"/q"⟩⟩, ?_⟩, ?_⟩
  · have found : (Resolution.resolve ringTree sample windingAliases "./b" ⟨"/p/a.ts"⟩ none {}).1 =
        some ⟨⟨"/p/b.ts"⟩, none⟩ := by decide +kernel
    have found' : (Resolution.resolve ringTree sample windingAliases "~/b.ts" ⟨"/p/./a.ts"⟩
        (some ⟨"/q"⟩) {}).1 = some ⟨⟨"/p/b.ts"⟩, some ⟨"/q"⟩⟩ := by decide +kernel
    exact ⟨found, found', onePath _ _ _ _ _ _ _ _ _ _ _ _ _ found found' rfl⟩
  · have nested : (watch ringTree 4 ⟨⟨"/p/../p/a.ts"⟩, none⟩ .full
        { session := { atlas := { project := sample } } }).map (·.2.stackLog) =
          some [[⟨"/p/../p/a.ts"⟩], [⟨"/p/../p/a.ts"⟩, ⟨"/p/b.ts"⟩],
            [⟨"/p/../p/a.ts"⟩, ⟨"/p/b.ts"⟩, ⟨"/p/a.ts"⟩]] := by decide +kernel
    have located : ringTree.locate? ⟨"/p/a.ts"⟩ = some ["p", "a.ts"] := by decide +kernel
    obtain ⟨⟨m, w⟩, watching, logged⟩ := Option.map_eq_some_iff.mp nested
    have inside : [⟨"/p/../p/a.ts"⟩, ⟨"/p/b.ts"⟩, ⟨"/p/a.ts"⟩] ∈ w.stackLog := by
      rw [logged]
      decide
    have seen : w.Sees [⟨"/p/../p/a.ts"⟩] ⟨"/p/a.ts"⟩ := .nested inside (by decide)
    refine ⟨m, w, ⟨4, watching⟩, seen, fun q seen' located' => ?_⟩
    exact oneName [] _ _ _ _ w ⟨4, watching⟩ _ _ _ seen' seen located' located

end Atlas

end ModuleAtlas
