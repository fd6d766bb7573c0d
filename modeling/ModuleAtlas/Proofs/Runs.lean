import ModuleAtlas.Proofs.Watch

/-!
# Runs of an atlas

What an atlas can be asked, and the atlas that a list of questions leaves. Between two questions
any file may change: each comes with the tree it is asked on. What every question keeps holds of
every atlas there is (`run_keeps`), and a question keeps what resolving, loading and forgetting keep
(`perform_keeps`).
-/

namespace ModuleAtlas.Atlas

open Draft (Mode)
open Resolution (Location)
open Symbols (Table)

/-- What an atlas can be asked to do. -/
inductive Operation where
  | resolve (specifier : String) (file : Path) (context : Option Path)
  | tableAt (path : Path) (mode : Mode)
  | importModule (specifier : String) (file : Path)
  | invalidate (path : Path)
  | invalidateAllOf (paths : List Path)
  | forgetAliases
  | clear
deriving DecidableEq, Repr

/-- Whether an operation asks for something; the others only forget. -/
def Operation.isQuery : Operation → Bool
  | .resolve .. | .tableAt .. | .importModule .. => true
  | _ => false

/-- What an operation answers. -/
inductive Answer where
  | location (l : Option Location)
  | table (t : Option Table)
  | dropped (paths : List Path)
  | done
deriving DecidableEq, Repr

/-- Does an operation on a tree. -/
def perform (t : Tree) (operation : Operation) (atlas : Atlas) : Answer × Atlas :=
  match operation with
  | .resolve specifier file context =>
    let (l, atlas) := atlas.resolve t specifier file context
    (.location l, atlas)
  | .tableAt path mode =>
    let (table, atlas) := atlas.tableAt t path mode
    (.table table, atlas)
  | .importModule specifier file =>
    let (table, atlas) := atlas.importModule t specifier file
    (.table table, atlas)
  | .invalidate path =>
    let (paths, atlas) := atlas.invalidate path
    (.dropped paths, atlas)
  | .invalidateAllOf paths => (.done, atlas.invalidateAllOf paths)
  | .forgetAliases => (.done, atlas.forgetAliases)
  | .clear => (.done, atlas.clear)

theorem answer_importModule (t : Tree) (specifier : String) (file : Path) (atlas : Atlas) :
    (perform t (.importModule specifier file) atlas).1 =
      .table (atlas.importModule t specifier file).1 :=
  rfl

/-- The atlas that operations leave, each done on a tree of its own. -/
def run (project : Project) (steps : List (Tree × Operation)) : Atlas :=
  steps.foldl (fun atlas step => (perform step.1 step.2 atlas).2) { project }

/-- What operations keep, a run keeps. -/
theorem run_keeps {I : Atlas → Prop} {project : Project} {steps : List (Tree × Operation)}
    (start : I { project })
    (step : ∀ s ∈ steps, ∀ atlas, I atlas → I (perform s.1 s.2 atlas).2) :
    I (run project steps) := by
  have kept : ∀ (steps : List (Tree × Operation)) (atlas : Atlas), I atlas →
      (∀ s ∈ steps, ∀ atlas, I atlas → I (perform s.1 s.2 atlas).2) →
      I (steps.foldl (fun atlas step => (perform step.1 step.2 atlas).2) atlas) := by
    intro steps
    induction steps with
    | nil => exact fun atlas start _ => start
    | cons s steps ih =>
      intro atlas start step
      exact ih _ (step s List.mem_cons_self atlas start) fun r member =>
        step r (List.mem_cons_of_mem _ member)
  exact kept steps _ start step

/-- What operations on one tree keep, a run on it keeps. -/
theorem run_keeps_on {I : Atlas → Prop} {project : Project} {t : Tree} (start : I { project })
    (step : ∀ operation atlas, I atlas → I (perform t operation atlas).2)
    (asked : List Operation) : I (run project (asked.map (t, ·))) := by
  refine run_keeps start fun s member atlas kept => ?_
  obtain ⟨operation, -, rfl⟩ := List.mem_map.mp member
  exact step operation atlas kept

theorem run_append (project : Project) (steps more : List (Tree × Operation)) :
    run project (steps ++ more) =
      more.foldl (fun atlas step => (perform step.1 step.2 atlas).2) (run project steps) := by
  rw [run, run, List.foldl_append]

/-! ## Forgetting -/

/-- An atlas that keeps no more than another of the same project. -/
structure Forgets (atlas atlas' : Atlas) : Prop where
  project : atlas'.project = atlas.project
  aliases : atlas'.aliases = none ∨ atlas'.aliases = atlas.aliases
  locations : atlas'.locations.entries ⊆ atlas.locations.entries
  tables : atlas'.tables.entries ⊆ atlas.tables.entries

theorem Forgets.refl (atlas : Atlas) : Forgets atlas atlas :=
  ⟨rfl, .inr rfl, List.Subset.refl _, List.Subset.refl _⟩

theorem Forgets.trans {a b c : Atlas} (first : Forgets a b) (second : Forgets b c) :
    Forgets a c := by
  refine ⟨second.project.trans first.project, ?_,
    List.Subset.trans second.locations first.locations,
    List.Subset.trans second.tables first.tables⟩
  rcases second.aliases with none | same
  · exact .inl none
  · rw [same]
    exact first.aliases

theorem forgets_invalidate (p : Path) (atlas : Atlas) : Forgets atlas (atlas.invalidate p).2 := by
  have fewer : (atlas.tables.invalidate p).2.entries ⊆ atlas.tables.entries :=
    fun e member => (TableCache.mem_invalidate member).1
  unfold invalidate
  dsimp only
  split
  · exact ⟨rfl, .inl rfl, List.nil_subset _, List.nil_subset _⟩
  · split
    · exact ⟨rfl, .inr rfl, List.nil_subset _, fewer⟩
    · exact ⟨rfl, .inr rfl, List.Subset.refl _, fewer⟩

theorem forgets_invalidateAllOf (paths : List Path) (atlas : Atlas) :
    Forgets atlas (atlas.invalidateAllOf paths) := by
  rw [invalidateAllOf]
  induction paths generalizing atlas with
  | nil => exact .refl atlas
  | cons p paths ih => exact (forgets_invalidate p atlas).trans (ih _)

/-- Forgetting about a path leaves no table of the path nor one linked against it. -/
theorem mem_invalidate {p : Path} {atlas : Atlas} {e : KeptTable}
    (member : e ∈ (atlas.invalidate p).2.tables.entries) :
    e ∈ atlas.tables.entries ∧ e.path.same p = false ∧ among e.module.dependencies p = false := by
  refine TableCache.mem_invalidate ?_
  unfold invalidate at member
  dsimp only at member
  split at member
  · cases member
  · split at member <;> exact member

theorem forgets_forgetAliases (atlas : Atlas) : Forgets atlas atlas.forgetAliases :=
  ⟨rfl, .inl rfl, List.nil_subset _, List.nil_subset _⟩

theorem forgets_clear (atlas : Atlas) : Forgets atlas atlas.clear :=
  ⟨rfl, .inr rfl, List.nil_subset _, List.nil_subset _⟩

/-- What is no query forgets. -/
theorem forgets_perform {operation : Operation} (h : operation.isQuery = false) (t : Tree)
    (atlas : Atlas) : Forgets atlas (perform t operation atlas).2 := by
  cases operation with
  | invalidate path => exact forgets_invalidate path atlas
  | invalidateAllOf paths => exact forgets_invalidateAllOf paths atlas
  | forgetAliases => exact forgets_forgetAliases atlas
  | clear => exact forgets_clear atlas
  | _ => cases h

/-! ## Operations -/

/-- Loading keeps what resolving keeps, if the tables have no part in it. -/
theorem Loads.keeps {I : Atlas → Prop} {t : Tree}
    (tables : ∀ {atlas : Atlas} (tables : TableCache), I atlas → I { atlas with tables })
    (resolves : ∀ {specifier file context atlas r atlas'},
      atlas.resolve t specifier file context = (r, atlas') → I atlas → I atlas')
    {l : Location} {mode : Mode} {s s' : Session} {m : Option Linked} (h : Loads t l mode s m s')
    (start : I s.atlas) : I s'.atlas := by
  refine load_induction (P := fun _ _ s _ s' => I s.atlas → I s'.atlas) ?_ ?_ ?_ ?_ h start
  · exact fun _ start => start
  · exact fun _ _ start => tables _ start
  · exact fun _ _ _ start => tables _ start
  · intro l mode s content kept level nesting m s' _ _ _ building start
    obtain ⟨kept', whole⟩ := atlas_keep l mode content (s'.nesting.isComplete level) m
      { s' with nesting := (s'.nesting.pop level).2 }
    rw [Session.finish, whole]
    refine tables kept' (building.keeps (I := fun s => I s.atlas) (fun s start => tables _ start) ?_
      (tables kept start))
    rintro specifier mode s f s' (⟨atlas, found, rfl, rfl⟩ | ⟨target, atlas, m, found, load, rfl⟩) h
    · exact resolves found h
    · exact load.2 (resolves found h)

theorem loadTable_keeps {I : Atlas → Prop} {t : Tree}
    (loads : ∀ {l mode atlas m s'}, Loads t l mode { atlas } m s' → I atlas → I s'.atlas)
    (l : Location) (mode : Mode) (atlas : Atlas) (start : I atlas) :
    I (atlas.loadTable t l mode).2 := by
  unfold loadTable
  split
  · next loading => exact loads ⟨_, loading⟩ start
  · exact start

/-- A query keeps what resolving and loading keep. -/
theorem query_keeps {I : Atlas → Prop} {t : Tree}
    (resolves : ∀ {specifier file context atlas r atlas'},
      atlas.resolve t specifier file context = (r, atlas') → I atlas → I atlas')
    (loads : ∀ {l mode atlas m s'}, Loads t l mode { atlas } m s' → I atlas → I s'.atlas)
    {operation : Operation} (query : operation.isQuery = true) (atlas : Atlas) (start : I atlas) :
    I (perform t operation atlas).2 := by
  cases operation with
  | resolve specifier file context => exact resolves rfl start
  | tableAt path mode => exact loadTable_keeps loads ⟨path, none⟩ mode atlas start
  | importModule specifier file =>
    rw [perform, importModule]
    cases found : atlas.resolve t specifier file none with
    | mk l atlas' =>
      have kept := resolves found start
      cases l with
      | none => exact kept
      | some l => exact loadTable_keeps loads l .full atlas' kept
  | _ => cases query

/-- An operation keeps what resolving, loading and forgetting keep. -/
theorem perform_keeps {I : Atlas → Prop} {t : Tree}
    (resolves : ∀ {specifier file context atlas r atlas'},
      atlas.resolve t specifier file context = (r, atlas') → I atlas → I atlas')
    (loads : ∀ {l mode atlas m s'}, Loads t l mode { atlas } m s' → I atlas → I s'.atlas)
    (forgets : ∀ {atlas atlas'}, Forgets atlas atlas' → I atlas → I atlas')
    (operation : Operation) (atlas : Atlas) (start : I atlas) :
    I (perform t operation atlas).2 := by
  cases query : operation.isQuery with
  | true => exact query_keeps resolves loads query atlas start
  | false => exact forgets (forgets_perform query t atlas) start

/-! ## An example -/

/-- A project with one extension. -/
def sample : Project := { root := ⟨"/p"⟩, extensions := [".ts"] }

/-- Two modules that export everything of each other. -/
def ringTree : Tree :=
  (({} : Tree).write ⟨"/p/a.ts"⟩ (.text "export * from './b'; export const a = 1;")).write
    ⟨"/p/b.ts"⟩ (.text "export * from './a'; export const b = 2;")

end ModuleAtlas.Atlas
