import ModuleAtlas.Proofs.Runs

/-!
# Dependencies cover what was loaded

A module is kept with the paths of the modules it was linked against. These are all the files that
were loaded while it was linked, but its own: those it asked for, those that the modules it asked
for asked for, and, where one of them was kept, those that were loaded when that one was linked.
What was loaded is what loading under watch notes in its ledger; `Covers` says that the
dependencies of a module account for it. So no table that a file had a part in survives that the
file is dropped (`dependencies_cover_loads`).
-/

namespace ModuleAtlas.Atlas

open Draft (Mode Slot)
open Resolution (Location)

variable {t : Tree}

/-- The dependencies of a module stand in order, are not its own path, and cover what was loaded. -/
structure Covers (m : Linked) (own : Path) (loaded : List Path) : Prop where
  sorted : m.dependencies.Pairwise fun p q => p.before q = true
  other : among m.dependencies own = false
  covers : ∀ q ∈ loaded, q.same own = false → among m.dependencies q = true

theorem Covers.congr {m : Linked} {own own' : Path} {loaded : List Path} (h : Covers m own loaded)
    (same : own.same own' = true) : Covers m own' loaded :=
  ⟨h.sorted, among_congr same ▸ h.other, fun q member different =>
    h.covers q member (by rwa [Path.same_congr_right same])⟩

/-- A linked module covers what its answers led to. -/
theorem covers_linkedWith {own : Path} {d : Draft} {fs : List Fetched} {loaded : List Path}
    (led : ∀ q ∈ loaded, among (pathsOf fs) q = true) :
    Covers (linkedWith own d fs) own loaded := by
  refine ⟨pairwise_dependencySet own _, Bool.eq_false_iff.mpr fun inside => ?_,
    fun q member different => among_dependencySet.mpr ⟨led q member, different⟩⟩
  have apart := (among_dependencySet.mp inside).2
  rw [Path.same_refl] at apart
  cases apart

/-! ## The ledger -/

namespace Ledger

variable {ledger : Ledger} {l : Location} {mode : Mode} {loaded : List Path} {e : KeptTable}

theorem find?_congr {p q : Path} (same : p.same q = true) (ledger : Ledger) (mode : Mode) :
    ledger.find? p mode = ledger.find? q mode := by
  rw [find?, find?]
  congr 2
  funext r
  rw [Path.same_congr_right same]

theorem find?_cons_of_isFor (isFor : e.isFor l.path mode = true) :
    Ledger.find? (((l.path, mode), loaded) :: ledger) e.path e.mode = some loaded := by
  obtain ⟨same, rfl⟩ := KeptTable.isFor_iff.mp isFor
  rw [find?, List.find?_cons_of_pos]
  · rfl
  · rw [Path.same_symm same, BEq.rfl, Bool.and_self]

theorem find?_cons_of_not_isFor (other : e.isFor l.path mode = false) :
    Ledger.find? (((l.path, mode), loaded) :: ledger) e.path e.mode =
      ledger.find? e.path e.mode := by
  rw [find?, find?, List.find?_cons_of_neg]
  rw [KeptTable.isFor] at other
  rw [Path.same_comm, BEq.comm, other]
  exact Bool.false_ne_true

end Ledger

/-- The ledger knows what was loaded for a kept table, and its dependencies cover that. -/
def Recorded (ledger : Ledger) (e : KeptTable) : Prop :=
  ∃ loaded, ledger.find? e.path e.mode = some loaded ∧ Covers e.module e.path loaded

/-- All tables of a state are recorded. -/
def Watched.AllRecorded (w : Watched) : Prop :=
  ∀ e ∈ w.session.atlas.tables.entries, Recorded w.ledger e

/-- What a load did to the state: all tables are still recorded, and what it loaded, beside the
module itself, is covered by the module it gives. -/
structure Accounted (l : Location) (w : Watched) (m : Option Linked) (w' : Watched) : Prop where
  recorded : w'.AllRecorded
  loaded : ∃ new, w'.loaded = w.loaded ++ new ∧
    match m with
    | some m => Covers m l.path new
    | none => new = []

theorem among_fetched {target : Location} {m : Option Linked} {new : List Path}
    (covered : match m with
      | some m => Covers m target.path new
      | none => new = [])
    {q : Path} (member : q ∈ target.path :: new) :
    among (fetched target m).dependencies q = true := by
  rcases List.mem_cons.mp member with rfl | member
  · cases m <;> exact among_iff.mpr ⟨target.path, by simp [fetched], Path.same_refl _⟩
  · cases m with
    | none =>
      rw [covered] at member
      cases member
    | some m =>
      by_cases same : q.same target.path = true
      · exact among_iff.mpr ⟨target.path, by simp [fetched], Path.same_symm same⟩
      · obtain ⟨r, inside, same⟩ := among_iff.mp (covered.covers q member (by simpa using same))
        exact among_iff.mpr ⟨r, by simp [fetched, inside], same⟩

/-- What is loaded while slots are answered is what the answers led to. -/
theorem accounted_answers {l : Location} {d : Draft} {slots : List Slot} {w w' : Watched}
    {fs : List Fetched}
    (answered : Answered (WatchedAnswer t (fun l mode w m w' => Watches t l mode w m w' ∧
      (w.AllRecorded → Accounted l w m w')) l) d slots w fs w')
    (recorded : w.AllRecorded) :
    w'.AllRecorded ∧ ∃ new, w'.loaded = w.loaded ++ new ∧
      ∀ q ∈ new, among (pathsOf fs) q = true := by
  induction answered with
  | nil => exact ⟨recorded, [], (List.append_nil _).symm, fun q member => nomatch member⟩
  | silent _ _ ih => exact ih recorded
  | @asked slot rest specifier mode w w₁ w' f fs _ answer _ ih =>
    have first : w₁.AllRecorded ∧ ∃ new, w₁.loaded = w.loaded ++ new ∧
        ∀ q ∈ new, among f.dependencies q = true := by
      rcases answer with ⟨atlas, found, rfl, rfl⟩ | ⟨target, atlas, m, found, ⟨-, load⟩, rfl⟩
      · refine ⟨fun e member => recorded e ?_, [], (List.append_nil _).symm,
          fun q member => nomatch member⟩
        rwa [← (resolve_cases found).2.1]
      · have asking : (w.asking target atlas).AllRecorded := fun e member =>
          recorded e (by rwa [← (resolve_cases found).2.1])
        obtain ⟨recorded, new, whole, covered⟩ := load asking
        refine ⟨recorded, target.path :: new, ?_, fun q member => among_fetched covered member⟩
        rw [whole, Watched.asking, List.append_assoc]
        rfl
    obtain ⟨recorded, new, whole, led⟩ := first
    obtain ⟨recorded, more, whole', led'⟩ := ih recorded
    refine ⟨recorded, new ++ more, by rw [whole', whole, List.append_assoc], fun q member => ?_⟩
    rw [pathsOf, List.flatMap_cons, among, List.any_append, Bool.or_eq_true]
    rcases List.mem_append.mp member with member | member
    · exact .inl (led q member)
    · exact .inr (led' q member)

/-- Building a module loads what its dependencies cover. -/
theorem accounted_built {l : Location} {mode : Mode} {content : String} {w w' : Watched}
    {m : Option Linked}
    (building : Built (WatchedAnswer t (fun l mode w m w' => Watches t l mode w m w' ∧
      (w.AllRecorded → Accounted l w m w')) l) Watched.counted mode l.path content w m w')
    (recorded : w.AllRecorded) : Accounted l w m w' := by
  cases building with
  | unsupported _ => exact ⟨recorded, [], (List.append_nil _).symm, rfl⟩
  | plain _ _ =>
    exact ⟨recorded, [], (List.append_nil _).symm, .nil, rfl, fun q member => nomatch member⟩
  | linked _ _ answered =>
    obtain ⟨recorded, new, whole, led⟩ := accounted_answers answered recorded
    exact ⟨recorded, new, whole, covers_linkedWith led⟩

/-- Ending a module records what was loaded for it, if it is kept. -/
theorem Accounted.finish {l : Location} {w inner w' : Watched} {m : Option Linked}
    (h : Accounted l inner m w') (fresh : inner.loaded = []) (mode : Mode) (content : String)
    (level : Level) : Accounted l w m (w'.finish w l mode content level m) := by
  obtain ⟨recorded, new, whole, covered⟩ := h
  rw [fresh, List.nil_append] at whole
  refine ⟨fun e member => ?_, new, by rw [Watched.finish, whole], covered⟩
  rw [Watched.finish]
  dsimp only
  rcases mem_keep member with ⟨member, replaced⟩ | ⟨complete, isFor, -, rfl, -⟩
  · obtain ⟨loaded, found, covers⟩ := recorded e member
    refine ⟨loaded, ?_, covers⟩
    split
    · next kept =>
      rw [Bool.and_eq_true] at kept
      rwa [Ledger.find?_cons_of_not_isFor (replaced kept.1 kept.2)]
    · exact found
  · rw [complete]
    refine ⟨w'.loaded, Ledger.find?_cons_of_isFor isFor, ?_⟩
    rw [whole]
    exact Covers.congr covered (Path.same_symm (KeptTable.isFor_iff.mp isFor).1)

theorem accounted_watches {l : Location} {mode : Mode} {w w' : Watched} {m : Option Linked}
    (h : Watches t l mode w m w') : w.AllRecorded → Accounted l w m w' := by
  refine watch_induction (P := fun l _ w m w' => w.AllRecorded → Accounted l w m w') ?_ ?_ ?_ ?_ h
  · exact fun _ recorded => ⟨recorded, [], (List.append_nil _).symm, rfl⟩
  · intro l mode w content m tables _ kept recorded
    obtain ⟨unchanged, e, member, same, rfl, -, rfl⟩ := TableCache.get_hit kept
    obtain ⟨loaded, found, covers⟩ := recorded e member
    refine ⟨fun e member => recorded e ?_, loaded, ?_, covers.congr same⟩
    · rwa [← unchanged]
    · rw [Watched.taking, ← Ledger.find?_congr same, found]
      rfl
  · intro l mode w content tables nesting _ missed _ recorded
    exact ⟨fun e member => recorded e (TableCache.mem_of_get missed member), [],
      (List.append_nil _).symm, rfl⟩
  · intro l mode w content tables level nesting m w' _ missed _ building recorded
    have begun : (w.beginning tables nesting).AllRecorded :=
      fun e member => recorded e (TableCache.mem_of_get missed member)
    exact (accounted_built building begun).finish rfl mode content level

/-! ## Runs -/

/-- The ledger after a module was loaded. -/
def ledgerAfterLoad (t : Tree) (l : Location) (mode : Mode) (atlas : Atlas) (ledger : Ledger) :
    Ledger :=
  match watch t (loadDepth t atlas.project) l mode { session := { atlas }, ledger } with
  | some (_, w) => w.ledger
  | none => ledger

/-- The ledger after an operation. -/
def ledgerAfter (t : Tree) (operation : Operation) (atlas : Atlas) (ledger : Ledger) : Ledger :=
  match operation with
  | .tableAt path mode => ledgerAfterLoad t ⟨path, none⟩ mode atlas ledger
  | .importModule specifier file =>
    match atlas.resolve t specifier file none with
    | (none, _) => ledger
    | (some l, atlas) => ledgerAfterLoad t l .full atlas ledger
  | _ => ledger

/-- The ledger of a run. -/
def runLedger (project : Project) (steps : List (Tree × Operation)) : Ledger :=
  (steps.foldl (fun (atlas, ledger) step =>
    ((perform step.1 step.2 atlas).2, ledgerAfter step.1 step.2 atlas ledger))
    (({ project } : Atlas), [])).2

/-- All tables of an atlas are recorded. -/
def AllRecorded (atlas : Atlas) (ledger : Ledger) : Prop :=
  ∀ e ∈ atlas.tables.entries, Recorded ledger e

theorem AllRecorded.loadTable {atlas : Atlas} {ledger : Ledger} (h : AllRecorded atlas ledger)
    (t : Tree) (l : Location) (mode : Mode) :
    AllRecorded (atlas.loadTable t l mode).2 (ledgerAfterLoad t l mode atlas ledger) := by
  have erased := session_watch t (loadDepth t atlas.project) l mode { session := { atlas }, ledger }
  dsimp only at erased
  rw [Atlas.loadTable, ledgerAfterLoad, ← erased]
  cases watching : watch t (loadDepth t atlas.project) l mode { session := { atlas }, ledger } with
  | none => exact h
  | some r => exact (accounted_watches ⟨_, watching⟩ h).recorded

theorem AllRecorded.perform {atlas : Atlas} {ledger : Ledger} (h : AllRecorded atlas ledger)
    (t : Tree) (operation : Operation) :
    AllRecorded (perform t operation atlas).2 (ledgerAfter t operation atlas ledger) := by
  cases operation with
  | resolve specifier file context =>
    intro e member
    exact h e (by rwa [← (resolve_cases rfl).2.1])
  | tableAt path mode => exact h.loadTable t ⟨path, none⟩ mode
  | importModule specifier file =>
    rw [Atlas.perform, importModule, ledgerAfter]
    cases found : atlas.resolve t specifier file none with
    | mk l atlas' =>
      have kept : AllRecorded atlas' ledger := fun e member =>
        h e (by rwa [← (resolve_cases found).2.1])
      cases l with
      | none => exact kept
      | some l => exact kept.loadTable t l .full
  | _ => exact fun e member => h e ((forgets_perform rfl t atlas).tables member)

theorem allRecorded_run (project : Project) (steps : List (Tree × Operation)) :
    AllRecorded (run project steps) (runLedger project steps) := by
  have kept : ∀ (steps : List (Tree × Operation)) (atlas : Atlas) (ledger : Ledger),
      AllRecorded atlas ledger → AllRecorded
        (steps.foldl (fun atlas step => (Atlas.perform step.1 step.2 atlas).2) atlas)
        (steps.foldl (fun (atlas, ledger) step => ((Atlas.perform step.1 step.2 atlas).2,
          ledgerAfter step.1 step.2 atlas ledger)) (atlas, ledger)).2 := by
    intro steps
    induction steps with
    | nil => exact fun atlas ledger h => h
    | cons step steps ih => exact fun atlas ledger h => ih _ _ (h.perform step.1 step.2)
  exact kept steps _ [] fun e member => nomatch member

/-- In every atlas, the dependencies of a kept table stand in order, no two the same and none the
path of the table, and every other path that was loaded while it was linked is among them. So when
a path is dropped, no table is left that is of the path or that the path was loaded for. -/
theorem dependencies_cover_loads (project : Project) (steps : List (Tree × Operation)) :
    (∀ e ∈ (run project steps).tables.entries,
      e.module.dependencies.Pairwise (fun p q => p.before q = true) ∧
      e.module.dependencies.Pairwise (fun p q => p.same q = false) ∧
      among e.module.dependencies e.path = false ∧
      ∃ loaded, (runLedger project steps).find? e.path e.mode = some loaded ∧
        ∀ q ∈ loaded, q.same e.path = false → among e.module.dependencies q = true) ∧
    ∀ q, ∀ e ∈ ((run project steps).invalidate q).2.tables.entries,
      e.path.same q = false ∧
      ∃ loaded, (runLedger project steps).find? e.path e.mode = some loaded ∧
        among loaded q = false := by
  have recorded := allRecorded_run project steps
  refine ⟨fun e member => ?_, fun q e member => ?_⟩
  · obtain ⟨loaded, found, covers⟩ := recorded e member
    exact ⟨covers.sorted, covers.sorted.imp Path.not_same_of_before, covers.other, loaded, found,
      covers.covers⟩
  · obtain ⟨kept, other, independent⟩ := mem_invalidate member
    obtain ⟨loaded, found, covers⟩ := recorded e kept
    refine ⟨other, loaded, found, Bool.eq_false_iff.mpr fun inside => ?_⟩
    obtain ⟨r, member, same⟩ := among_iff.mp inside
    have different : r.same e.path = false := by
      rwa [Path.same_congr_left same, Path.same_comm]
    rw [← among_congr same, covers.covers r member different] at independent
    cases independent

/-- The module of the ring that is kept was linked from the other one and from itself, where it was
cut. -/
example : runLedger sample [(ringTree, .tableAt ⟨"/p/a.ts"⟩ .full)] =
    [((⟨"/p/a.ts"⟩, .full), [⟨"/p/b.ts"⟩, ⟨"/p/a.ts"⟩])] := by
  decide +kernel

end ModuleAtlas.Atlas
