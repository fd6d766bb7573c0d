import ModuleAtlas.Proofs.Standing

/-!
# What every table has

Some properties pass on to a module from the modules that it asks for. Where linking passes a
property on (`Inherited`), every table has it: the one that a load gives, all that are kept
(`Inherited.loads`), and so every table that is answered in a run (`Inherited.answer`). What is
known of the places that resolving finds may be used on the way (`Upheld`).
-/

namespace ModuleAtlas.Atlas

open Draft (Mode)
open Resolution (Location)
open Symbols (Table)

variable {t : Tree} {I : Atlas → Prop} {L : Location → Prop}
  {J : Mode → Path → String → Linked → Prop}

/-- A property of atlases that resolving and forgetting keep and tables have no part in, while
every place that is found has a property of its own. -/
structure Upheld (t : Tree) (I : Atlas → Prop) (L : Location → Prop) : Prop where
  tables : ∀ {atlas : Atlas} (tables : TableCache), I atlas → I { atlas with tables }
  forgets : ∀ {atlas atlas' : Atlas}, Forgets atlas atlas' → I atlas → I atlas'
  resolve : ∀ {specifier file context atlas r atlas'},
    atlas.resolve t specifier file context = (r, atlas') → I atlas →
      I atlas' ∧ ∀ l, r = some l → L l

/-- What an answer hands over: nothing, or the module at a place, which has the property. -/
def Handed (t : Tree) (L : Location → Prop) (J : Mode → Path → String → Linked → Prop)
    (f : Fetched) : Prop :=
  f = {} ∨ ∃ target m, L target ∧ f = fetched target m ∧ ∀ linked, m = some linked →
    ∃ mode content, t.read? target.path = some content ∧ J mode target.path content linked

/-- A property of modules, by their mode, path and content, that linking passes on. -/
structure Inherited (t : Tree) (L : Location → Prop)
    (J : Mode → Path → String → Linked → Prop) : Prop where
  respell : ∀ {mode p q content m}, p.same q = true → J mode p content m → J mode q content m
  plain : ∀ {mode p content d}, t.read? p = some content → Draft.ofFile mode p content = .ok d →
    d.isPending = false → J mode p content { table := d.unlinked }
  linked : ∀ {mode p content d fs}, t.read? p = some content →
    Draft.ofFile mode p content = .ok d → d.isPending = true → (∀ f ∈ fs, Handed t L J f) →
    J mode p content (linkedWith p d fs)

/-- What holds of every place that is found and of all that the modules there depend on holds of
all that a module depends on. -/
theorem forall_dependencies {P : Path → Prop} {fs : List Fetched}
    (handed : ∀ f ∈ fs, Handed t L J f) (places : ∀ target, L target → P target.path)
    (inside : ∀ {mode p content m}, J mode p content m → ∀ q ∈ m.dependencies, P q)
    (own : Path) (d : Draft) : ∀ q ∈ (linkedWith own d fs).dependencies, P q := by
  intro q member
  obtain ⟨f, inAnswers, member⟩ := List.mem_flatMap.mp (dependencySet_subset _ _ member)
  rcases handed f inAnswers with rfl | ⟨target, m, place, rfl, has⟩
  · cases member
  · cases m with
    | none =>
      have isTarget : q = target.path := List.mem_singleton.mp member
      exact isTarget ▸ places target place
    | some m =>
      rcases List.mem_cons.mp member with isTarget | member
      · exact isTarget ▸ places target place
      · obtain ⟨mode, content, -, has⟩ := has m rfl
        exact inside has q member

/-- All tables kept have a property. -/
def AllKept (J : Mode → Path → String → Linked → Prop) (atlas : Atlas) : Prop :=
  ∀ e ∈ atlas.tables.entries, J e.mode e.path e.content e.module

theorem AllKept.of_tables {atlas atlas' : Atlas} (kept : AllKept J atlas)
    (fewer : ∀ e ∈ atlas'.tables.entries, e ∈ atlas.tables.entries) : AllKept J atlas' :=
  fun e member => kept e (fewer e member)

/-! ## Loads -/

/-- What a load passes on: the properties of the atlas and of its tables, and the module it
gives has the property too. -/
structure Passes (t : Tree) (I : Atlas → Prop) (J : Mode → Path → String → Linked → Prop)
    (l : Location) (mode : Mode) (m : Option Linked) (s' : Session) : Prop where
  atlas : I s'.atlas
  kept : AllKept J s'.atlas
  given : ∀ linked, m = some linked →
    ∃ content, t.read? l.path = some content ∧ J mode l.path content linked

/-- The answers that a module gets where loads pass the properties on. -/
abbrev PassedAnswer (t : Tree) (I : Atlas → Prop) (J : Mode → Path → String → Linked → Prop) :=
  LoadAnswer t fun l mode s m s' => Loads t l mode s m s' ∧
    (I s.atlas → AllKept J s.atlas → Passes t I J l mode m s')

theorem handed_of_answer (upheld : Upheld t I L) {l : Location} {specifier : String} {mode : Mode}
    {s s' : Session} {f : Fetched} (answer : PassedAnswer t I J l specifier mode s f s')
    (start : I s.atlas ∧ AllKept J s.atlas) :
    (I s'.atlas ∧ AllKept J s'.atlas) ∧ Handed t L J f := by
  obtain ⟨holds, kept⟩ := start
  rcases answer with ⟨atlas, found, rfl, rfl⟩ | ⟨target, atlas, m, found, load, rfl⟩
  · have tables := (resolve_cases found).2.1
    exact ⟨⟨(upheld.resolve found holds).1, kept.of_tables fun e member => tables ▸ member⟩,
      .inl rfl⟩
  · have tables := (resolve_cases found).2.1
    obtain ⟨holds', place⟩ := upheld.resolve found holds
    have passes := load.2 holds' (kept.of_tables fun e member => tables ▸ member)
    refine ⟨⟨passes.atlas, passes.kept⟩, .inr ⟨target, m, place target rfl, rfl, ?_⟩⟩
    intro linked isLinked
    obtain ⟨content, read, has⟩ := passes.given linked isLinked
    exact ⟨mode, content, read, has⟩

namespace Inherited

theorem built (h : Inherited t L J) (upheld : Upheld t I L) {l : Location} {mode : Mode}
    {content : String} {s s' : Session} {m : Option Linked} (read : t.read? l.path = some content)
    (building : Built (PassedAnswer t I J l) Session.counted mode l.path content s m s')
    (start : I s.atlas ∧ AllKept J s.atlas) : Passes t I J l mode m s' := by
  have counted : I s.counted.atlas ∧ AllKept J s.counted.atlas :=
    ⟨upheld.tables _ start.1, start.2⟩
  cases building with
  | unsupported _ => exact ⟨start.1, start.2, fun _ isLinked => nomatch isLinked⟩
  | plain ok settled =>
    refine ⟨counted.1, counted.2, fun linked isLinked => ⟨content, read, ?_⟩⟩
    cases isLinked
    exact h.plain read ok settled
  | linked ok pending answered =>
    obtain ⟨after, handed⟩ := answered.keeps_all
      (I := fun s : Session => I s.atlas ∧ AllKept J s.atlas) (.inl rfl)
      (fun answer start => handed_of_answer upheld answer start) counted
    refine ⟨after.1, after.2, fun linked isLinked => ⟨content, read, ?_⟩⟩
    cases isLinked
    exact h.linked read ok pending handed

theorem finish (h : Inherited t L J) {s : Session} {l : Location} {mode : Mode} {content : String}
    {m : Option Linked} (kept : AllKept J s.atlas)
    (has : ∀ linked, m = some linked → J mode l.path content linked) (level : Level) :
    AllKept J (s.finish l mode content level m).atlas := by
  intro e member
  rcases mem_keep member with ⟨member, -⟩ | ⟨-, isFor, rfl, rfl, -⟩
  · exact kept e member
  · obtain ⟨same, rfl⟩ := KeptTable.isFor_iff.mp isFor
    exact h.respell (Path.same_symm same) (has _ rfl)

/-- Every load gives a table that has the property, and keeps only such tables. -/
theorem loads (h : Inherited t L J) (upheld : Upheld t I L) {l : Location} {mode : Mode}
    {s s' : Session} {m : Option Linked} (loading : Loads t l mode s m s') :
    I s.atlas → AllKept J s.atlas → Passes t I J l mode m s' := by
  refine load_induction (P := fun l mode s m s' =>
    I s.atlas → AllKept J s.atlas → Passes t I J l mode m s') ?_ ?_ ?_ ?_ loading
  · intro l mode s _ holds kept
    exact ⟨holds, kept, fun _ isLinked => nomatch isLinked⟩
  · intro l mode s content m tables read hit holds kept
    obtain ⟨entries, e, member, same, rfl, rfl, rfl⟩ := TableCache.get_hit hit
    have fewer : ∀ e ∈ tables.entries, e ∈ s.atlas.tables.entries :=
      fun e member => entries ▸ member
    refine ⟨upheld.tables tables holds, kept.of_tables fewer, fun linked isLinked => ?_⟩
    cases isLinked
    exact ⟨_, read, h.respell same (kept e member)⟩
  · intro l mode s content tables nesting _ missed _ holds kept
    exact ⟨upheld.tables tables holds,
      kept.of_tables fun e member => TableCache.mem_of_get missed member,
      fun _ isLinked => nomatch isLinked⟩
  · intro l mode s content tables level nesting m s' read missed _ building holds kept
    have begun : AllKept J { s.atlas with tables } :=
      kept.of_tables fun e member => TableCache.mem_of_get missed member
    have passes := h.built upheld read building ⟨upheld.tables tables holds, begun⟩
    have has : ∀ linked, m = some linked → J mode l.path content linked := by
      intro linked isLinked
      obtain ⟨content', read', has⟩ := passes.given linked isLinked
      rw [read] at read'
      cases read'
      exact has
    refine ⟨?_, h.finish passes.kept has level, passes.given⟩
    obtain ⟨tables', whole⟩ := atlas_keep l mode content (s'.nesting.isComplete level) m
      { s' with nesting := (s'.nesting.pop level).2 }
    rw [Session.finish, whole]
    exact upheld.tables tables' passes.atlas

/-! ## Operations -/

theorem perform (h : Inherited t L J) (upheld : Upheld t I L) (operation : Operation)
    (atlas : Atlas) (start : I atlas ∧ AllKept J atlas) :
    I (perform t operation atlas).2 ∧ AllKept J (perform t operation atlas).2 := by
  refine perform_keeps (I := fun atlas => I atlas ∧ AllKept J atlas) ?_ ?_ ?_ operation atlas start
  · intro specifier file context atlas r atlas' found start
    have tables := (resolve_cases found).2.1
    exact ⟨(upheld.resolve found start.1).1, start.2.of_tables fun e member => tables ▸ member⟩
  · intro l mode atlas m s' loading start
    have passes := h.loads upheld loading start.1 start.2
    exact ⟨passes.atlas, passes.kept⟩
  · intro atlas atlas' fewer start
    exact ⟨upheld.forgets fewer start.1, start.2.of_tables fun e member => fewer.tables member⟩

/-- The table that is answered has the property, and is kept as it is answered. -/
theorem answer (h : Inherited t L J) (upheld : Upheld t I L) {atlas : Atlas} {l : Location}
    {mode : Mode} {table : Table} (start : I atlas ∧ AllKept J atlas) (operation : Operation)
    (asked : operation.module? t atlas = some (l, mode))
    (answered : (Atlas.perform t operation atlas).1 = .table (some table)) :
    ∃ e, (Atlas.perform t operation atlas).2.tables.find? l.path mode = some e ∧
      t.read? l.path = some e.content ∧ e.module.table = table ∧
      J mode l.path e.content e.module := by
  obtain ⟨content, m, read, ⟨e, found, rfl, rfl⟩, isTable⟩ := standing_of_answer asked answered
  have kept := (h.perform upheld operation atlas start).2 e (List.mem_of_find?_eq_some found)
  have isFor := List.find?_some found
  obtain ⟨same, rfl⟩ := KeptTable.isFor_iff.mp isFor
  exact ⟨e, found, read, isTable, h.respell same kept⟩

end Inherited

end ModuleAtlas.Atlas
