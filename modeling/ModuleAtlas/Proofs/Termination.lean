import ModuleAtlas.Proofs.Resolution
import ModuleAtlas.Proofs.Runs
import ModuleAtlas.Proofs.Tree

/-!
# Loading ends

A load goes on to other loads with nothing that gets smaller but the set of files that are not being
linked. The files that are being linked differ from each other and can all be read; all but the
outermost were found by resolving, which gives normal paths, so there are no more of them than files
and one (`GoodStack.length_le`). With that much fuel every load comes to an end (`exists_watch`),
and more fuel changes nothing (`watch_of_le`).
-/

namespace ModuleAtlas.Atlas

open Draft (Mode)
open Resolution (Location Slashless)

variable {t : Tree}

/-! ## Locations are normal -/

/-- All locations kept are normal paths. -/
structure KeepsNormal (atlas : Atlas) : Prop where
  slashless : Slashless atlas.project.extensions
  locations : ∀ e ∈ atlas.locations.entries, e.2.path.IsNormal

theorem KeepsNormal.withTables {atlas : Atlas} (h : KeepsNormal atlas) (tables : TableCache) :
    KeepsNormal { atlas with tables } :=
  ⟨h.slashless, h.locations⟩

theorem KeepsNormal.resolve {specifier : String} {file : Path} {context : Option Path}
    {atlas atlas' : Atlas} {r : Option Location} (kept : KeepsNormal atlas)
    (h : atlas.resolve t specifier file context = (r, atlas')) :
    KeepsNormal atlas' ∧ ∀ l, r = some l → l.path.IsNormal := by
  obtain ⟨project, -, outcome⟩ := resolve_cases h
  rcases outcome with ⟨k, l, member, -, -, rfl, -, fewer⟩ | ⟨-, found, fewer⟩
  · refine ⟨⟨project ▸ kept.slashless, fun e inside => kept.locations e (fewer e inside)⟩, ?_⟩
    rintro _ ⟨⟩
    exact kept.locations _ member
  · have normal : ∀ l, r = some l → l.path.IsNormal := fun l isFound =>
      Resolution.resolve_isNormal kept.slashless (found.trans isFound)
    refine ⟨⟨project ▸ kept.slashless, fun e inside => ?_⟩, normal⟩
    rcases fewer e inside with inside | ⟨-, isFound⟩
    · exact kept.locations e inside
    · exact normal e.2 isFound

theorem KeepsNormal.finish {s : Session} (h : KeepsNormal s.atlas) (l : Location) (mode : Mode)
    (content : String) (level : Level) (m : Option Linked) :
    KeepsNormal (s.finish l mode content level m).atlas := by
  obtain ⟨tables, kept⟩ := atlas_keep l mode content (s.nesting.isComplete level) m
    { s with nesting := (s.nesting.pop level).2 }
  rw [Session.finish, kept]
  exact h.withTables tables

theorem KeepsNormal.loads {l : Location} {mode : Mode} {s s' : Session} {m : Option Linked}
    (kept : KeepsNormal s.atlas) (h : Loads t l mode s m s') : KeepsNormal s'.atlas :=
  h.keeps (fun tables kept => kept.withTables tables)
    (fun found kept => (kept.resolve found).1) kept

theorem KeepsNormal.forgets {atlas atlas' : Atlas} (h : KeepsNormal atlas)
    (fewer : Forgets atlas atlas') : KeepsNormal atlas' :=
  ⟨fewer.project ▸ h.slashless, fun e member => h.locations e (fewer.locations member)⟩

theorem KeepsNormal.perform {atlas : Atlas} (h : KeepsNormal atlas) (t : Tree)
    (operation : Operation) : KeepsNormal (perform t operation atlas).2 :=
  perform_keeps (fun found kept => (kept.resolve found).1) (fun loads kept => kept.loads loads)
    (fun fewer kept => kept.forgets fewer) operation atlas h

theorem keepsNormal_run {project : Project} (slashless : Slashless project.extensions)
    (steps : List (Tree × Operation)) : KeepsNormal (run project steps) :=
  run_keeps ⟨slashless, fun _ member => nomatch member⟩ fun step _ _ kept =>
    kept.perform step.1 step.2

/-! ## The stack -/

/-- The modules that are being linked differ and can be read; all but the outermost have normal
paths. -/
structure GoodStack (t : Tree) (stack : List Path) : Prop where
  apart : stack.Pairwise fun p q => p.same q = false
  readable : ∀ p ∈ stack, (t.read? p).isSome = true
  normal : ∀ p ∈ stack.tail, p.IsNormal

theorem GoodStack.nil : GoodStack t [] :=
  ⟨.nil, fun _ member => (nomatch member), fun _ member => (nomatch member)⟩

theorem GoodStack.push {stack : List Path} {p : Path} {content : String} (h : GoodStack t stack)
    (absent : ∀ q ∈ stack, q.same p = false) (read : t.read? p = some content)
    (normal : stack = [] ∨ p.IsNormal) : GoodStack t (stack ++ [p]) := by
  constructor
  · rw [List.pairwise_append]
    refine ⟨h.apart, List.pairwise_singleton _ _, fun q member r isP => ?_⟩
    rw [List.mem_singleton] at isP
    exact isP ▸ absent q member
  · intro q member
    rcases List.mem_append.mp member with member | isP
    · exact h.readable q member
    · rw [List.mem_singleton] at isP
      rw [isP, read, Option.isSome_some]
  · intro q member
    cases stack with
    | nil => cases member
    | cons outermost stack =>
      rcases List.mem_append.mp member with member | isP
      · exact h.normal q member
      · rw [List.mem_singleton] at isP
        exact isP ▸ normal.resolve_left (List.cons_ne_nil _ _)

/-- There are no more modules being linked than files and one. -/
theorem GoodStack.length_le {stack : List Path} (h : GoodStack t stack) :
    stack.length ≤ t.fileCount + 1 := by
  have inner := Tree.length_le_fileCount h.normal
    (fun p member => h.readable p (List.mem_of_mem_tail member))
    (h.apart.sublist (List.tail_sublist _))
  rw [List.length_tail] at inner
  omega

/-- A state that loading can go on from: what is kept and what is being linked is in order, and was
so each time a module began. -/
structure InOrder (t : Tree) (w : Watched) : Prop where
  normal : KeepsNormal w.session.atlas
  stack : GoodStack t w.session.nesting.stack
  logged : ∀ stack ∈ w.stackLog, GoodStack t stack

/-- A load that begins with nothing being linked is in order. -/
theorem InOrder.start {atlas : Atlas} (kept : KeepsNormal atlas) :
    InOrder t { session := { atlas } } :=
  ⟨kept, .nil, fun _ member => nomatch member⟩

/-- The state in which the module at a location begins. -/
theorem InOrder.beginning {w : Watched} {p : Path} {content : String} {level : Level}
    {nesting : Nesting} (h : InOrder t w) (read : t.read? p = some content)
    (pushed : w.session.nesting.push p = (some level, nesting))
    (normal : w.session.nesting.stack = [] ∨ p.IsNormal) (tables : TableCache) :
    InOrder t (w.beginning tables nesting) := by
  obtain ⟨absent, -, rfl⟩ := Nesting.push_some pushed
  have good := h.stack.push absent read normal
  refine ⟨h.normal.withTables tables, good, fun stack member => ?_⟩
  rcases List.mem_append.mp member with member | isNew
  · exact h.logged stack member
  · rw [List.mem_singleton] at isNew
    exact isNew ▸ good

/-- The state in which a module asks for another. -/
theorem InOrder.asking {w : Watched} {specifier : String} {file : Path} {context : Option Path}
    {target : Location} {atlas : Atlas} (h : InOrder t w)
    (found : w.session.atlas.resolve t specifier file context = (some target, atlas)) :
    InOrder t (w.asking target atlas) ∧ target.path.IsNormal := by
  obtain ⟨kept, normal⟩ := h.normal.resolve found
  exact ⟨⟨kept, h.stack, h.logged⟩, normal target rfl⟩

theorem InOrder.watches {l : Location} {mode : Mode} {w w' : Watched} {m : Option Linked}
    (inOrder : InOrder t w) (normal : w.session.nesting.stack = [] ∨ l.path.IsNormal)
    (h : Watches t l mode w m w') : InOrder t w' := by
  -- the stack is left as it was, so what has to be kept are the locations and the earlier stacks
  have kept : KeepsNormal w'.session.atlas ∧ ∀ stack ∈ w'.stackLog, GoodStack t stack := by
    refine watch_induction (P := fun l _ w _ w' => InOrder t w →
      w.session.nesting.stack = [] ∨ l.path.IsNormal →
      KeepsNormal w'.session.atlas ∧ ∀ stack ∈ w'.stackLog, GoodStack t stack) ?_ ?_ ?_ ?_ h inOrder
      normal
    · exact fun _ inOrder _ => ⟨inOrder.normal, inOrder.logged⟩
    · exact fun _ _ inOrder _ => ⟨inOrder.normal.withTables _, inOrder.logged⟩
    · exact fun _ _ _ inOrder _ => ⟨inOrder.normal.withTables _, inOrder.logged⟩
    · intro l mode w content tables level nesting m w' read missed pushed building inOrder normal
      have inside : InOrder t w' := by
        refine building.keeps (I := InOrder t)
          (fun v inOrder => ⟨inOrder.normal.withTables _, inOrder.stack, inOrder.logged⟩) ?_
          (inOrder.beginning read pushed normal tables)
        rintro specifier mode v f v'
          (⟨atlas, found, rfl, rfl⟩ | ⟨target, atlas, m, found, ⟨watches, load⟩, rfl⟩) inOrder
        · exact ⟨(inOrder.normal.resolve found).1, inOrder.stack, inOrder.logged⟩
        · obtain ⟨asking, normal⟩ := inOrder.asking found
          obtain ⟨locations, logged⟩ := load asking (.inr normal)
          exact ⟨locations, watches.stack ▸ asking.stack, logged⟩
      exact ⟨inside.normal.finish _ _ _ _ _, inside.logged⟩
  exact ⟨kept.1, h.stack ▸ inOrder.stack, kept.2⟩

/-! ## Fuel -/

theorem watch_succ {fuel : Nat} {l : Location} {mode : Mode} {w : Watched}
    {r : Option Linked × Watched} (h : watch t fuel l mode w = some r) :
    watch t (fuel + 1) l mode w = some r := by
  induction fuel generalizing l mode w r with
  | zero => cases h
  | succ fuel ih =>
    have fetches : ∀ {specifier mode v f v'},
        (watchFetch t (watch t fuel) l).Gives specifier mode v f v' →
        (watchFetch t (watch t (fuel + 1)) l).Gives specifier mode v f v' := by
      intro specifier mode v f v' gives
      unfold Fetch.Gives watchFetch at gives ⊢
      split at gives
      · exact gives
      · obtain ⟨r, loading, whole⟩ := Option.map_eq_some_iff.mp gives
        exact Option.map_eq_some_iff.mpr ⟨r, ih loading, whole⟩
    rw [watch] at h ⊢
    split at h
    · exact h
    · split at h
      · exact h
      · split at h
        · exact h
        · obtain ⟨built, building, whole⟩ := Option.map_eq_some_iff.mp h
          exact Option.map_eq_some_iff.mpr ⟨built, buildWith_mono fetches building, whole⟩

/-- More fuel changes nothing. -/
theorem watch_of_le {fuel more : Nat} {l : Location} {mode : Mode} {w : Watched}
    {r : Option Linked × Watched} (h : watch t fuel l mode w = some r) (le : fuel ≤ more) :
    watch t more l mode w = some r := by
  induction le with
  | refl => exact h
  | step _ ih => exact watch_succ ih

/-- Asking for a module ends, if loading it does. -/
theorem exists_watchFetch {fuel : Nat} (depth : Nat)
    (ends : ∀ l mode w, InOrder t w → l.path.IsNormal → w.session.nesting.stack.length = depth →
      ∃ m w', watch t fuel l mode w = some (m, w'))
    (l : Location) (specifier : String) (mode : Mode) (w : Watched)
    (start : InOrder t w ∧ w.session.nesting.stack.length = depth) :
    ∃ f w', watchFetch t (watch t fuel) l specifier mode w = some (f, w') ∧
      InOrder t w' ∧ w'.session.nesting.stack.length = depth := by
  obtain ⟨inOrder, deep⟩ := start
  unfold watchFetch
  cases found : w.session.atlas.resolve t specifier l.path l.context with
  | mk target atlas =>
    cases target with
    | none =>
      exact ⟨_, _, rfl, ⟨(inOrder.normal.resolve found).1, inOrder.stack, inOrder.logged⟩, deep⟩
    | some target =>
      obtain ⟨asking, normal⟩ := inOrder.asking found
      obtain ⟨m, w', loading⟩ := ends target mode _ asking normal deep
      have watches : Watches t target mode _ m w' := ⟨fuel, loading⟩
      dsimp only
      rw [loading]
      exact ⟨_, _, rfl, asking.watches (.inr normal) watches,
        (congrArg List.length (watches.stack)).trans deep⟩

/-- A load ends, if the fuel is enough for all the files that are not being linked. -/
theorem exists_watch {fuel : Nat} {l : Location} {mode : Mode} {w : Watched} (inOrder : InOrder t w)
    (normal : w.session.nesting.stack = [] ∨ l.path.IsNormal)
    (enough : t.fileCount + 2 ≤ fuel + w.session.nesting.stack.length) :
    ∃ m w', watch t fuel l mode w = some (m, w') := by
  induction fuel generalizing l mode w with
  | zero =>
    have bound := inOrder.stack.length_le
    omega
  | succ fuel ih =>
    rw [watch]
    split
    · exact ⟨_, _, rfl⟩
    · next content read =>
      split
      · exact ⟨_, _, rfl⟩
      · next tables missed =>
        split
        · exact ⟨_, _, rfl⟩
        · next level nesting pushed =>
          have deep : (w.beginning tables nesting).session.nesting.stack.length =
              w.session.nesting.stack.length + 1 := by
            obtain ⟨-, -, rfl⟩ := Nesting.push_some pushed
            exact List.length_append
          have fetches := exists_watchFetch (w.session.nesting.stack.length + 1)
            fun l mode v inOrder normal deep => ih inOrder (.inr normal) (by omega)
          obtain ⟨m, w', building⟩ := exists_buildWith Watched.counted
            (fun v h => ⟨⟨h.1.normal.withTables _, h.1.stack, h.1.logged⟩, h.2⟩) (fetches l) mode
            l.path content ⟨inOrder.beginning read pushed normal tables, deep⟩
          exact ⟨_, _, Option.map_eq_some_iff.mpr ⟨_, building, rfl⟩⟩

/-- The fuel that loading is given is enough for all files. -/
theorem fileCount_le_loadDepth (t : Tree) (project : Project) :
    t.fileCount + 2 ≤ loadDepth t project := by
  have files := t.fileCount_le_size
  have wide : 0 < 2 * project.extensions.length + 1 := Nat.succ_pos _
  have nodes := Nat.le_mul_of_pos_right (t.size + 1) wide
  rw [loadDepth]
  omega

/-- The load of a module ends with the fuel it is given. -/
theorem exists_load {atlas : Atlas} (kept : KeepsNormal atlas) (t : Tree) (l : Location)
    (mode : Mode) : ∃ m s', load t (loadDepth t atlas.project) l mode { atlas } = some (m, s') := by
  obtain ⟨m, w, watching⟩ : ∃ m w, watch t (loadDepth t atlas.project) l mode _ = some (m, w) :=
    exists_watch (.start kept) (.inl rfl) (fileCount_le_loadDepth t atlas.project)
  exact ⟨m, w.session, load_of_watch watching⟩

/-- Loading a module ends, whatever modules refer to each other and whatever is kept. While it goes
on, the modules being linked differ from each other and can be read, so that there are no more of
them than files and one. Every load leaves the stack as it found it. -/
theorem load_ends {project : Project} (slashless : Slashless project.extensions)
    (steps : List (Tree × Operation)) (t : Tree) (l : Location) (mode : Mode) :
    (∃ m w, (∀ fuel, t.fileCount + 2 ≤ fuel →
        watch t fuel l mode { session := { atlas := run project steps } } = some (m, w) ∧
        load t fuel l mode { atlas := run project steps } = some (m, w.session)) ∧
      load t (loadDepth t project) l mode { atlas := run project steps } = some (m, w.session) ∧
      ∀ stack ∈ w.stackLog, (stack.Pairwise fun p q => p.same q = false) ∧
        (∀ p ∈ stack, (t.read? p).isSome = true) ∧ stack.length ≤ t.fileCount + 1) ∧
    ∀ fuel s m s', load t fuel l mode s = some (m, s') → s'.nesting.stack = s.nesting.stack := by
  have inOrder : InOrder t { session := { atlas := run project steps } } :=
    .start (keepsNormal_run slashless steps)
  refine ⟨?_, fun fuel s m s' loading => Loads.stack ⟨fuel, loading⟩⟩
  obtain ⟨m, w, watching⟩ : ∃ m w, watch t (t.fileCount + 2) l mode _ = some (m, w) :=
    exists_watch inOrder (.inl rfl) (Nat.le_refl _)
  have watches : ∀ fuel, t.fileCount + 2 ≤ fuel →
      watch t fuel l mode { session := { atlas := run project steps } } = some (m, w) :=
    fun fuel enough => watch_of_le watching enough
  have loads : ∀ fuel, t.fileCount + 2 ≤ fuel →
      load t fuel l mode { atlas := run project steps } = some (m, w.session) :=
    fun fuel enough => load_of_watch (watches fuel enough)
  refine ⟨m, w, fun fuel enough => ⟨watches fuel enough, loads fuel enough⟩,
    loads _ (fileCount_le_loadDepth t project), fun stack member => ?_⟩
  have good := (inOrder.watches (.inl rfl) ⟨_, watching⟩).logged stack member
  exact ⟨good.apart, good.readable, good.length_le⟩

/-- An atlas that has loaded one module of the ring. -/
def ringAtlas : Atlas := run sample [(ringTree, .tableAt ⟨"/p/b.ts"⟩ .exportsOnly)]

theorem load_ends_ring :
    Slashless sample.extensions ∧
    ∃ (m : Option Linked) (w : Watched),
      watch ringTree 4 ⟨⟨"/p/a.ts"⟩, none⟩ .full { session := { atlas := ringAtlas } } =
        some (m, w) ∧
      ∀ stack ∈ w.stackLog, stack.length ≤ ringTree.fileCount + 1 := by
  have slashless : Slashless sample.extensions := by decide
  have two : ringTree.fileCount + 2 ≤ 4 := by decide +kernel
  obtain ⟨⟨m, w, loading, -, logged⟩, -⟩ := load_ends slashless
    [(ringTree, .tableAt ⟨"/p/b.ts"⟩ .exportsOnly)] ringTree ⟨⟨"/p/a.ts"⟩, none⟩ .full
  exact ⟨slashless, m, w, (loading 4 two).1, fun stack member => (logged stack member).2.2⟩

/-- While one module of the ring is loaded, both are being linked. -/
example : (watch ringTree 4 ⟨⟨"/p/a.ts"⟩, none⟩ .full
    { session := { atlas := { project := sample } } }).map (·.2.stackLog) =
      some [[⟨"/p/a.ts"⟩], [⟨"/p/a.ts"⟩, ⟨"/p/b.ts"⟩]] := by
  decide +kernel

end ModuleAtlas.Atlas
