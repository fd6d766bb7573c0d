import ModuleAtlas.Proofs.Locations

/-!
# Answers stand

A table is kept for a file, a mode and a content. What package context the file was reached in, what
the specifiers in it meant when it was linked, and which of them meant nothing has no part in it. So
the first answer for a file stands (`Standing`): it is given again, however the file is reached, as
long as the file has the same text and nothing makes the atlas forget it (`Standing.run`). Asked
for twice in a row, a file is not looked into the second time (`tableAt_again`).
-/

namespace ModuleAtlas.Atlas

open Draft (Mode)
open Resolution (Location)
open Symbols (Table)

/-! ## Looking up tables -/

namespace TableCache

variable {p q : Path} {mode mode' : Mode}

/-- Two paths and modes that tables are kept for alike. -/
def SameKey (p : Path) (mode : Mode) (q : Path) (mode' : Mode) : Prop :=
  p.same q = true ∧ mode = mode'

instance (p : Path) (mode : Mode) (q : Path) (mode' : Mode) : Decidable (SameKey p mode q mode') :=
  inferInstanceAs (Decidable (_ ∧ _))

theorem same_keyed_iff :
    KeptTable.keyed.same (p, mode) (q, mode') = true ↔ SameKey p mode q mode' := by
  have unfolded : KeptTable.keyed.same (p, mode) (q, mode') = (p.same q && mode == mode') := rfl
  rw [unfolded, Bool.and_eq_true, beq_iff_eq, SameKey]

theorem find?_sameKey (h : SameKey p mode q mode') (c : TableCache) :
    c.find? p mode = c.find? q mode' :=
  Keyed.find?_congr (same_keyed_iff.mpr h) c.entries

/-- What serves is what is kept, if it came from this content. -/
theorem get_fst (c : TableCache) (p : Path) (mode : Mode) (content : String) :
    (c.get p mode content).1 =
      ((c.find? p mode).filter (·.content = content)).map (·.module) := by
  unfold get
  split
  · next e found =>
    rw [found, Option.filter_some]
    split
    · next isContent => rw [if_pos (decide_eq_true isContent)]; rfl
    · next other => rw [if_neg (mt of_decide_eq_true other)]; rfl
  · next absent => rw [absent]; rfl

/-- A table that came from this content serves, and all that changes is that it is counted. -/
theorem get_of_find? {c : TableCache} {e : KeptTable} (found : c.find? p mode = some e) :
    c.get p mode e.content = (some e.module, { c with hits := c.hits + 1 }) := by
  rw [get, found]
  exact if_pos rfl

/-- Looking up a table drops it, if it came from another content, and no other. -/
theorem find?_get (c : TableCache) (p : Path) (mode : Mode) (content : String) (q : Path)
    (mode' : Mode) :
    (c.get p mode content).2.find? q mode' =
      if SameKey p mode q mode' then (c.find? p mode).filter (·.content = content)
      else c.find? q mode' := by
  unfold get
  split
  · next e found =>
    rw [found, Option.filter_some]
    split
    · next isContent =>
      rw [if_pos (decide_eq_true isContent)]
      split
      · next key => exact (find?_sameKey key c).symm.trans found
      · rfl
    · next other =>
      rw [if_neg (mt of_decide_eq_true other)]
      have dropped : _ = if KeptTable.keyed.same (p, mode) (q, mode') = true then none
          else c.find? q mode' := Keyed.find?_drop c.entries (p, mode) (q, mode')
      rw [if_congr same_keyed_iff rfl rfl] at dropped
      exact dropped
  · next absent =>
    rw [absent]
    split
    · next key => exact (find?_sameKey key c).symm.trans absent
    · rfl

/-- A module kept is found under its path, and the others as before. The entry keeps the spelling
of the path it had. -/
theorem find?_insert (c : TableCache) (p : Path) (mode : Mode) (content : String) (m : Linked)
    (q : Path) (mode' : Mode) :
    (c.insert p mode content m).find? q mode' =
      if SameKey p mode q mode' then
        some { (c.find? p mode).getD ⟨p, mode, content, m⟩ with content, module := m }
      else c.find? q mode' := by
  have put : KeptTable.keyed.find? (c.insert p mode content m).entries (q, mode') =
      if SameKey p mode q mode' then
        some (((c.find? p mode).map fun e => { e with content, module := m }).getD
          ⟨p, mode, content, m⟩)
      else c.find? q mode' := by
    rw [entries_insert, Keyed.find?_put, if_congr same_keyed_iff rfl rfl]
    · rfl
    · exact fun _ => rfl
    · rfl
  refine put.trans ?_
  cases c.find? p mode <;> rfl

/-- Dropping a path drops the tables it reports, and no other. -/
theorem find?_invalidate (c : TableCache) (p q : Path) (mode : Mode) :
    (c.invalidate p).2.find? q mode =
      if among (c.invalidate p).1 q = true then none else c.find? q mode := by
  have reported : among (c.invalidate p).1 q = among (dependentsOf c.entries p) q := by
    rw [Bool.eq_iff_iff, among_iff, among_iff]
    simp only [invalidate, mem_sortPaths]
  rw [reported, invalidate, find?, find?]
  dsimp only
  split
  · next dropped =>
    rw [List.find?_eq_none]
    intro e member isFor
    have kept := (List.mem_filter.mp member).2
    rw [among_congr (KeptTable.isFor_iff.mp isFor).1, dropped] at kept
    cases kept
  · next kept =>
    refine find?_filter_of_imp (fun e found => ?_) c.entries
    rw [among_congr (KeptTable.isFor_iff.mp found).1, Bool.not_eq_true', ← Bool.not_eq_true]
    exact kept

end TableCache

/-! ## Standing tables -/

/-- A module is kept for a path and a mode, as it came from a content. -/
def Standing (p : Path) (mode : Mode) (content : String) (m : Linked) (atlas : Atlas) : Prop :=
  ∃ e, atlas.tables.find? p mode = some e ∧ e.content = content ∧ e.module = m

section Standing

variable {t : Tree} {p : Path} {mode mode' : Mode} {content content' : String} {m : Linked}
  {atlas atlas' : Atlas} {l : Location}

theorem Standing.of_tables (h : Standing p mode content m atlas)
    (same : atlas'.tables = atlas.tables) : Standing p mode content m atlas' := by
  rwa [Standing, same]

theorem Standing.of_find? (h : Standing p mode content m atlas)
    (same : atlas'.tables.find? p mode = atlas.tables.find? p mode) :
    Standing p mode content m atlas' := by
  rwa [Standing, same]

/-- What stands serves for every spelling of its path. -/
theorem Standing.serves (h : Standing p mode content m atlas)
    (key : TableCache.SameKey l.path mode' p mode) :
    atlas.tables.get l.path mode' content =
      (some m, { atlas.tables with hits := atlas.tables.hits + 1 }) := by
  obtain ⟨e, found, rfl, rfl⟩ := h
  exact TableCache.get_of_find? ((TableCache.find?_sameKey key atlas.tables).trans found)

/-- Looking up a table for the content of the tree drops nothing that stands there. -/
theorem Standing.get (h : Standing p mode content m atlas) (read : t.read? p = some content)
    (read' : t.read? l.path = some content') (mode' : Mode) :
    Standing p mode content m
      { atlas with tables := (atlas.tables.get l.path mode' content').2 } := by
  refine h.of_find? ?_
  rw [TableCache.find?_get]
  split
  · next key =>
    obtain ⟨e, found, isContent, -⟩ := h
    rw [Tree.read?_of_same key.1 read' read, TableCache.find?_sameKey key, found,
      Option.filter_some, if_pos (decide_eq_true isContent)]
  · rfl

/-- Keeping a module leaves what is kept for other paths and modes. -/
theorem find?_keep_other (other : ¬ TableCache.SameKey l.path mode' p mode) (content : String)
    (complete : Bool) (r : Option Linked) (s : Session) :
    (keep l mode' content complete r s).atlas.tables.find? p mode =
      s.atlas.tables.find? p mode := by
  unfold keep
  split
  · split
    · exact (TableCache.find?_insert ..).trans (if_neg other)
    · rfl
  · rfl

/-- Loading leaves what stands for the content of the tree: its file is not read again. -/
theorem Standing.loads (read : t.read? p = some content) {s s' : Session} {r : Option Linked}
    (h : Loads t l mode' s r s') (standing : Standing p mode content m s.atlas) :
    Standing p mode content m s'.atlas := by
  refine load_induction (P := fun _ _ s _ s' => Standing p mode content m s.atlas →
    Standing p mode content m s'.atlas) ?_ ?_ ?_ ?_ h standing
  · exact fun _ standing => standing
  · intro l mode' s content' _ tables read' hit standing
    have kept := standing.get read read' mode'
    rwa [hit] at kept
  · intro l mode' s content' tables nesting read' missed _ standing
    have kept := standing.get read read' mode'
    rwa [missed] at kept
  · intro l mode' s content' tables level nesting r s' read' missed _ building standing
    have begun := standing.get read read' mode'
    rw [missed] at begun
    have built : Standing p mode content m s'.atlas := by
      refine building.keeps (I := fun s : Session => Standing p mode content m s.atlas)
        (fun s standing => standing) ?_ begun
      rintro specifier mode s f s' (⟨atlas, found, rfl, rfl⟩ | ⟨target, atlas, r, found, load, rfl⟩)
        standing
      · exact standing.of_tables (resolve_cases found).2.1
      · exact load.2 (standing.of_tables (resolve_cases found).2.1)
    -- what stands would have served, so the module that was built is another
    have other : ¬ TableCache.SameKey l.path mode' p mode := by
      intro key
      have served := standing.serves key
      rw [← Tree.read?_of_same key.1 read' read, missed] at served
      cases served
    exact built.of_find? (find?_keep_other other ..)

/-- A query leaves what stands for the content of the tree. -/
theorem Standing.query (read : t.read? p = some content) {operation : Operation}
    (query : operation.isQuery = true) (standing : Standing p mode content m atlas) :
    Standing p mode content m (perform t operation atlas).2 :=
  query_keeps (I := Standing p mode content m)
    (fun resolving standing => standing.of_tables (resolve_cases resolving).2.1)
    (fun loads standing => Standing.loads read loads standing) query atlas standing

/-- So do all queries. -/
theorem Standing.run {project : Project} {steps : List (Tree × Operation)} {more : List Operation}
    (read : t.read? p = some content) (queries : ∀ operation ∈ more, operation.isQuery = true)
    (standing : Standing p mode content m (run project steps)) :
    Standing p mode content m (Atlas.run project (steps ++ more.map (t, ·))) := by
  induction more generalizing steps with
  | nil => rwa [List.map_nil, List.append_nil]
  | cons operation more ih =>
    obtain ⟨query, queries⟩ := List.forall_mem_cons.mp queries
    rw [List.map_cons, List.append_cons]
    refine ih queries ?_
    rw [run_append]
    exact standing.query read query

end Standing

/-! ## Answers -/

section Answers

variable {t : Tree} {l : Location} {mode : Mode} {atlas : Atlas} {table : Table}

/-- A module that is loaded alone is complete, and is kept. -/
theorem standing_of_loads {s s' : Session} {r : Option Linked} (h : Loads t l mode s r s')
    (alone : s.nesting.stack = []) {m : Linked} (linked : r = some m) :
    ∃ content, t.read? l.path = some content ∧ Standing l.path mode content m s'.atlas := by
  refine load_induction (P := fun l mode s r s' => s.nesting.stack = [] → r = some m →
    ∃ content, t.read? l.path = some content ∧ Standing l.path mode content m s'.atlas)
    ?_ ?_ ?_ ?_ h alone linked
  · exact fun _ _ h => nomatch h
  · rintro l mode s content _ tables read hit _ ⟨⟩
    refine ⟨content, read, ?_⟩
    have served := TableCache.get_fst s.atlas.tables l.path mode content
    have left := TableCache.find?_get s.atlas.tables l.path mode content l.path mode
    rw [if_pos ⟨Path.same_refl _, rfl⟩] at left
    rw [hit] at served left
    obtain ⟨e, found, rfl⟩ := Option.map_eq_some_iff.mp served.symm
    have isContent := (Option.filter_eq_some_iff.mp found).2
    exact ⟨e, left.trans found, of_decide_eq_true isContent, rfl⟩
  · exact fun _ _ _ _ h => nomatch h
  · rintro l mode s content tables level nesting _ s' read _ pushed _ alone rfl
    refine ⟨content, read, ?_⟩
    obtain ⟨-, rfl, -⟩ := Nesting.push_some pushed
    -- no module is around it at which a reference could have been cut
    have complete :
        s'.nesting.isComplete ⟨s.nesting.stack.length, s.nesting.outermostCut⟩ = true := by
      rw [alone, Nesting.isComplete]
      split <;> simp
    rw [Session.finish, complete]
    refine ⟨_, (TableCache.find?_insert ..).trans (if_pos ⟨Path.same_refl _, rfl⟩), rfl, rfl⟩

theorem standing_of_loadTable (h : (atlas.loadTable t l mode).1 = some table) :
    ∃ content m, t.read? l.path = some content ∧
      Standing l.path mode content m (atlas.loadTable t l mode).2 ∧ m.table = table := by
  unfold loadTable at h ⊢
  split at h
  · next m s' loading =>
    obtain ⟨m, rfl, isTable⟩ := Option.map_eq_some_iff.mp h
    obtain ⟨content, read, standing⟩ := standing_of_loads ⟨_, loading⟩ rfl rfl
    exact ⟨content, m, read, standing, isTable⟩
  · cases h

/-- What stands is answered, in whatever context its file is reached, and nothing else is done. -/
theorem loadTable_of_standing {p : Path} {content : String} {m : Linked}
    (standing : Standing p mode content m atlas) (same : l.path.same p = true)
    (read : t.read? l.path = some content) :
    atlas.loadTable t l mode =
      (some m.table,
        { atlas with tables := { atlas.tables with hits := atlas.tables.hits + 1 } }) := by
  have served := standing.serves ⟨same, rfl⟩
  have loading : load t (loadDepth t atlas.project) l mode { atlas } = some (some m, _) :=
    load_succ_iff.mpr (.hit read served)
  rw [loadTable, loading]
  rfl

/-- The module that a query asks the table of. -/
def Operation.module? (t : Tree) (atlas : Atlas) : Operation → Option (Location × Mode)
  | .tableAt path mode => some (⟨path, none⟩, mode)
  | .importModule specifier file => (atlas.resolve t specifier file none).1.map (·, .full)
  | _ => none

/-- A query for the table of a module loads the module, once the module is found. -/
theorem perform_of_module? {operation : Operation}
    (asked : operation.module? t atlas = some (l, mode)) :
    ∃ atlas' : Atlas, atlas'.tables = atlas.tables ∧
      perform t operation atlas =
        (.table (atlas'.loadTable t l mode).1, (atlas'.loadTable t l mode).2) := by
  cases operation with
  | tableAt path mode =>
    cases asked
    exact ⟨atlas, rfl, rfl⟩
  | importModule specifier file =>
    obtain ⟨l, found, whole⟩ := Option.map_eq_some_iff.mp asked
    cases whole
    refine ⟨(atlas.resolve t specifier file none).2, (resolve_cases rfl).2.1, ?_⟩
    rw [perform, importModule]
    cases resolving : atlas.resolve t specifier file none with
    | mk r atlas' =>
      rw [resolving] at found
      cases found
      rfl
  | _ => cases asked

/-- What is answered stands. -/
theorem standing_of_answer {operation : Operation}
    (asked : operation.module? t atlas = some (l, mode))
    (answered : (perform t operation atlas).1 = .table (some table)) :
    ∃ content m, t.read? l.path = some content ∧
      Standing l.path mode content m (perform t operation atlas).2 ∧ m.table = table := by
  obtain ⟨atlas', -, whole⟩ := perform_of_module? asked
  rw [whole] at answered ⊢
  exact standing_of_loadTable (Answer.table.inj answered)

/-- What stands is answered. -/
theorem answer_of_standing {operation : Operation} {p : Path} {content : String} {m : Linked}
    (asked : operation.module? t atlas = some (l, mode)) (same : l.path.same p = true)
    (read : t.read? l.path = some content) (standing : Standing p mode content m atlas) :
    (perform t operation atlas).1 = .table (some m.table) := by
  obtain ⟨atlas', tables, whole⟩ := perform_of_module? asked
  rw [whole, loadTable_of_standing (standing.of_tables tables) same read]

/-- While the tree does not change, the first table that is answered for a file is answered for it
ever after, whatever package context the file was reached in then and is reached in now. -/
theorem first_answer_stands (project : Project) (before later : List Operation)
    (first last : Operation) {l' : Location}
    (queries : ∀ operation ∈ later, operation.isQuery = true)
    (asked : first.module? t (run project (before.map (t, ·))) = some (l, mode))
    (answered : (perform t first (run project (before.map (t, ·)))).1 = .table (some table))
    (again : last.module? t (run project ((before ++ first :: later).map (t, ·))) =
      some (l', mode))
    (same : l'.path.same l.path = true) (there : t.isFile l'.path = true) :
    (perform t last (run project ((before ++ first :: later).map (t, ·)))).1 =
      .table (some table) := by
  obtain ⟨content, m, read, standing, rfl⟩ := standing_of_answer asked answered
  have kept : Standing l.path mode content m
      (run project ((before ++ first :: later).map (t, ·))) := by
    rw [List.map_append, List.map_cons, List.append_cons]
    refine Standing.run read queries ?_
    rw [run_append]
    exact standing
  exact answer_of_standing again same (Tree.read?_of_isFile same there read) kept

/-- A table that was answered is answered again from what is kept, whatever the atlas kept before
and whatever cycles the module is part of: the table is counted as one hit, and nothing else of the
atlas changes. No file is parsed and no specifier is looked up. -/
theorem tableAt_again {path : Path} {atlas' : Atlas}
    (answered : atlas.tableAt t path mode = (some table, atlas')) :
    atlas'.tableAt t path mode =
      (some table,
        { atlas' with tables := { atlas'.tables with hits := atlas'.tables.hits + 1 } }) := by
  have first : (atlas.loadTable t ⟨path, none⟩ mode).1 = some table := congrArg Prod.fst answered
  have left : (atlas.loadTable t ⟨path, none⟩ mode).2 = atlas' := congrArg Prod.snd answered
  obtain ⟨content, m, read, standing, rfl⟩ := standing_of_loadTable first
  rw [left] at standing
  exact loadTable_of_standing standing (Path.same_refl path) read

end Answers

/-- Of two modules that export everything of each other, the one that is asked for is complete,
though a reference to it was cut. -/
theorem tableAt_again_ring :
    ∃ (table : Table) (atlas' : Atlas),
      ({ project := sample } : Atlas).tableAt ringTree ⟨"/p/a.ts"⟩ .full = (some table, atlas') ∧
      atlas'.tables.reads = 2 ∧
      atlas'.tableAt ringTree ⟨"/p/a.ts"⟩ .full =
        (some table,
          { atlas' with tables := { atlas'.tables with hits := atlas'.tables.hits + 1 } }) := by
  have evaluated :
      (({ project := sample } : Atlas).tableAt ringTree ⟨"/p/a.ts"⟩ .full).1.isSome = true ∧
      (({ project := sample } : Atlas).tableAt ringTree ⟨"/p/a.ts"⟩ .full).2.tables.reads = 2 := by
    decide +kernel
  obtain ⟨table, first⟩ := Option.isSome_iff_exists.mp evaluated.1
  have answered : ({ project := sample } : Atlas).tableAt ringTree ⟨"/p/a.ts"⟩ .full =
      (some table, _) := Prod.ext first rfl
  exact ⟨table, _, answered, evaluated.2, tableAt_again answered⟩

/-- Two versions of a package `b`: one that the package `a` has for itself, and one of the
project. -/
def nestedTree : Tree :=
  ⟨[(["p"], .directory),
    (["p", "node_modules"], .directory),
    (["p", "node_modules", "a"], .directory),
    (["p", "node_modules", "a", "package.json"], .file (.text "\x7b\"types\":\"a.ts\"\x7d")),
    (["p", "node_modules", "a", "a.ts"], .file (.text "export * from 'b';")),
    (["p", "node_modules", "a", "node_modules"], .directory),
    (["p", "node_modules", "a", "node_modules", "b"], .directory),
    (["p", "node_modules", "a", "node_modules", "b", "package.json"],
      .file (.text "\x7b\"types\":\"b.ts\"\x7d")),
    (["p", "node_modules", "a", "node_modules", "b", "b.ts"], .file (.text "export let nested;")),
    (["p", "node_modules", "b"], .directory),
    (["p", "node_modules", "b", "package.json"], .file (.text "\x7b\"types\":\"b.ts\"\x7d")),
    (["p", "node_modules", "b", "b.ts"], .file (.text "export let hoisted;"))]⟩

/-- The question for the module of the package by its path, and so in no context. -/
def askByPath : Operation := .tableAt ⟨"/p/node_modules/a/a.ts"⟩ .full

/-- The question for the module of the package by the name of the package. -/
def askByName : Operation := .importModule "a" ⟨"/p/m.ts"⟩

/-- The table of a module that has one variable. -/
def tableOf (name : String) : Table :=
  { exports := [{ name, declaration := .variableDecl none none (some ("let " ++ name ++ ";")) }] }

theorem first_answer_stands_nested :
    (perform nestedTree askByName (run sample [(nestedTree, askByPath)])).1 =
      .table (some (tableOf "hoisted")) := by
  have asked : askByPath.module? nestedTree { project := sample } =
      some (⟨⟨"/p/node_modules/a/a.ts"⟩, none⟩, .full) := rfl
  have answered : (perform nestedTree askByPath { project := sample }).1 =
      .table (some (tableOf "hoisted")) := by
    decide +kernel
  -- the same file, now in the context of its package
  have again : askByName.module? nestedTree (run sample [(nestedTree, askByPath)]) =
      some (⟨⟨"/p/node_modules/a/a.ts"⟩, some ⟨"/p/node_modules/a/node_modules"⟩⟩, .full) := by
    decide +kernel
  exact first_answer_stands sample [] [] askByPath askByName (fun _ member => nomatch member) asked
    answered again (by decide +kernel) (by decide +kernel)

/-- A new atlas links the module against the version that its package has for itself. -/
theorem answer_by_name_after_path_nested :
    (perform nestedTree askByName (run sample [(nestedTree, askByPath)])).1 ≠
      (perform nestedTree askByName { project := sample }).1 := by
  decide +kernel

end ModuleAtlas.Atlas
