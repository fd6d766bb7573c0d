import ModuleAtlas.Proofs.Agreement
import ModuleAtlas.Proofs.Freshness

/-!
# Changes that tables do not notice

A table is dropped when a file is forgotten that it was linked against. Two kinds of change have a
part in a table without being such a file. A manifest says which file a package name means, but is
no module: with it the locations and packages are forgotten, so that every specifier is resolved
anew, but the tables stay (`answers_after_manifest_change`). And a file that was not there when a
specifier was resolved is no dependency of what came of it: the specifier is resolved anew, but the
tables linked without the file stay (`answers_after_new_file`).
-/

namespace ModuleAtlas.Atlas

open Draft (Mode)
open Resolution (Location Slashless aliasFiles projectAliases)
open Symbols (Table)

variable {t t' : Tree} {project : Project} {q : Path}

/-! ## Standing through a change -/

theorem invalidate_fst (q : Path) (atlas : Atlas) :
    (atlas.invalidate q).1 = (atlas.tables.invalidate q).1 := by
  unfold Atlas.invalidate
  dsimp only
  split
  · rfl
  · split <;> rfl

/-- Forgetting about a file, but one of aliases, leaves what stands for a path that it does not
report. -/
theorem Standing.invalidate {p : Path} {mode : Mode} {content : String} {m : Linked} {atlas : Atlas}
    (standing : Standing p mode content m atlas) (other : ¬ ConfiguresAliases atlas.project q)
    (kept : among (atlas.invalidate q).1 p = false) :
    Standing p mode content m (atlas.invalidate q).2 := by
  have tables : (atlas.invalidate q).2.tables = (atlas.tables.invalidate q).2 := by
    unfold Atlas.invalidate
    dsimp only
    rw [if_neg (mt configuresAliases_iff.mp other)]
    split <;> rfl
  rw [invalidate_fst] at kept
  refine standing.of_find? ?_
  rw [tables, TableCache.find?_invalidate, kept]
  rfl

/-- A table answered before a change is answered after it, where the change is one of another file
than the module's, and forgetting about what changed leaves what stands for the module. -/
theorem answer_stands {steps : List (Tree × Operation)} {later more : List Operation}
    {change : Operation} {p : Path} {mode : Mode} {table : Table}
    (queries : ∀ operation ∈ later, operation.isQuery = true)
    (queries' : ∀ operation ∈ more, operation.isQuery = true)
    (answered : (perform t (.tableAt p mode) (run project steps)).1 = .table (some table))
    (unchanged : ∀ content, t.read? p = some content → t'.read? p = some content)
    (spared : ∀ content m, t.read? p = some content →
      Standing p mode content m (run project (steps ++ (t, .tableAt p mode) :: later.map (t, ·))) →
      Standing p mode content m (run project
        (steps ++ (t, .tableAt p mode) :: later.map (t, ·) ++ [(t', change)]))) :
    (perform t' (.tableAt p mode) (run project
      (steps ++ (t, .tableAt p mode) :: later.map (t, ·) ++ (t', change) ::
        more.map (t', ·)))).1 = .table (some table) := by
  obtain ⟨content, m, read, standing, rfl⟩ := standing_of_answer rfl answered
  have before : Standing p mode content m
      (run project (steps ++ (t, .tableAt p mode) :: later.map (t, ·))) := by
    rw [List.append_cons]
    refine Standing.run read queries ?_
    rw [run_append]
    exact standing
  have after : Standing p mode content m (run project
      (steps ++ (t, .tableAt p mode) :: later.map (t, ·) ++ (t', change) :: more.map (t', ·))) := by
    rw [List.append_cons _ (t', change)]
    exact Standing.run (unchanged content read) queries' (spared content m read before)
  exact answer_of_standing rfl (Path.same_refl p) (unchanged content read) after

/-! ## Manifests -/

/-- A path is that of a file that says where packages are. -/
def ConfiguresPackages (q : Path) : Prop := q.fileName?.getD "" ∈ packageFiles

instance (q : Path) : Decidable (ConfiguresPackages q) :=
  inferInstanceAs (Decidable (_ ∈ _))

theorem not_mem_aliasFiles {name : String} (member : name ∈ packageFiles) :
    name ∉ aliasFiles := by
  rw [packageFiles, List.mem_cons, List.mem_singleton] at member
  rcases member with rfl | rfl <;> decide

theorem ConfiguresPackages.not_aliases (h : ConfiguresPackages q) :
    ¬ ConfiguresAliases project q :=
  fun aliases => not_mem_aliasFiles h aliases.1

/-- Forgetting about a manifest forgets all locations and packages. -/
theorem invalidate_of_packages (h : ConfiguresPackages q) (atlas : Atlas) :
    (atlas.invalidate q).2 =
      { atlas with
        tables := (atlas.tables.invalidate q).2
        locations := atlas.locations.clear
        finds := [] } := by
  unfold Atlas.invalidate
  dsimp only
  rw [if_neg (mt configuresAliases_iff.mp h.not_aliases), if_pos (List.contains_iff_mem.mpr h)]
  rfl

/-- A change of a manifest leaves the aliases as they are. -/
theorem Edit.projectAliases_of_packages (edit : Edit t q t') (h : ConfiguresPackages q) :
    projectAliases t' project.root = projectAliases t project.root := by
  obtain ⟨place, located, edited⟩ := edit.edited
  refine Resolution.projectAliases_edited edited fun name member there => ?_
  have named : (project.root / name).fileName? = some name :=
    Path.fileName?_join (isName_of_mem_aliasFiles member)
  have last := Tree.getLast?_of_locate? there named
  cases own : q.fileName? with
  | none =>
    rw [ConfiguresPackages, own] at h
    exact absurd h (by decide)
  | some n =>
    rw [ConfiguresPackages, own, Option.getD_some] at h
    rw [Tree.getLast?_of_locate? located own] at last
    exact not_mem_aliasFiles h (Option.some.inj last ▸ member)

/-- After a change of a manifest, with the manifest forgotten, an atlas resolves as a new one. -/
theorem resolveAlike_of_packages (edit : Edit t q t') (h : ConfiguresPackages q) {atlas : Atlas}
    (settled : Settled t project atlas) :
    ResolveAlike t' { project } (atlas.invalidate q).2 := by
  rw [invalidate_of_packages h]
  refine ⟨settled.sameProject.symm, ?_, rfl, rfl⟩
  exact (settled.aliasesIn_of_eq (edit.projectAliases_of_packages h)).symm

/-- Another path than that of the changed file leads to the same text. -/
theorem Edit.read?_eq (edit : Edit t q t') {p : Path} (other : p.normalize ≠ q) :
    t'.read? p = t.read? p := by
  obtain ⟨place, located, edited⟩ := edit.edited
  refine edited.read?_eq fun there => other ?_
  exact Tree.locate?_inj (Path.isNormal_normalize (Tree.isAbsolute_of_locate? there)) edit.normal
    (Tree.locate?_normalize there) located

/-- After a change of a manifest of which the atlas was told, every specifier is resolved as by a
new atlas, and so is every module answered that has no table of its files left. But a module that
was answered before, and is not reported as dropped, is answered as before. -/
theorem answers_after_manifest_change (slashless : Slashless project.extensions)
    (edit : Edit t q t') (manifest : ConfiguresPackages q) (asked : List Operation) :
    (∀ specifier file context,
      ((run project (asked.map (t, ·) ++ [(t', .invalidate q)])).resolve t' specifier file
        context).1 = (({ project } : Atlas).resolve t' specifier file context).1) ∧
    (∀ p mode,
      (∀ file ∈ filesOf t' project ⟨p, none⟩ mode, ∀ mode',
        (run project (asked.map (t, ·) ++ [(t', .invalidate q)])).tables.find? file mode' = none) →
      ((run project (asked.map (t, ·) ++ [(t', .invalidate q)])).tableAt t' p mode).1 =
        (({ project } : Atlas).tableAt t' p mode).1) ∧
    ∀ (before later more : List Operation) p mode table,
      asked = before ++ .tableAt p mode :: later →
      (∀ operation ∈ later, operation.isQuery = true) →
      (∀ operation ∈ more, operation.isQuery = true) →
      (perform t (.tableAt p mode) (run project (before.map (t, ·)))).1 = .table (some table) →
      p.normalize ≠ q → among ((run project (asked.map (t, ·))).invalidate q).1 p = false →
      (perform t' (.tableAt p mode) (run project
        (asked.map (t, ·) ++ (t', .invalidate q) :: more.map (t', ·)))).1 =
          .table (some table) := by
  have settled := settled_run t project asked
  have told : run project (asked.map (t, ·) ++ [(t', .invalidate q)]) =
      ((run project (asked.map (t, ·))).invalidate q).2 := by
    rw [run_append]
    rfl
  have alike : ResolveAlike t' { project } (run project (asked.map (t, ·) ++
      [(t', .invalidate q)])) := by
    rw [told]
    exact resolveAlike_of_packages edit manifest settled
  refine ⟨fun specifier file context => ?_, fun p mode unkept => ?_, ?_⟩
  · exact (alike.resolve specifier file context).1.symm
  · rw [tableAt, tableAt]
    exact loadTable_of_unkept slashless alike unkept
  · rintro before later more p mode table rfl queries queries' answered other kept
    rw [List.map_append, List.map_cons] at kept settled ⊢
    refine answer_stands queries queries' answered (fun content read => ?_)
      fun content m _ before => ?_
    · rw [edit.read?_eq other, read]
    · rw [run_append]
      exact before.invalidate (settled.sameProject ▸ manifest.not_aliases) kept

/-- A module that exports everything of a package, and a package that has two modules and means the
one of the given name. -/
def libraryTree (entry : String) : Tree :=
  ⟨[(["p"], .directory),
    (["p", "main.ts"], .file (.text "export * from 'lib';")),
    (["p", "node_modules"], .directory),
    (["p", "node_modules", "lib"], .directory),
    (["p", "node_modules", "lib", "a.ts"], .file (.text "export let a;")),
    (["p", "node_modules", "lib", "b.ts"], .file (.text "export let b;")),
    (["p", "node_modules", "lib", "package.json"],
      .file (.text ("\x7b\"types\":\"" ++ entry ++ "\"\x7d")))]⟩

/-- The manifest of the package. -/
def libraryManifest : Path := ⟨"/p/node_modules/lib/package.json"⟩

theorem answers_after_manifest_change_library :
    ConfiguresPackages libraryManifest ∧
    Edit (libraryTree "a.ts") libraryManifest (libraryTree "b.ts") ∧
    (perform (libraryTree "b.ts") askMain (run sample
      [(libraryTree "a.ts", askMain), (libraryTree "b.ts", .invalidate libraryManifest)])).1 =
        .table (some (tableOf "a")) := by
  have manifest : ConfiguresPackages libraryManifest := by decide +kernel
  have edit : Edit (libraryTree "a.ts") libraryManifest (libraryTree "b.ts") :=
    ⟨by decide +kernel, by decide +kernel,
      .inr ⟨.text "\x7b\"types\":\"b.ts\"\x7d", by decide +kernel⟩⟩
  have slashless : Slashless sample.extensions := by decide
  obtain ⟨-, -, stands⟩ := answers_after_manifest_change slashless edit manifest [askMain]
  have answered : (perform (libraryTree "a.ts") askMain { project := sample }).1 =
      .table (some (tableOf "a")) := by
    decide +kernel
  have notDropped : among ((run sample [(libraryTree "a.ts", askMain)]).invalidate
      libraryManifest).1 ⟨"/p/main.ts"⟩ = false := by
    decide +kernel
  exact ⟨manifest, edit, stands [] [] [] _ _ _ rfl (fun _ member => nomatch member)
    (fun _ member => nomatch member) answered (by decide +kernel) notDropped⟩

/-- A new atlas links the first module against the one that the manifest means now. -/
theorem answer_after_manifest_change_library :
    (perform (libraryTree "b.ts") askMain (run sample
      [(libraryTree "a.ts", askMain), (libraryTree "b.ts", .invalidate libraryManifest)])).1 ≠
      (perform (libraryTree "b.ts") askMain { project := sample }).1 := by
  decide +kernel

/-! ## New files -/

/-- No table is one of a path, nor linked against it. -/
def NoTableOf (q : Path) (atlas : Atlas) : Prop :=
  ∀ e ∈ atlas.tables.entries, e.path.same q = false ∧ among e.module.dependencies q = false

/-- Where no file has a path, nothing that was asked for led there. -/
theorem among_linkedWith_false {own : Path} {d : Draft} {fs : List Fetched}
    (h : ∀ f ∈ fs, among f.dependencies q = false) :
    among (linkedWith own d fs).dependencies q = false := by
  rw [← Bool.not_eq_true, linkedWith, among_dependencySet]
  rintro ⟨asked, -⟩
  obtain ⟨p, member, same⟩ := among_iff.mp asked
  obtain ⟨f, inside, depends⟩ := List.mem_flatMap.mp member
  have apart := h f inside
  rw [among_iff.mpr ⟨p, depends, same⟩] at apart
  cases apart

/-- What a load does where no file has the path `q`: nothing of it comes from `q`. -/
def LoadsApart (q : Path) (s : Session) (r : Option Linked) (s' : Session) : Prop :=
  NoTableOf q s.atlas →
    NoTableOf q s'.atlas ∧ ∀ m, r = some m → among m.dependencies q = false

section NewFile

variable (away : ∀ p, t.isFile p = true → p.same q = false)
include away

theorem NoTableOf.answer {l : Location} {specifier : String} {mode : Mode} {s s' : Session}
    {f : Fetched}
    (answer : LoadAnswer t (fun l mode s r s' => Loads t l mode s r s' ∧ LoadsApart q s r s') l
      specifier mode s f s') (start : NoTableOf q s.atlas) :
    NoTableOf q s'.atlas ∧ among f.dependencies q = false := by
  rcases answer with ⟨atlas, found, rfl, rfl⟩ | ⟨target, atlas, r, found, ⟨-, load⟩, rfl⟩
  · exact ⟨fun e member => start e ((resolve_cases found).2.1 ▸ member), rfl⟩
  · obtain ⟨kept, apart⟩ := load fun e member => start e ((resolve_cases found).2.1 ▸ member)
    refine ⟨kept, ?_⟩
    have there := away target.path (resolve_isFile found)
    cases r with
    | none => exact Bool.or_eq_false_iff.mpr ⟨there, rfl⟩
    | some m => exact Bool.or_eq_false_iff.mpr ⟨there, apart m rfl⟩

theorem NoTableOf.loads {l : Location} {mode : Mode} {s s' : Session} {r : Option Linked}
    (h : Loads t l mode s r s') : LoadsApart q s r s' := by
  refine load_induction (P := fun _ _ s r s' => LoadsApart q s r s') ?_ ?_ ?_ ?_ h
  · exact fun _ start => ⟨start, fun _ h => nomatch h⟩
  · intro l mode s content m tables _ hit start
    obtain ⟨unchanged, e, member, -, -, -, rfl⟩ := TableCache.get_hit hit
    refine ⟨fun e member => start e (unchanged ▸ member), ?_⟩
    rintro _ ⟨⟩
    exact (start e member).2
  · intro l mode s content tables nesting _ missed _ start
    exact ⟨fun e member => start e (TableCache.mem_of_get missed member), fun _ h => nomatch h⟩
  · intro l mode s content tables level nesting r s' read missed _ building start
    have begun : NoTableOf q (s.withTables tables).atlas :=
      fun e member => start e (TableCache.mem_of_get missed member)
    have own : l.path.same q = false :=
      away l.path (Tree.isFile_of_read? read)
    obtain ⟨kept, apart⟩ :
        NoTableOf q s'.atlas ∧ ∀ m, r = some m → among m.dependencies q = false := by
      cases building with
      | unsupported _ => exact ⟨begun, fun _ h => nomatch h⟩
      | plain _ _ =>
        refine ⟨begun, ?_⟩
        rintro _ ⟨⟩
        rfl
      | linked _ _ answered =>
        obtain ⟨kept, all⟩ := answered.keeps_all (I := fun s : Session => NoTableOf q s.atlas)
          (J := fun f => among f.dependencies q = false) rfl
          (fun answer start => NoTableOf.answer away answer start) begun
        refine ⟨kept, ?_⟩
        rintro _ ⟨⟩
        exact among_linkedWith_false all
    refine ⟨fun e member => ?_, apart⟩
    rcases mem_keep member with ⟨member, -⟩ | ⟨-, -, -, linked, isOwn | ⟨old, member, isOld⟩⟩
    · exact kept e member
    · exact ⟨isOwn ▸ own, apart _ linked⟩
    · exact ⟨isOld ▸ (kept old member).1, apart _ linked⟩

/-- While no file has a path, no table comes from it. -/
theorem noTableOf_run (project : Project) (asked : List Operation) :
    NoTableOf q (run project (asked.map (t, ·))) := by
  refine run_keeps_on (fun e member => nomatch member) (fun operation atlas kept => ?_) asked
  refine perform_keeps (I := NoTableOf q) (fun resolving kept e member => ?_)
    (fun loads kept => (NoTableOf.loads away loads kept).1)
    (fun forgets kept e member => kept e (forgets.tables member)) operation atlas kept
  exact kept e ((resolve_cases resolving).2.1 ▸ member)

end NewFile

/-- What no table comes from can be forgotten without dropping another path. -/
theorem dependentsOf_of_noTableOf {atlas : Atlas} (h : NoTableOf q atlas) :
    dependentsOf atlas.tables.entries q = [q] := by
  have apart : ∀ e ∈ atlas.tables.entries, addDependent [q] e = [q] := by
    intro e member
    have independent : e.module.dependencies.any (among [q]) = false := by
      rw [← Bool.not_eq_true, List.any_eq_true]
      rintro ⟨d, depends, same⟩
      rw [among, List.any_cons, List.any_nil, Bool.or_false] at same
      have none := (h e member).2
      rw [among_iff.mpr ⟨d, depends, Path.same_symm same⟩] at none
      cases none
    rw [addDependent, independent, Bool.and_false, if_neg Bool.false_ne_true]
  have round : atlas.tables.entries.foldl addDependent [q] = [q] := by
    refine List.foldlRecOn (motive := (· = [q])) _ _ rfl ?_
    rintro _ rfl e member
    exact apart e member
  rw [dependentsOf]
  generalize atlas.tables.entries.length + 1 = rounds
  induction rounds with
  | zero => rfl
  | succ rounds ih => rw [dependentsWithin, round, ih]

theorem among_invalidate_of_noTableOf {atlas : Atlas} (h : NoTableOf q atlas) (p : Path) :
    among (atlas.invalidate q).1 p = q.same p := by
  rw [Bool.eq_iff_iff, invalidate_fst, TableCache.invalidate, dependentsOf_of_noTableOf h,
    among_iff]
  simp [mem_sortPaths]

/-- All locations are files of a tree. -/
def LocatesFiles (t : Tree) (atlas : Atlas) : Prop :=
  ∀ e ∈ atlas.locations.entries, t.isFile e.2.path = true

theorem LocatesFiles.resolve {atlas atlas' : Atlas} {specifier : String} {file : Path}
    {context : Option Path} {r : Option Location} (h : LocatesFiles t atlas)
    (resolving : atlas.resolve t specifier file context = (r, atlas')) : LocatesFiles t atlas' := by
  intro e member
  obtain ⟨-, -, outcome⟩ := resolve_cases resolving
  rcases outcome with ⟨k, l, -, -, -, -, -, fewer⟩ | ⟨-, -, fewer⟩
  · exact h e (fewer e member)
  · rcases fewer e member with member | ⟨-, rfl⟩
    · exact h e member
    · exact resolve_isFile resolving

theorem locatesFiles_run (t : Tree) (project : Project) (asked : List Operation) :
    LocatesFiles t (run project (asked.map (t, ·))) := by
  refine run_keeps_on (fun e member => nomatch member) (fun operation atlas kept => ?_) asked
  refine perform_keeps (fun resolving kept => kept.resolve resolving) (fun loads kept => ?_)
    (fun forgets kept e member => kept e (forgets.locations member)) operation atlas kept
  exact loads.keeps (fun _ kept => kept) (fun resolving kept => kept.resolve resolving) kept

/-- A relative specifier that meant no file in one tree is looked for in the other. -/
theorem resolve_of_unmeant {atlas : Atlas} {specifier : String} {file : Path}
    (settled : Settled t project atlas) (files : LocatesFiles t atlas)
    (aliases : projectAliases t' project.root = projectAliases t project.root)
    (relative : IsRelative t project specifier)
    (unmeant : fileMeant t project file specifier = none) (context : Option Path) :
    (atlas.resolve t' specifier file context).1 =
      (fileMeant t' project file specifier).map (⟨·, context⟩) := by
  obtain ⟨r, atlas', resolving⟩ : ∃ r atlas',
      atlas.resolve t' specifier file context = (r, atlas') := ⟨_, _, rfl⟩
  obtain ⟨-, -, outcome⟩ := resolve_cases resolving
  rw [resolving]
  rcases outcome with ⟨k, l, member, same, -, -, -, -⟩ | ⟨-, found, -⟩
  · -- a location kept for the question would be what the specifier meant
    obtain ⟨specifiers, sameFile, -⟩ := LocationKey.same_iff.mp same
    have meant := (settled.locations (k, l) member (specifiers ▸ relative) (files _ member)).1
    rw [specifiers, fileMeant_congr sameFile, unmeant] at meant
    cases meant
  · rw [IsRelative, ← aliases] at relative
    rw [← found, settled.aliasesIn_of_eq aliases, settled.sameProject,
      Resolution.resolve_of_relative relative]
    rfl

/-- A normal path that leads to no file is the path of no file, however it is spelled. -/
theorem same_false_of_absent (normal : q.IsNormal) (absent : t.isFile q = false) (p : Path)
    (file : t.isFile p = true) : p.same q = false := by
  rw [← Bool.not_eq_true]
  intro same
  have there := Tree.isFile_normalize file
  rw [Path.normalize_congr same, normal.2, absent] at there
  cases there

/-- After a file was made of which the atlas was told, every relative specifier that meant no file
is resolved as by a new atlas. But every module that was answered before is answered as before. -/
theorem answers_after_new_file (normal : q.IsNormal) (absent : t.isFile q = false)
    (other : ¬ ConfiguresAliases project q) (content : Content) (asked : List Operation) :
    (∀ specifier file context, IsRelative t project specifier →
      projectAliases (t.write q content) project.root = projectAliases t project.root →
      fileMeant t project file specifier = none →
      ((run project (asked.map (t, ·) ++ [(t.write q content, .invalidateAllOf [q])])).resolve
        (t.write q content) specifier file context).1 =
      (({ project } : Atlas).resolve (t.write q content) specifier file context).1) ∧
    ∀ (before later more : List Operation) p mode table,
      asked = before ++ .tableAt p mode :: later →
      (∀ operation ∈ later, operation.isQuery = true) →
      (∀ operation ∈ more, operation.isQuery = true) →
      (perform t (.tableAt p mode) (run project (before.map (t, ·)))).1 = .table (some table) →
      (perform (t.write q content) (.tableAt p mode) (run project (asked.map (t, ·) ++
        (t.write q content, .invalidateAllOf [q]) :: more.map (t.write q content, ·)))).1 =
          .table (some table) := by
  have settled := settled_run t project asked
  have files := locatesFiles_run t project asked
  have away := same_false_of_absent normal absent
  refine ⟨fun specifier file context relative aliases unmeant => ?_, ?_⟩
  · have fewer := forgets_invalidateAllOf [q] (run project (asked.map (t, ·)))
    rw [run_append, resolve_of_unmeant (.start t project) (fun e member => nomatch member) aliases
      relative unmeant]
    exact resolve_of_unmeant (settled.forgets fewer)
      (fun e member => files e (fewer.locations member)) aliases relative unmeant context
  · rintro before later more p mode table rfl queries queries' answered
    have noTable := noTableOf_run away project (before ++ .tableAt p mode :: later)
    rw [List.map_append, List.map_cons] at settled noTable ⊢
    refine answer_stands queries queries' answered
      (fun text read => Tree.read?_write normal absent content read) fun text m read standing => ?_
    have notOwn := away p (Tree.isFile_of_read? read)
    rw [run_append]
    refine standing.invalidate (by rwa [settled.sameProject]) ?_
    rw [among_invalidate_of_noTableOf noTable, Path.same_comm, notOwn]

/-- A module that exports everything of a module that is not there. -/
def lateTree : Tree :=
  ⟨[(["p"], .directory), (["p", "main.ts"], .file (.text "export * from './late';"))]⟩

/-- The path of the missing module. -/
def latePath : Path := ⟨"/p/late.ts"⟩

/-- The tree with the module. -/
def madeTree : Tree := lateTree.write latePath (.text "export let late;")

theorem answers_after_new_file_late :
    latePath.IsNormal ∧ lateTree.isFile latePath = false ∧ ¬ ConfiguresAliases sample latePath ∧
    ((run sample [(lateTree, askMain), (madeTree, .invalidateAllOf [latePath])]).resolve madeTree
      "./late" ⟨"/p/main.ts"⟩ none).1 = some ⟨latePath, none⟩ ∧
    (perform madeTree askMain (run sample
      [(lateTree, askMain), (madeTree, .invalidateAllOf [latePath])])).1 = .table (some {}) := by
  have normal : latePath.IsNormal := by decide +kernel
  have absent : lateTree.isFile latePath = false := by decide +kernel
  have other : ¬ ConfiguresAliases sample latePath := by
    rintro ⟨named, -⟩
    exact absurd named (by decide +kernel)
  obtain ⟨resolves, stands⟩ :=
    answers_after_new_file normal absent other (.text "export let late;") [askMain]
  have found := resolves "./late" ⟨"/p/main.ts"⟩ none (by decide +kernel) (by decide +kernel)
    (by decide +kernel)
  have fresh : (({ project := sample } : Atlas).resolve madeTree "./late" ⟨"/p/main.ts"⟩ none).1 =
      some ⟨latePath, none⟩ := by
    decide +kernel
  have answered : (perform lateTree askMain { project := sample }).1 = .table (some {}) := by
    decide +kernel
  exact ⟨normal, absent, other, found.trans fresh, stands [] [] [] _ _ _ rfl
    (fun _ member => nomatch member) (fun _ member => nomatch member) answered⟩

/-- A new atlas links the first module against the one that is there now. -/
theorem answer_after_new_file_late :
    (perform madeTree askMain (run sample
      [(lateTree, askMain), (madeTree, .invalidateAllOf [latePath])])).1 ≠
      (perform madeTree askMain { project := sample }).1 := by
  decide +kernel

end ModuleAtlas.Atlas
