import ModuleAtlas.Proofs.Changes
import ModuleAtlas.Proofs.Eviction

/-!
# Batches of changes

An atlas is told of changed files one after the other, and each time it forgets what rests on the
file, in what the files before have left. Going through the list comes to the same as forgetting all
at once (`invalidateAllOf_eq`): what an entry led to before it was forgotten is forgotten with it,
so nothing is reached any less for its being gone (`pathSet_dependentsOf_rest`). Hence only which
paths are in the list counts, not their order, nor how often each is told
(`invalidateAllOf_same_paths`).
-/

namespace ModuleAtlas.Atlas

/-! ## Tables -/

/-- With what goes with one path gone, the rest that goes with another is what went with it before,
but for what is gone. -/
theorem pathSet_dependentsOf_rest (entries : List KeptTable) (p q : Path) :
    pathSet (dependentsOf (entries.filter fun e => !among (dependentsOf entries p) e.path) q) ∪
        pathSet (dependentsOf entries p) =
      pathSet (dependentsOf entries q) ∪ pathSet (dependentsOf entries p) := by
  have first := closedAround_dependentsOf entries p
  have all := closedAround_dependentsOf entries q
  have rest := closedAround_dependentsOf
    (entries.filter fun e => !among (dependentsOf entries p) e.path) q
  apply Set.Subset.antisymm
  · apply Set.union_subset_union_left
    apply (isLeast_dependentsOf _ q).2
    refine ⟨all.start, ?_⟩
    intro e member
    exact all.step e (List.mem_filter.mp member).1
  · apply Set.union_subset
    · apply (isLeast_dependentsOf entries q).2
      refine ⟨.inl rest.start, ?_⟩
      intro e member d isDependency reached
      by_cases gone : e.path.components ∈ pathSet (dependentsOf entries p)
      · exact .inr gone
      · rcases reached with reached | reached
        · left
          apply rest.step e _ d isDependency reached
          rw [mem_pathSet, Bool.not_eq_true] at gone
          simp [member, gone]
        · exact absurd (first.step e member d isDependency reached) gone
    · exact Set.subset_union_right

/-- Spelling a path otherwise changes nothing about what goes with it. -/
theorem pathSet_dependentsOf_congr {p q : Path} (same : p.same q = true)
    (entries : List KeptTable) :
    pathSet (dependentsOf entries p) = pathSet (dependentsOf entries q) := by
  have closed : ∀ R, ClosedAround entries p R ↔ ClosedAround entries q R := by
    intro R
    constructor
    · intro h
      exact ⟨Path.same_iff.mp same ▸ h.start, h.step⟩
    · intro h
      exact ⟨Path.same_iff.mp same ▸ h.start, h.step⟩
  have least := isLeast_dependentsOf entries p
  simp only [closed] at least
  exact least.unique (isLeast_dependentsOf entries q)

/-- Drops several paths, each with all entries that were linked against it. -/
def TableCache.dropAll (paths : List Path) (c : TableCache) : TableCache :=
  { c with entries := c.entries.filter fun e =>
      !paths.any fun p => among (dependentsOf c.entries p) e.path }

/-- One path may be dropped before the others. -/
theorem TableCache.dropAll_invalidate (p : Path) (paths : List Path) (c : TableCache) :
    (c.invalidate p).2.dropAll paths = c.dropAll (p :: paths) := by
  rw [TableCache.invalidate, dropAll, dropAll]
  dsimp only
  rw [List.filter_filter]
  congr 1
  apply List.filter_congr
  intro e _
  cases gone : among (dependentsOf c.entries p) e.path with
  | true => simp [gone]
  | false =>
    have others : ∀ q, among (dependentsOf
          (c.entries.filter fun e => !among (dependentsOf c.entries p) e.path) q) e.path =
        among (dependentsOf c.entries q) e.path := by
      intro q
      have both := Set.ext_iff.mp (pathSet_dependentsOf_rest c.entries p q) e.path.components
      rw [Set.mem_union, Set.mem_union, mem_pathSet, mem_pathSet, mem_pathSet, gone] at both
      rw [Bool.eq_iff_iff]
      simpa using both
    simp [gone, others]

/-! ## All at once -/

/-- Forgets, all at once, what may have changed with any of several files. -/
def forgetAllOf (paths : List Path) (atlas : Atlas) : Atlas :=
  { atlas with
    aliases :=
      if ∃ p ∈ paths, ConfiguresAliases atlas.project p then none else atlas.aliases
    finds := if ∃ p ∈ paths, ConfiguresPackages p then [] else atlas.finds
    tables :=
      if ∃ p ∈ paths, ConfiguresAliases atlas.project p then atlas.tables.clear
      else atlas.tables.dropAll paths
    locations :=
      if ∃ p ∈ paths, ConfiguresAliases atlas.project p ∨ ConfiguresPackages p then
        atlas.locations.clear
      else atlas.locations }

theorem forgetAllOf_nil (atlas : Atlas) : atlas.forgetAllOf [] = atlas := by
  simp [forgetAllOf, TableCache.dropAll]

/-- What forgetting about one file does, by the kind of the file. -/
theorem invalidate_cases (p : Path) (atlas : Atlas) :
    (ConfiguresAliases atlas.project p ∧ ¬ ConfiguresPackages p ∧
      (atlas.invalidate p).2 =
        { atlas with aliases := none, tables := atlas.tables.clear,
                     locations := atlas.locations.clear }) ∨
    (¬ ConfiguresAliases atlas.project p ∧ ConfiguresPackages p ∧
      (atlas.invalidate p).2 =
        { atlas with tables := (atlas.tables.invalidate p).2, locations := atlas.locations.clear,
                     finds := [] }) ∨
    (¬ ConfiguresAliases atlas.project p ∧ ¬ ConfiguresPackages p ∧
      (atlas.invalidate p).2 = { atlas with tables := (atlas.tables.invalidate p).2 }) := by
  by_cases aliases : ConfiguresAliases atlas.project p
  · left
    refine ⟨aliases, fun packages => packages.not_aliases aliases, ?_⟩
    rw [invalidate]
    dsimp only
    rw [if_pos (configuresAliases_iff.mpr aliases)]
    rfl
  · right
    by_cases packages : ConfiguresPackages p
    · left
      exact ⟨aliases, packages, invalidate_of_packages packages atlas⟩
    · right
      refine ⟨aliases, packages, ?_⟩
      rw [invalidate]
      dsimp only
      rw [if_neg (mt configuresAliases_iff.mp aliases),
        if_neg (mt List.contains_iff_mem.mp packages)]

/-- Forgetting about one file and then about others is forgetting about all of them. -/
theorem forgetAllOf_invalidate (p : Path) (paths : List Path) (atlas : Atlas) :
    (atlas.invalidate p).2.forgetAllOf paths = atlas.forgetAllOf (p :: paths) := by
  have tables := TableCache.dropAll_invalidate p paths atlas.tables
  have dropped : atlas.tables.clear.dropAll paths = atlas.tables.clear := rfl
  have cleared : (atlas.tables.invalidate p).2.clear = atlas.tables.clear := rfl
  have again : atlas.tables.clear.clear = atlas.tables.clear := rfl
  have again' : atlas.locations.clear.clear = atlas.locations.clear := rfl
  rcases invalidate_cases p atlas with ⟨aliases, packages, whole⟩ | ⟨aliases, packages, whole⟩ |
    ⟨aliases, packages, whole⟩
  · rw [whole]
    simp [forgetAllOf, aliases, packages, dropped, again, again']
  · rw [whole]
    simp [forgetAllOf, aliases, packages, tables, cleared, again']
  · rw [whole]
    simp [forgetAllOf, aliases, packages, tables, cleared]

/-- Going through a list of changed files forgets what forgetting all at once does. -/
theorem invalidateAllOf_eq (paths : List Path) (atlas : Atlas) :
    atlas.invalidateAllOf paths = atlas.forgetAllOf paths := by
  rw [invalidateAllOf]
  induction paths generalizing atlas with
  | nil => exact (forgetAllOf_nil atlas).symm
  | cons p paths ih => rw [List.foldl_cons, ih, forgetAllOf_invalidate]

/-! ## Only the set counts -/

theorem configuresAliases_congr {project : Project} {p q : Path} (same : p.same q = true)
    (h : ConfiguresAliases project p) : ConfiguresAliases project q := by
  obtain ⟨name, dir, parent, isRoot⟩ := h
  refine ⟨by rwa [← Path.fileName?_congr same], ?_⟩
  obtain ⟨nonempty, below, components⟩ := Path.components_parent? parent
  rw [Path.same_iff.mp same] at nonempty below components
  cases parent' : q.parent? with
  | none =>
    rcases Path.parent?_eq_none parent' with h | h
    · exact absurd h nonempty
    · exact absurd h below
  | some dir' =>
    refine ⟨dir', rfl, ?_⟩
    have components' := (Path.components_parent? parent').2.2
    rw [Path.same_iff] at isRoot ⊢
    rw [components', ← components, isRoot]

theorem configuresPackages_congr {p q : Path} (same : p.same q = true)
    (h : ConfiguresPackages p) : ConfiguresPackages q := by
  rwa [ConfiguresPackages, ← Path.fileName?_congr same]

theorem exists_mem_congr {paths paths' : List Path} {P : Path → Prop}
    (respects : ∀ {p q}, p.same q = true → P p → P q)
    (same : ∀ p, among paths p = among paths' p) : (∃ p ∈ paths, P p) ↔ ∃ p ∈ paths', P p := by
  have oneWay : ∀ {xs ys : List Path}, (∀ p, among xs p = among ys p) →
      (∃ p ∈ xs, P p) → ∃ p ∈ ys, P p := by
    intro xs ys same h
    obtain ⟨p, member, holds⟩ := h
    have there : among ys p = true := by
      rw [← same]
      exact among_iff.mpr ⟨p, member, Path.same_refl p⟩
    obtain ⟨q, member', isSame⟩ := among_iff.mp there
    exact ⟨q, member', respects (Path.same_symm isSame) holds⟩
  exact ⟨oneWay same, oneWay fun p => (same p).symm⟩

/-- What an atlas forgets when it is told of changed files depends only on which files these are:
not on the order in which it is told, nor on how often, nor on how their paths are spelled. -/
theorem invalidateAllOf_same_paths (atlas : Atlas) {paths paths' : List Path}
    (same : ∀ p, among paths p = among paths' p) :
    atlas.invalidateAllOf paths = atlas.invalidateAllOf paths' := by
  have aliases : (∃ p ∈ paths, ConfiguresAliases atlas.project p) ↔
      ∃ p ∈ paths', ConfiguresAliases atlas.project p :=
    exists_mem_congr configuresAliases_congr same
  have packages : (∃ p ∈ paths, ConfiguresPackages p) ↔ ∃ p ∈ paths', ConfiguresPackages p :=
    exists_mem_congr configuresPackages_congr same
  have either : (∃ p ∈ paths, ConfiguresAliases atlas.project p ∨ ConfiguresPackages p) ↔
      ∃ p ∈ paths', ConfiguresAliases atlas.project p ∨ ConfiguresPackages p :=
    exists_mem_congr
      (fun isSame => Or.imp (configuresAliases_congr isSame) (configuresPackages_congr isSame)) same
  have tables : atlas.tables.dropAll paths = atlas.tables.dropAll paths' := by
    rw [TableCache.dropAll, TableCache.dropAll]
    congr 1
    apply List.filter_congr
    intro e _
    congr 1
    rw [Bool.eq_iff_iff, List.any_eq_true, List.any_eq_true]
    refine exists_mem_congr ?_ same
    intro p q isSame gone
    rw [← mem_pathSet] at gone ⊢
    rwa [← pathSet_dependentsOf_congr isSame]
  rw [invalidateAllOf_eq, invalidateAllOf_eq, forgetAllOf, forgetAllOf]
  simp only [aliases, packages, either, tables]

/-- An atlas that keeps tables, a location and a package. -/
def filledAtlas : Atlas :=
  { project := sample
    finds := [(⟨none, "lib", ⟨"/p"⟩⟩, ⟨⟨"/p/node_modules/lib"⟩, "lib"⟩)]
    tables := ringCache
    locations := { entries := [(⟨"./b", ⟨"/p/a.ts"⟩, none⟩, ⟨⟨"/p/b.ts"⟩, none⟩)] } }

theorem invalidateAllOf_same_paths_ring :
    ((filledAtlas.invalidateAllOf [⟨"/p/a.ts"⟩, ⟨"/p/package.json"⟩]).tables.entries.map (·.path) =
      [⟨"/p/c.ts"⟩]) ∧
    filledAtlas.invalidateAllOf [⟨"/p/a.ts"⟩, ⟨"/p/package.json"⟩] =
      filledAtlas.invalidateAllOf
        [⟨"/p/package.json"⟩, ⟨"/p/./a.ts"⟩, ⟨"/p/package.json"⟩, ⟨"/p/a.ts"⟩] := by
  refine ⟨by decide +kernel, invalidateAllOf_same_paths filledAtlas ?_⟩
  intro p
  have spelled : (⟨"/p/./a.ts"⟩ : Path).same p = (⟨"/p/a.ts"⟩ : Path).same p :=
    Path.same_congr_left (by decide +kernel) p
  rw [Bool.eq_iff_iff]
  simp only [among, List.any_cons, List.any_nil, Bool.or_false, Bool.or_eq_true, spelled]
  tauto

end ModuleAtlas.Atlas
