import Mathlib.Data.List.Infix
import Mathlib.Logic.Relation
import ModuleAtlas.Proofs.Finds

/-!
# The order of the package search

With nothing remembered, the search gives the first package that is there in a fixed order of
places: under the whole name below the root of the project, then in the workspace of the file under
the name and all shorter ones, then below the root under the shorter names (`searchOrder`,
`findPackage_first`).

The two parts of the order that are computed step by step are said on their own. The names are the
beginnings of the specifier that end before a slash (`leadingNames`, `namesOf_eq`). The workspace is
the nearest directory above the file that holds packages and is below the root (`IsWorkspace`,
`workspaceOf_eq_some_iff`).

The search can also be told as a recursion that goes from each name to the next shorter one, with a
way into the workspace that is open once (`search`). There the workspace is asked for the shorter
names twice. The second time nothing is found (`searchNames_tail`), so both come to the same, with
whatever is remembered (`search_eq_findPackage`).
-/

namespace ModuleAtlas.Resolution

/-! ## Names -/

/-- The beginnings of a name that are the whole of it, or are not empty and end right before a
slash, longest first. -/
def leadingNames (name : String) : List String :=
  (name.toList.inits.reverse.filter fun n =>
    n = name.toList ∨ n ≠ [] ∧ n ++ ['/'] <+: name.toList).map String.ofList

/-- The beginnings of a text that are not empty and end right before a slash, longest first. -/
def slashedStarts (cs : List Char) : List (List Char) :=
  cs.inits.reverse.filter fun n => n ≠ [] ∧ n ++ ['/'] <+: cs

theorem inits_concat_reverse (cs : List Char) (c : Char) :
    (cs ++ [c]).inits.reverse = (cs ++ [c]) :: cs.inits.reverse := by
  rw [List.inits_append, List.reverse_append]
  rfl

/-- The longest beginning of a text is the whole of it. -/
theorem exists_inits_reverse (cs : List Char) :
    ∃ shorter, cs.inits.reverse = cs :: shorter ∧ ∀ n ∈ shorter, n.length < cs.length := by
  induction cs using List.reverseRecOn with
  | nil => exact ⟨[], rfl, fun _ member => nomatch member⟩
  | append_singleton front c _ =>
    refine ⟨front.inits.reverse, inits_concat_reverse front c, fun n member => ?_⟩
    have start := (List.mem_inits n front).mp (List.mem_reverse.mp member)
    rw [List.length_append, List.length_singleton]
    exact Nat.lt_succ_of_le start.length_le

theorem not_prefix_of_longer (cs : List Char) (c : Char) : ¬ cs ++ [c] <+: cs := by
  intro start
  have long := start.length_le
  rw [List.length_append, List.length_singleton] at long
  omega

/-- A slash ends one more beginning, any other character none. -/
theorem slashedStarts_concat (cs : List Char) (c : Char) :
    slashedStarts (cs ++ [c]) =
      if c = '/' ∧ cs ≠ [] then cs :: slashedStarts cs else slashedStarts cs := by
  obtain ⟨shorter, whole, short⟩ := exists_inits_reverse cs
  have others : (shorter.filter fun n => n ≠ [] ∧ n ++ ['/'] <+: cs ++ [c]) =
      shorter.filter fun n => n ≠ [] ∧ n ++ ['/'] <+: cs := by
    refine List.filter_congr fun n member => decide_eq_decide.mpr (and_congr_right fun _ => ?_)
    have inside : (n ++ ['/']).length ≤ cs.length := by
      rw [List.length_append, List.length_singleton]
      exact short n member
    exact ⟨fun start => List.prefix_of_prefix_length_le start (List.prefix_append _ _) inside,
      fun start => start.trans (List.prefix_append _ _)⟩
  have last : cs ++ ['/'] <+: cs ++ [c] ↔ c = '/' := by
    rw [List.prefix_append_right_inj, List.cons_prefix_cons]
    exact ⟨fun h => h.1.symm, fun h => ⟨h.symm, List.prefix_rfl⟩⟩
  have own : ¬ cs ++ ['/'] <+: cs := not_prefix_of_longer cs '/'
  rw [slashedStarts, slashedStarts, inits_concat_reverse, whole,
    List.filter_cons_of_neg (by simp), List.filter_cons, others,
    List.filter_cons_of_neg (by simp [own])]
  simp only [last, decide_eq_true_eq, and_comm]

theorem shorten?_concat (cs : List Char) (c : Char) :
    shorten? (cs ++ [c]) =
      if c = '/' then if cs = [] then none else some cs else shorten? cs := by
  rw [shorten?, List.reverse_append, List.reverse_singleton, List.singleton_append,
    List.dropWhile_cons]
  by_cases slash : c = '/'
  · simp [slash]
  · simp [slash, shorten?]

/-- Shortening again and again gives the beginnings that end before a slash. -/
theorem shorterNames_eq (cs : List Char) :
    shorterNames cs.length cs = (slashedStarts cs).map String.ofList := by
  induction cs using List.reverseRecOn with
  | nil => rfl
  | append_singleton cs c ih =>
    rw [List.length_append, List.length_singleton, shorterNames, shorten?_concat,
      slashedStarts_concat]
    by_cases slash : c = '/'
    · by_cases empty : cs = []
      · subst empty
        simp [slash, slashedStarts]
      · simp [slash, empty, ih]
    · have same : shorterNames (cs.length + 1) cs = shorterNames cs.length cs :=
        shorterNames_of_le (Nat.le_succ _) (Nat.le_refl _)
      rw [shorterNames] at same
      simp only [slash, false_and, if_false]
      rw [same, ih]

theorem namesOf_eq (name : String) : namesOf name = leadingNames name := by
  obtain ⟨shorter, whole, short⟩ := exists_inits_reverse name.toList
  have own : ¬ name.toList ++ ['/'] <+: name.toList := not_prefix_of_longer _ '/'
  have others : (shorter.filter fun n =>
        n = name.toList ∨ n ≠ [] ∧ n ++ ['/'] <+: name.toList) =
      shorter.filter fun n => n ≠ [] ∧ n ++ ['/'] <+: name.toList := by
    refine List.filter_congr fun n member => decide_eq_decide.mpr (or_iff_right ?_)
    rintro rfl
    exact Nat.lt_irrefl _ (short _ member)
  rw [namesOf, leadingNames, ← String.length_toList, shorterNames_eq, slashedStarts, whole,
    List.filter_cons_of_neg (by simp [own]), List.filter_cons_of_pos (by simp),
    others, List.map_cons, String.ofList_toList]

theorem toList_slash (n rest : String) :
    (n ++ "/" ++ rest).toList = n.toList ++ '/' :: rest.toList := by
  rw [String.toList_append, String.toList_append, List.append_assoc]
  rfl

/-- The names that a name is shortened to are those that a specifier goes on behind with a slash. -/
theorem mem_namesOf {name n : String} :
    n ∈ namesOf name ↔ n = name ∨ n ≠ "" ∧ ∃ rest, name = n ++ "/" ++ rest := by
  rw [namesOf_eq, leadingNames, List.mem_map]
  constructor
  · rintro ⟨cs, member, rfl⟩
    have kind := of_decide_eq_true (List.mem_filter.mp member).2
    rcases kind with rfl | ⟨nonempty, rest, whole⟩
    · exact .inl String.ofList_toList
    · refine .inr ⟨by simpa using nonempty, String.ofList rest, ?_⟩
      apply String.toList_inj.mp
      rw [toList_slash, String.toList_ofList, String.toList_ofList, ← whole, List.append_assoc]
      rfl
  · intro kind
    refine ⟨n.toList, List.mem_filter.mpr ⟨?_, decide_eq_true ?_⟩, String.ofList_toList⟩
    · rw [List.mem_reverse, List.mem_inits]
      rcases kind with rfl | ⟨-, rest, rfl⟩
      · exact List.prefix_rfl
      · rw [toList_slash]
        exact List.prefix_append _ _
    · rcases kind with rfl | ⟨nonempty, rest, rfl⟩
      · exact .inl rfl
      · refine .inr ⟨by simpa using nonempty, rest.toList, ?_⟩
        rw [toList_slash, List.append_assoc]
        rfl

/-! ## Workspaces -/

/-- A directory is above a path: it is the parent of the path, or above the parent. -/
def Above : Path → Path → Prop := Relation.TransGen fun p dir => p.parent? = some dir

/-- A path lies below another. -/
def StrictlyBelow (p root : Path) : Prop := p.startsWith root = true ∧ p.same root = false

/-- The directory around the nearest directory of packages above a file, below the root of the
project. -/
structure IsWorkspace (t : Tree) (root file w : Path) : Prop where
  above : Above file w
  below : StrictlyBelow w root
  packages : t.isDirectory (w / "node_modules") = true
  nearest : ∀ dir, Above file dir → Above dir w → t.isDirectory (dir / "node_modules") = false

section Workspaces

variable {t : Tree} {root p d w : Path}

theorem above_cases (parent : p.parent? = some d) : Above p w ↔ w = d ∨ Above d w := by
  constructor
  · intro above
    rcases Relation.TransGen.head'_iff.mp above with ⟨d', isParent, rest⟩
    rw [parent] at isParent
    cases isParent
    rcases Relation.reflTransGen_iff_eq_or_transGen.mp rest with same | further
    · exact .inl same
    · exact .inr further
  · rintro (rfl | further)
    · exact .single parent
    · exact .head parent further

theorem not_above_of_orphan (orphan : p.parent? = none) : ¬ Above p w := by
  intro above
  obtain ⟨d, isParent, -⟩ := Relation.TransGen.head'_iff.mp above
  rw [orphan] at isParent
  cases isParent

/-- A directory above a path has fewer components, and the path starts with them. -/
theorem Above.components (above : Above p d) :
    d.components <+: p.components ∧ d.components.length < p.components.length := by
  have step : ∀ {p d : Path}, p.parent? = some d →
      d.components <+: p.components ∧ d.components.length < p.components.length := by
    intro p d parent
    obtain ⟨nonempty, -, shorter⟩ := Path.components_parent? parent
    rw [shorter, List.length_dropLast]
    have positive := List.length_pos_iff.mpr nonempty
    exact ⟨List.dropLast_prefix _, by omega⟩
  induction above with
  | single parent => exact step parent
  | tail _ parent ih =>
    obtain ⟨start, short⟩ := step parent
    exact ⟨start.trans ih.1, short.trans ih.2⟩

/-- What a path below the root is above of is below the root. -/
theorem StrictlyBelow.of_above (below : StrictlyBelow d root) (above : Above p d) :
    StrictlyBelow p root := by
  obtain ⟨start, short⟩ := above.components
  have rooted : root.components <+: d.components := List.isPrefixOf_iff_prefix.mp below.1
  refine ⟨List.isPrefixOf_iff_prefix.mpr (rooted.trans start), Bool.eq_false_iff.mpr fun same => ?_⟩
  have equal := congrArg List.length (Path.same_iff.mp same)
  have bound := rooted.length_le
  omega

theorem length_segmentsOf (cs : List Char) : (Path.segmentsOf cs).length ≤ cs.length + 1 := by
  induction cs with
  | nil => exact Nat.le_refl _
  | cons c rest ih =>
    rw [Path.segmentsOf]
    split
    · rw [List.length_cons, List.length_cons]
      omega
    · split
      · simp
      · next s more pieces =>
        rw [pieces] at ih
        rw [List.length_cons] at ih ⊢
        rw [List.length_cons]
        omega

/-- A path has no more components than characters and one. -/
theorem length_components (p : Path) : p.components.length ≤ p.text.length + 1 := by
  obtain ⟨first, rest, pieces⟩ := p.exists_segments
  have bound := length_segmentsOf p.text.toList
  rw [← Path.segments, pieces, String.length_toList, List.length_cons] at bound
  have few := List.length_filterMap_le Path.componentOf rest
  rw [Path.components_eq_lead pieces, List.length_append]
  have one : (p.lead first).length ≤ 1 := by
    unfold Path.lead
    split
    · exact Nat.le_refl _
    · split
      · exact Nat.le_refl _
      · cases Path.componentOf first <;> simp
  omega

/-- A path whose parent has no packages has the workspace of its parent. -/
theorem isWorkspace_of_parent (parent : p.parent? = some d)
    (bare : t.isDirectory (d / "node_modules") = false) :
    IsWorkspace t root p w ↔ IsWorkspace t root d w := by
  constructor
  · intro h
    rcases (above_cases parent).mp h.above with rfl | above
    · have packages := h.packages
      rw [bare] at packages
      cases packages
    · exact ⟨above, h.below, h.packages, fun dir up => h.nearest dir (.head parent up)⟩
  · intro h
    refine ⟨.head parent h.above, h.below, h.packages, fun dir up down => ?_⟩
    rcases (above_cases parent).mp up with rfl | up
    · exact bare
    · exact h.nearest dir up down

/-- A path whose parent has packages, below the root, has its parent as its workspace. -/
theorem isWorkspace_iff_parent (parent : p.parent? = some d) (below : StrictlyBelow d root)
    (packages : t.isDirectory (d / "node_modules") = true) :
    IsWorkspace t root p w ↔ d = w := by
  constructor
  · intro h
    rcases (above_cases parent).mp h.above with same | above
    · exact same.symm
    · have bare := h.nearest d (.single parent) above
      rw [packages] at bare
      cases bare
  · rintro rfl
    refine ⟨.single parent, below, packages, fun dir up down => ?_⟩
    -- nothing is between a path and its parent
    have short := down.components.2
    rcases (above_cases parent).mp up with rfl | up
    · exact absurd short (Nat.lt_irrefl _)
    · exact absurd (short.trans up.components.2) (Nat.lt_irrefl _)

/-- Going up from a path, the first directory that holds packages is its workspace, if the root is
not reached before. -/
theorem find?_directoriesAbove {fuel : Nat} (enough : p.components.length ≤ fuel) :
    ((directoriesAbove fuel p).takeWhile fun dir => !dir.same root && dir.startsWith root).find?
        (fun dir => t.isDirectory (dir / packagesName)) = some w ↔ IsWorkspace t root p w := by
  induction fuel generalizing p with
  | zero =>
    refine iff_of_false (fun h => nomatch h) fun h => ?_
    have short := h.above.components.2
    omega
  | succ fuel ih =>
    rw [directoriesAbove]
    cases parent : p.parent? with
    | none => exact iff_of_false (fun h => nomatch h) fun h => not_above_of_orphan parent h.above
    | some d =>
      have up : Above p d := .single parent
      have short := up.components.2
      dsimp only
      rw [List.takeWhile_cons]
      split
      · next inside =>
        rw [Bool.and_eq_true, Bool.not_eq_true'] at inside
        rw [List.find?_cons]
        split
        · next packages =>
          rw [isWorkspace_iff_parent parent ⟨inside.2, inside.1⟩ packages, Option.some_inj]
        · next bare =>
          rw [isWorkspace_of_parent parent bare]
          exact ih (by omega)
      · next outside =>
        refine iff_of_false (fun h => nomatch h) fun h => outside ?_
        -- the workspace is below the root, and so is all that it is above of
        have below : StrictlyBelow d root := by
          rcases (above_cases parent).mp h.above with rfl | above
          · exact h.below
          · exact h.below.of_above above
        rw [below.1, below.2]
        rfl

theorem workspaceOf_eq_some_iff (file : Path) :
    workspaceOf t root file = some w ↔ IsWorkspace t root file w :=
  find?_directoriesAbove (length_components file)

end Workspaces

/-! ## The search by recursion -/

/-- The search from a search root by recursion: under the first name, then in the workspace of the
file, there once more from the second name on, then under the other names. The workspace is gone
into once; `visited` says whether it was. -/
def search (t : Tree) (scope : SearchScope) (file : Path) :
    (visited : Bool) → (searchRoot : Path) → List String → Finds → Option Package × Finds
  | _, _, [], m => (none, m)
  | visited, searchRoot, name :: shorter, m =>
    let key : FindKey := ⟨scope.context, name, searchRoot⟩
    match m.valid? t key with
    | some p => (some p, m)
    | none =>
      match packageAt t scope searchRoot name with
      | some p => remember key (some p) m
      | none =>
        match visited, workspaceOf t scope.root file with
        | false, some w =>
          match search t scope file true w (name :: shorter) m with
          | (some p, m) => remember key (some p) m
          | (none, m) =>
            match search t scope file true w shorter m with
            | (some p, m) => remember key (some p) m
            | (none, m) =>
              let (found, m) := search t scope file true searchRoot shorter m
              remember key found m
        | visited, _ =>
          let (found, m) := search t scope file visited searchRoot shorter m
          remember key found m
termination_by visited _ names => (names.length, if visited then 0 else 1)

section Recursion

variable {t : Tree} {scope : SearchScope} {file searchRoot : Path} {m : Finds}

/-- Where the workspace is not gone into, or not any more, the search goes through the names. -/
theorem search_over {visited : Bool}
    (barred : ∀ w, visited = false → workspaceOf t scope.root file = some w → False)
    (names : List String) (m : Finds) :
    search t scope file visited searchRoot names m = searchNames t scope searchRoot names m := by
  induction names with
  | nil => rw [search, searchNames]
  | cons name shorter ih =>
    rw [searchNames, ← ih]
    exact search.eq_3 t scope file searchRoot m name shorter visited barred

/-- Going into the workspace from the second name on finds nothing that was not found from the
first. -/
theorem searchNames_tail {name : String} {shorter : List String}
    (nothing : searchNames t scope searchRoot (name :: shorter) m = (none, m)) :
    searchNames t scope searchRoot shorter m = (none, m) := by
  have first : (searchNames t scope searchRoot shorter m).1 = none := by
    have whole := fst_searchNames.symm.trans (congrArg Prod.fst nothing)
    rw [fst_searchNames, List.findSome?_eq_none_iff]
    intro n member
    exact List.findSome?_eq_none_iff.mp whole n (List.mem_cons_of_mem _ member)
  exact Prod.ext first (snd_searchNames first)

/-- The search by recursion comes to the same package and remembers the same. -/
theorem search_eq_findPackage (name : String) (m : Finds) :
    search t scope file false scope.root (namesOf name) m = findPackage t scope file name m := by
  obtain ⟨shorter, names⟩ : ∃ shorter, namesOf name = name :: shorter := ⟨_, rfl⟩
  have visited : ∀ w, true = false → workspaceOf t scope.root file = some w → False :=
    fun _ h => nomatch h
  rw [findPackage, names]
  cases workspace : workspaceOf t scope.root file with
  | none =>
    have homeless : ∀ w, false = false → workspaceOf t scope.root file = some w → False := by
      intro w _ isWorkspace
      rw [workspace] at isWorkspace
      cases isWorkspace
    rw [search_over homeless, searchNames]
    rfl
  | some w =>
    rw [search]
    case heq => exact workspace
    cases m.valid? t ⟨scope.context, name, scope.root⟩ with
    | some p => rfl
    | none =>
      cases packageAt t scope scope.root name with
      | some p => rfl
      | none =>
        dsimp only [searchWorkspace]
        rw [search_over visited]
        cases inside : searchNames t scope w (name :: shorter) m with
        | mk found m' =>
          cases found with
          | some p => rfl
          | none =>
            have same : (searchNames t scope w (name :: shorter) m).2 = m :=
              snd_searchNames (congrArg Prod.fst inside)
            rw [inside] at same
            dsimp only at same
            subst same
            dsimp only
            rw [search_over visited, searchNames_tail inside]
            dsimp only
            rw [search_over visited]
            rfl

end Recursion

/-! ## The order of places -/

/-- The packages that may lie under a name, seen from a search root: in the context, among the
packages of the search root, in the store, among the type packages of the search root. -/
def candidatePackages (t : Tree) (scope : SearchScope) (searchRoot : Path) (name : String) :
    List Package :=
  ((scope.context.map (· / name)).toList ++ searchRoot / "node_modules" / name ::
    ((storedPackage t scope.root name).toList ++
      [searchRoot / "node_modules" / "@types" / name])).map (⟨·, name⟩)

/-- All packages that a specifier may name, in the order of the search: under its whole name below
the root, then in the workspace from the whole name down, then below the root under shorter
names. -/
def searchOrder (t : Tree) (scope : SearchScope) (workspace : Option Path) (name : String) :
    List Package :=
  candidatePackages t scope scope.root name ++
    (workspace.toList.flatMap fun w => (leadingNames name).flatMap (candidatePackages t scope w)) ++
    (leadingNames name).tail.flatMap (candidatePackages t scope scope.root)

/-- Whether the directory of a package is there and holds a manifest. -/
def Package.isThere (t : Tree) (p : Package) : Bool := holdsPackage t p.dir

section Order

variable {t : Tree} {scope : SearchScope}

theorem packageAt_eq (searchRoot : Path) (name : String) :
    packageAt t scope searchRoot name =
      (candidatePackages t scope searchRoot name).find? (·.isThere t) := by
  have places : placesOf t scope searchRoot name =
      (scope.context.map (· / name)).toList ++ searchRoot / "node_modules" / name ::
        ((storedPackage t scope.root name).toList ++
          [searchRoot / "node_modules" / "@types" / name]) := by
    rw [placesOf]
    cases scope.context <;> simp [packagesName]
  rw [packageAt, candidatePackages, List.find?_map, places]
  rfl

theorem findSome?_packageAt (searchRoot : Path) (names : List String) :
    names.findSome? (packageAt t scope searchRoot) =
      (names.flatMap (candidatePackages t scope searchRoot)).find? (·.isThere t) := by
  rw [List.find?_flatMap]
  congr 1
  funext name
  exact packageAt_eq searchRoot name

theorem known_nil (searchRoot : Path) : known t scope [] searchRoot = packageAt t scope searchRoot :=
  rfl

/-- With nothing remembered, the search gives the first package of the order that is there. -/
theorem findPackage_nil_eq (file : Path) (name : String) :
    (findPackage t scope file name []).1 =
      (searchOrder t scope (workspaceOf t scope.root file) name).find? (·.isThere t) := by
  rw [fst_findPackage, searchOrder, List.find?_append, List.find?_append, Option.or_assoc]
  simp only [known_nil, findSome?_packageAt, packageAt_eq, ← namesOf_eq]
  congr 2
  cases workspaceOf t scope.root file with
  | none => rfl
  | some w => simp

end Order

/-- With nothing remembered, a lookup comes to the first package that is there in the order of the
search, under the name it stands there with, or to none if none is there. The workspace in that
order is the one that the file has, if it has one. The search by recursion on the names comes to the
same. -/
theorem findPackage_first (t : Tree) (root file : Path) (context : Option Path) (name : String) :
    (∃ workspace : Option Path, (∀ w, workspace = some w ↔ IsWorkspace t root file w) ∧
      (findPackage t ⟨root, context⟩ file name []).1 =
        (searchOrder t ⟨root, context⟩ workspace name).find? (·.isThere t)) ∧
    search t ⟨root, context⟩ file false root (leadingNames name) [] =
      findPackage t ⟨root, context⟩ file name [] := by
  refine ⟨⟨workspaceOf t root file, fun w => workspaceOf_eq_some_iff file,
    findPackage_nil_eq file name⟩, ?_⟩
  rw [← namesOf_eq]
  exact search_eq_findPackage name []

end ModuleAtlas.Resolution
