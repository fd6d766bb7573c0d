import ModuleAtlas.Proofs.PathOrder
import ModuleAtlas.Proofs.Tree
import ModuleAtlas.Resolution.Store

/-!
# The version found in a store

The directory of a package is looked for by how its name starts (`startsLike`), so what is found may
belong to the locked version, with or without peers (`IsLocked`), or to one whose text merely starts
with it. Of all directories that hold the package (`Holds`) the first in order is taken
(`holds_of_stored`). It belongs to the locked version exactly if one of that version comes before
all others.
-/

namespace ModuleAtlas.Resolution

open ModuleAtlas.Path (componentOf segmentsOf)

/-! ## Paths in the store -/

/-- Segments behind a path add their components to those of the path. -/
theorem components_below {p : Path} {segments : List (List Char)} (text : p.text ≠ "")
    (slashless : ∀ s ∈ segments, '/' ∉ s) :
    (below p segments).components = p.components ++ segments.filterMap componentOf := by
  induction segments generalizing p with
  | nil => simp [below]
  | cons s segments ih =>
    obtain ⟨first, rest⟩ := List.forall_mem_cons.mp slashless
    have joined := Path.components_join_slashless (s := String.ofList s) text (by simpa using first)
    rw [String.toList_ofList] at joined
    change (below (p / String.ofList s) segments).components = _
    rw [ih (Path.text_join_ne text _) rest, joined, List.append_assoc, ← List.filterMap_append]
    rfl

theorem text_below_ne {p : Path} (text : p.text ≠ "") (segments : List (List Char)) :
    (below p segments).text ≠ "" := by
  induction segments generalizing p with
  | nil => exact text
  | cons s segments ih => exact ih (Path.text_join_ne text _)

theorem text_folderFor_ne (store : Path) (start : String) : (folderFor store start).text ≠ "" :=
  text_below_ne (by simp) _

/-- A package lies below a directory under its name. -/
theorem components_packageIn {directory : Path} (text : directory.text ≠ "") (name : String) :
    (packageIn directory name).components =
      directory.components ++
        .name "node_modules" :: (segmentsOf name.toList).filterMap componentOf := by
  have slashless : ∀ s ∈ segmentsOf name.toList, '/' ∉ s :=
    fun s => Path.slashless_of_mem_segmentsOf
  have packages : (directory / "node_modules").components =
      directory.components ++ [.name "node_modules"] :=
    Path.components_join_slashless text (by decide)
  obtain ⟨front, last, pieces⟩ := Path.exists_last_segmentsOf name.toList
  rw [pieces] at slashless
  rw [packageIn, pieces]
  split
  · next empty =>
    rw [List.getLastD_concat] at empty
    rw [List.dropLast_concat, components_below (Path.text_join_ne text _) fun s member =>
      slashless s (List.mem_append_left _ member), packages, List.append_assoc, empty,
      List.filterMap_append]
    simp [componentOf]
  · rw [components_below (Path.text_join_ne text _) slashless, packages, List.append_assoc]
    rfl

theorem components_folderFor {store : Path} {cs : List Char} (chars : store.text.toList = '/' :: cs)
    (start : String) :
    (folderFor store start).components =
      .root :: (segmentsOf cs ++ (segmentsOf start.toList).dropLast).filterMap componentOf := by
  rw [folderFor, Path.segments, chars, Path.segmentsOf_slash_cons, List.drop_one, List.tail_cons,
    components_below (by simp)]
  · rfl
  · intro s member
    rcases List.mem_append.mp member with inStore | inStart
    · exact Path.slashless_of_mem_segmentsOf inStore
    · exact Path.slashless_of_mem_segmentsOf (List.dropLast_subset _ inStart)

/-- With any ending the names that are looked for have the path that is written out for them. -/
theorem same_folderFor {store : Path} (absolute : store.isAbsolute = true) (start : String)
    {suffix : String} (slashless : '/' ∉ suffix.toList) :
    (folderFor store start / (namesFor start ++ suffix)).same
      ⟨store.text ++ "/" ++ start ++ suffix⟩ = true := by
  obtain ⟨cs, chars⟩ := Path.isAbsolute_iff.mp absolute
  obtain ⟨front, last, pieces⟩ := Path.exists_last_segmentsOf start.toList
  have inside : last ∈ segmentsOf start.toList := by simp [pieces]
  have noSlash := Path.slashless_of_mem_segmentsOf inside
  have name : (namesFor start ++ suffix).toList = last ++ suffix.toList := by
    rw [namesFor, pieces, String.toList_append, String.toList_ofList]
    simp
  have whole : (⟨store.text ++ "/" ++ start ++ suffix⟩ : Path).text.toList =
      '/' :: (cs ++ '/' :: (start ++ suffix).toList) := by
    simp [chars]
  have ending : segmentsOf (start ++ suffix).toList = front ++ [last ++ suffix.toList] :=
    Path.segments_append (p := ⟨start⟩) pieces slashless
  rw [Path.same_iff, Path.components_join_slashless (text_folderFor_ne store start),
    components_folderFor chars, pieces, name, Path.components_of_absolute whole,
    Path.segmentsOf_append_slash, ending]
  · simp
  · rw [name, List.mem_append, not_or]
    exact ⟨noSlash, slashless⟩

/-! ## What is found -/

/-- Whether a directory of a store, given by its name, holds a package and is looked at for a
version of it. -/
structure Holds (t : Tree) (store : Path) (name version directory : String) : Prop where
  child : directory ∈ t.children (folderFor store (storeStart name version))
  starts : startsLike (namesFor (storeStart name version)) directory = true
  package : t.isDirectory (storePlace store name version directory) = true

/-- Whether the name of a directory is that of a package in a version, with or without peers. -/
def IsLocked (name version directory : String) : Prop :=
  ∃ peers : String, directory = namesFor (storeStart name version) ++ peers ∧
    (peers = "" ∨ peers.toList.head? = some '_' ∨ peers.toList.head? = some '(')

theorem mem_storeNames {t : Tree} {store : Path} {start n : String} :
    n ∈ storeNames t store start ↔
      n ∈ t.children (folderFor store start) ∧ startsLike (namesFor start) n = true := by
  rw [storeNames, Text.sort, List.mem_mergeSort, List.mem_filter]

section Stored

variable {t : Tree} {root : Path} {name lock version : String}

/-- With a locked version the directories that are looked at decide. -/
theorem storedPackage_eq (read : t.read? (storeOf root / "lock.yaml") = some lock)
    (pinned : pinnedVersion lock name = some version) :
    storedPackage t root name =
      ((storeNames t (storeOf root) (storeStart name version)).find? fun n =>
        t.isDirectory (storePlace (storeOf root) name version n)).map
          (storePlace (storeOf root) name version) := by
  have chosen : storedPackage t root name =
      (storeDirectories t (storeOf root) name version).find? t.isDirectory := by
    unfold storedPackage
    dsimp only
    rw [read]
    dsimp only
    rw [pinned]
  rw [chosen, storeDirectories, List.find?_map, Function.comp_def]

/-- What is found is the first in order of all directories that hold the package. -/
theorem holds_of_stored (read : t.read? (storeOf root / "lock.yaml") = some lock)
    (pinned : pinnedVersion lock name = some version) {d : Path}
    (stored : storedPackage t root name = some d) :
    ∃ n, Holds t (storeOf root) name version n ∧ d = storePlace (storeOf root) name version n ∧
      ∀ m, Holds t (storeOf root) name version m → m = n ∨ Text.before n m = true := by
  rw [storedPackage_eq read pinned, Option.map_eq_some_iff] at stored
  obtain ⟨n, found, rfl⟩ := stored
  obtain ⟨child, starts⟩ := mem_storeNames.mp (List.mem_of_find?_eq_some found)
  have package := List.find?_some found
  refine ⟨n, ⟨child, starts, package⟩, rfl, fun m holds => ?_⟩
  have sorted := Text.sorts_before.pairwise_mergeSort (fun s => s)
    ((t.children (folderFor (storeOf root) (storeStart name version))).filter
      (startsLike (namesFor (storeStart name version))))
  exact Text.sorts_before.find?_first sorted found (mem_storeNames.mpr ⟨holds.child, holds.starts⟩)
    holds.package

theorem stored_eq_none_iff (read : t.read? (storeOf root / "lock.yaml") = some lock)
    (pinned : pinnedVersion lock name = some version) :
    storedPackage t root name = none ↔ ∀ n, ¬ Holds t (storeOf root) name version n := by
  rw [storedPackage_eq read pinned, Option.map_eq_none_iff, List.find?_eq_none]
  constructor
  · intro misses n holds
    exact misses n (mem_storeNames.mpr ⟨holds.child, holds.starts⟩) holds.package
  · intro misses n member package
    obtain ⟨child, starts⟩ := mem_storeNames.mp member
    exact misses n ⟨child, starts, package⟩

/-- The store of a project that can be read has an absolute path. -/
theorem isAbsolute_storeOf (read : t.read? (storeOf root / "lock.yaml") = some lock) :
    (storeOf root).isAbsolute = true := by
  obtain ⟨x, located, -⟩ := Tree.get?_eq_some (Tree.read?_eq_some.mp read)
  have absolute := Tree.isAbsolute_of_locate? located
  have named : (storeOf root).fileName? = some ".pnpm" :=
    Path.fileName?_join ⟨by decide, by decide, by decide, by decide⟩
  have text := Path.text_ne_of_fileName? (p := storeOf root) (by rw [named]; rfl)
  rwa [Path.isAbsolute_join text (by decide)] at absolute

/-- What is found of a package with a locked version. The path of a directory, with any ending, is
the one written out for it. Nothing is found only if no directory holds the package; else it lies in
the first in order of those that do. That one belongs to the locked version exactly if one of that
version comes before all directories of others. The directory without peers is passed over only for
a name in other letters. -/
theorem stored_first_in_order (read : t.read? (storeOf root / "lock.yaml") = some lock)
    (pinned : pinnedVersion lock name = some version) :
    (∀ suffix : String, '/' ∉ suffix.toList →
      (folderFor (storeOf root) (storeStart name version) /
        (namesFor (storeStart name version) ++ suffix)).same
          ⟨(storeOf root).text ++ "/" ++ storeStart name version ++ suffix⟩ = true) ∧
    (storedPackage t root name = none ↔ ∀ n, ¬ Holds t (storeOf root) name version n) ∧
    ∀ d, storedPackage t root name = some d →
      ∃ n, Holds t (storeOf root) name version n ∧
        d = storePlace (storeOf root) name version n ∧
        d.components = (folderFor (storeOf root) (storeStart name version) / n).components ++
          .name "node_modules" :: (segmentsOf name.toList).filterMap componentOf ∧
        (∀ m, Holds t (storeOf root) name version m → m = n ∨ Text.before n m = true) ∧
        (IsLocked name version n ↔
          ∃ m, Holds t (storeOf root) name version m ∧ IsLocked name version m ∧
            ∀ other, Holds t (storeOf root) name version other →
              ¬ IsLocked name version other → Text.before m other = true) ∧
        (Holds t (storeOf root) name version (namesFor (storeStart name version)) →
          (namesFor (storeStart name version)).toList <+: n.toList →
            n = namesFor (storeStart name version)) := by
  refine ⟨fun suffix => same_folderFor (isAbsolute_storeOf read) _,
    stored_eq_none_iff read pinned, fun d stored => ?_⟩
  obtain ⟨n, holds, rfl, first⟩ := holds_of_stored read pinned stored
  have text := Path.text_join_ne (text_folderFor_ne (storeOf root) (storeStart name version)) n
  refine ⟨n, holds, rfl, components_packageIn text name, first, ⟨fun locked => ?_, ?_⟩,
    fun exact part => ?_⟩
  · refine ⟨n, holds, locked, fun other held unlocked => (first other held).resolve_left ?_⟩
    rintro rfl
    exact unlocked locked
  · rintro ⟨m, held, locked, ahead⟩
    refine Classical.byContradiction fun unlocked => ?_
    rcases first m held with rfl | after
    · exact unlocked locked
    · exact absurd (ahead n holds unlocked) (by simp [Text.sorts_before.asymm after])
  · refine Classical.byContradiction fun different => ?_
    rcases first _ exact with same | after
    · exact different same.symm
    · exact absurd (Text.before_of_starts part (Ne.symm different))
        (by simp [Text.sorts_before.asymm after])

end Stored

/-- A store that holds the package `a`, locked at 1.1, in some directories. -/
def storeTree (directories : List String) : Tree :=
  ⟨[(["p"], .directory), (["p", "node_modules"], .directory),
    (["p", "node_modules", ".pnpm"], .directory),
    (["p", "node_modules", ".pnpm", "lock.yaml"], .file (.text "a@1.1:\n"))] ++
  directories.flatMap fun d =>
    [(["p", "node_modules", ".pnpm", d], .directory),
      (["p", "node_modules", ".pnpm", d, "node_modules"], .directory),
      (["p", "node_modules", ".pnpm", d, "node_modules", "a"], .directory)]⟩

/-- Beside a longer version, the directory of the locked one is found. -/
theorem stored_first_in_order_exact :
    pinnedVersion "a@1.1:\n" "a" = some "1.1" ∧
    storedPackage (storeTree ["a@1.10.0", "a@1.1"]) ⟨"/p"⟩ "a" =
      some ⟨"/p/node_modules/.pnpm/a@1.1/node_modules/a"⟩ := by
  have read : (storeTree ["a@1.10.0", "a@1.1"]).read? (storeOf ⟨"/p"⟩ / "lock.yaml") =
      some "a@1.1:\n" := by decide +kernel
  have pinned : pinnedVersion "a@1.1:\n" "a" = some "1.1" := by decide +kernel
  have start : namesFor (storeStart "a" "1.1") = "a@1.1" := by decide +kernel
  have children : (storeTree ["a@1.10.0", "a@1.1"]).children
      (folderFor (storeOf ⟨"/p"⟩) (storeStart "a" "1.1")) =
        ["lock.yaml", "a@1.10.0", "a@1.1"] := by decide +kernel
  have held : Holds (storeTree ["a@1.10.0", "a@1.1"]) (storeOf ⟨"/p"⟩) "a" "1.1" "a@1.1" :=
    ⟨by rw [children]; simp, by decide +kernel, by decide +kernel⟩
  refine ⟨pinned, ?_⟩
  obtain ⟨-, missing, found⟩ := stored_first_in_order read pinned
  cases stored : storedPackage (storeTree ["a@1.10.0", "a@1.1"]) ⟨"/p"⟩ "a" with
  | none => exact absurd held (missing.mp stored "a@1.1")
  | some d =>
    obtain ⟨n, ⟨child, starts, -⟩, rfl, -, -, -, exact⟩ := found d stored
    rw [children] at child
    rw [start] at starts exact
    have fits : ∀ n ∈ ["lock.yaml", "a@1.10.0", "a@1.1"], startsLike "a@1.1" n = true →
        "a@1.1".toList.isPrefixOf n.toList = true := by decide +kernel
    rw [exact held (List.isPrefixOf_iff_prefix.mp (fits n child starts))]
    decide +kernel

/-- With peers in its name, the directory of the locked version is passed over for a longer one. -/
theorem longer_version_stored :
    (storeTree ["a@1.10.0", "a@1.1_react@18.2.0"]).read? (storeOf ⟨"/p"⟩ / "lock.yaml") =
      some "a@1.1:\n" ∧
    pinnedVersion "a@1.1:\n" "a" = some "1.1" ∧
    Holds (storeTree ["a@1.10.0", "a@1.1_react@18.2.0"]) (storeOf ⟨"/p"⟩) "a" "1.1"
      "a@1.1_react@18.2.0" ∧
    IsLocked "a" "1.1" "a@1.1_react@18.2.0" ∧
    storedPackage (storeTree ["a@1.10.0", "a@1.1_react@18.2.0"]) ⟨"/p"⟩ "a" =
      some ⟨"/p/node_modules/.pnpm/a@1.10.0/node_modules/a"⟩ ∧
    ¬ IsLocked "a" "1.1" "a@1.10.0" := by
  have read : (storeTree ["a@1.10.0", "a@1.1_react@18.2.0"]).read?
      (storeOf ⟨"/p"⟩ / "lock.yaml") = some "a@1.1:\n" := by decide +kernel
  have pinned : pinnedVersion "a@1.1:\n" "a" = some "1.1" := by decide +kernel
  have start : namesFor (storeStart "a" "1.1") = "a@1.1" := by decide +kernel
  have names : storeNames (storeTree ["a@1.10.0", "a@1.1_react@18.2.0"]) (storeOf ⟨"/p"⟩)
      (storeStart "a" "1.1") = ["a@1.10.0", "a@1.1_react@18.2.0"] := by
    have fitting : ((storeTree ["a@1.10.0", "a@1.1_react@18.2.0"]).children
        (folderFor (storeOf ⟨"/p"⟩) (storeStart "a" "1.1"))).filter
          (startsLike (namesFor (storeStart "a" "1.1"))) =
            ["a@1.10.0", "a@1.1_react@18.2.0"] := by decide +kernel
    rw [storeNames, fitting, Text.sort]
    exact List.mergeSort_of_pairwise (by decide +kernel)
  refine ⟨read, pinned, ⟨by decide +kernel, by decide +kernel, by decide +kernel⟩,
    ⟨"_react@18.2.0", by rw [start]; rfl, .inr (.inl (by decide))⟩, ?_, ?_⟩
  · rw [storedPackage_eq read pinned, names]
    decide +kernel
  · rintro ⟨peers, whole, ending⟩
    rw [start] at whole
    have chars : "a@1.1".toList ++ "0.0".toList = "a@1.1".toList ++ peers.toList :=
      (congrArg String.toList whole).trans String.toList_append
    rw [← String.toList_inj.mp (List.append_cancel_left chars)] at ending
    revert ending
    decide

end ModuleAtlas.Resolution
