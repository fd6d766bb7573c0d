import ModuleAtlas.Proofs.SearchOrder

/-!
# Packages found in the course of time

What is remembered may have been found on another tree, by another lookup, under a longer name. Two
things hold of every package that is found all the same (`found_after_errands`). Its directory is
there and holds a manifest, since a find is looked at again before it is given out
(`known_isThere`). And its name is one that the specifier goes on behind with a slash, or all of the
specifier: that is so of every entry and the name it is remembered for (`NamesFit`), whatever becomes
of the tree (`namesFit_findsOf`). So what is left of the specifier behind the name is the path inside
the package (`subpathOf_of_slash`).
-/

namespace ModuleAtlas.Resolution

/-! ## Errands -/

/-- What can be asked of those who remember: to look something up, or to forget everything. -/
inductive Errand where
  | lookUp (c : Lookup)
  | forget
deriving DecidableEq, Repr

/-- The finds remembered after an errand on a tree. -/
def Errand.after (t : Tree) (root : Path) (m : Finds) : Errand → Finds
  | .lookUp c => (findPackage t ⟨root, c.context⟩ c.file c.name m).2
  | .forget => []

/-- The finds remembered after errands, each done on a tree of its own. -/
def findsOf (root : Path) (steps : List (Tree × Errand)) : Finds :=
  steps.foldl (fun m step => step.2.after step.1 root m) []

/-! ## Names that fit -/

/-- Every package is remembered for a name that can be shortened to its own. -/
def NamesFit (m : Finds) : Prop := ∀ e ∈ m, e.2.name ∈ namesOf e.1.name

section NamesFit

variable {t : Tree} {scope : SearchScope} {m : Finds} {searchRoot file : Path} {name : String}
  {names : List String} {p : Package}

theorem known_isThere (found : known t scope m searchRoot name = some p) : p.isThere t = true := by
  rcases Option.or_eq_some_iff.mp found with remembered | ⟨-, lies⟩
  · exact (Option.filter_eq_some_iff.mp remembered).2
  · rw [packageAt_eq] at lies
    exact List.find?_some lies

theorem name_of_packageAt (lies : packageAt t scope searchRoot name = some p) : p.name = name := by
  obtain ⟨dir, -, rfl⟩ := Option.map_eq_some_iff.mp lies
  rfl

namespace NamesFit

theorem known (fit : NamesFit m) (found : known t scope m searchRoot name = some p) :
    p.name ∈ namesOf name := by
  rcases Option.or_eq_some_iff.mp found with remembered | ⟨-, lies⟩
  · obtain ⟨e, member, same, rfl⟩ := Finds.mem_of_valid? remembered
    obtain ⟨-, rfl, -⟩ := FindKey.same_iff.mp same
    exact fit e member
  · rw [name_of_packageAt lies]
    exact mem_namesOf_self name

/-- A search through names that a name is shortened to. -/
theorem findSome? (fit : NamesFit m) (part : names ⊆ namesOf name)
    (found : names.findSome? (Resolution.known t scope m searchRoot) = some p) :
    p.isThere t = true ∧ p.name ∈ namesOf name := by
  obtain ⟨n, member, found⟩ := List.exists_of_findSome?_eq_some found
  have shorter := namesOf_suffix_of_mem (part member)
  exact ⟨known_isThere found, shorter.subset (fit.known found)⟩

theorem findPackage (fit : NamesFit m)
    (found : (Resolution.findPackage t scope file name m).1 = some p) :
    p.isThere t = true ∧ p.name ∈ namesOf name := by
  rw [fst_findPackage] at found
  rcases Option.or_eq_some_iff.mp found with whole | ⟨-, found⟩
  · exact ⟨known_isThere whole, fit.known whole⟩
  · rcases Option.or_eq_some_iff.mp found with inside | ⟨-, shorter⟩
    · obtain ⟨w, -, inside⟩ := Option.bind_eq_some_iff.mp inside
      exact fit.findSome? (List.Subset.refl _) inside
    · exact fit.findSome? (List.tail_subset _) shorter

/-- A lookup remembers what fits, on whatever tree. -/
theorem lookUp (fit : NamesFit m) : NamesFit (Resolution.findPackage t scope file name m).2 := by
  intro e member
  rcases mem_findPackage member with old | ⟨n, -, same, found⟩ | ⟨w, n, rest, -, suffix, same, found⟩
  · exact fit e old
  · rw [(FindKey.same_iff.mp same).2.1]
    exact (fit.findPackage found).2
  · rw [← namesOf_of_suffix suffix] at found
    rw [(FindKey.same_iff.mp same).2.1]
    exact (fit.findSome? (List.Subset.refl _) found).2

theorem after (fit : NamesFit m) (t : Tree) (root : Path) (errand : Errand) :
    NamesFit (errand.after t root m) := by
  cases errand with
  | lookUp c => exact fit.lookUp
  | forget => exact fun e member => nomatch member

end NamesFit

theorem namesFit_findsOf (root : Path) (steps : List (Tree × Errand)) :
    NamesFit (findsOf root steps) := by
  have kept : ∀ (steps : List (Tree × Errand)) (m : Finds), NamesFit m →
      NamesFit (steps.foldl (fun m step => step.2.after step.1 root m) m) := by
    intro steps
    induction steps with
    | nil => exact fun m fit => fit
    | cons step steps ih => exact fun m fit => ih _ (fit.after step.1 root step.2)
  exact kept steps [] fun e member => nomatch member

end NamesFit

/-! ## The path inside the package -/

/-- A text without the slashes it begins with. -/
def withoutSlashes (text : String) : String :=
  String.ofList (text.toList.dropWhile (· == '/'))

theorem subpathOf_self (name : String) : subpathOf name name = none := by
  rw [subpathOf, if_pos (by simp), ← String.length_toList, List.drop_length]
  rfl

theorem subpathOf_of_slash (n rest : String) :
    subpathOf (n ++ "/" ++ rest) n =
      if withoutSlashes rest = "" then none else some (withoutSlashes rest) := by
  have behind : (n.toList ++ '/' :: rest.toList).drop n.toList.length = '/' :: rest.toList :=
    List.drop_left
  have empty : withoutSlashes rest = "" ↔ (rest.toList.dropWhile (· == '/')).isEmpty = true := by
    rw [List.isEmpty_iff, withoutSlashes, ← String.toList_inj, String.toList_ofList]
    rfl
  rw [subpathOf, toList_slash, if_pos (by simp), ← String.length_toList, behind,
    List.dropWhile_cons_of_pos rfl]
  simp only [empty]
  rfl

/-! ## Lookups after errands -/

/-- Whatever was looked up and forgotten before, and however the tree changed in between, a package
that is found for a specifier is there, with its manifest. Its name is the specifier, and then there
is no path inside the package, or the specifier goes on behind the name with a slash, and then the
path inside the package is what follows, if anything does. -/
theorem found_after_errands (root : Path) (steps : List (Tree × Errand)) (t : Tree) (c : Lookup)
    (nonempty : c.name ≠ "") {p : Package} {m : Finds}
    (found : findPackage t ⟨root, c.context⟩ c.file c.name (findsOf root steps) = (some p, m)) :
    t.isDirectory p.dir = true ∧ t.isFile (p.dir / "package.json") = true ∧ p.name ≠ "" ∧
    (p.name = c.name ∧ subpathOf c.name p.name = none ∨
      ∃ rest, c.name = p.name ++ "/" ++ rest ∧
        subpathOf c.name p.name =
          if withoutSlashes rest = "" then none else some (withoutSlashes rest)) := by
  have fit := namesFit_findsOf root steps
  obtain ⟨there, fits⟩ := fit.findPackage (congrArg Prod.fst found)
  obtain ⟨directory, manifest⟩ := Bool.and_eq_true_iff.mp there
  refine ⟨directory, manifest, ?_⟩
  rcases mem_namesOf.mp fits with whole | ⟨named, rest, goesOn⟩
  · rw [whole]
    exact ⟨nonempty, .inl ⟨rfl, subpathOf_self c.name⟩⟩
  · refine ⟨named, .inr ⟨rest, goesOn, ?_⟩⟩
    rw [goesOn]
    exact subpathOf_of_slash p.name rest

/-- A find of one workspace, made under a longer name and given out to another workspace after a
file was written. -/
theorem found_after_errands_workspaces :
    let edited := workspacesTree.write ⟨"/p/b/n"⟩ (.text "")
    let v : Package := ⟨⟨"/p/a/node_modules/v"⟩, "v"⟩
    let finds := findsOf ⟨"/p"⟩
      [(edited, .lookUp ⟨⟨"/p/b/n"⟩, "v", none⟩), (edited, .forget),
        (workspacesTree, .lookUp ⟨⟨"/p/a/m"⟩, "v/x", none⟩)]
    "v/x" ≠ "" ∧ (findPackage edited ⟨⟨"/p"⟩, none⟩ ⟨"/p/b/n"⟩ "v/x" finds).1 = some v ∧
    edited.isDirectory v.dir = true ∧ edited.isFile (v.dir / "package.json") = true ∧
    v.name ≠ "" ∧
    (v.name = "v/x" ∧ subpathOf "v/x" v.name = none ∨
      ∃ rest, "v/x" = v.name ++ "/" ++ rest ∧
        subpathOf "v/x" v.name =
          if withoutSlashes rest = "" then none else some (withoutSlashes rest)) := by
  intro edited v finds
  have named : "v/x" ≠ "" := by decide
  have served : (findPackage edited ⟨⟨"/p"⟩, none⟩ ⟨"/p/b/n"⟩ "v/x" finds).1 = some v := by
    decide +kernel
  exact ⟨named, served,
    found_after_errands _ _ edited ⟨⟨"/p/b/n"⟩, "v/x", none⟩ named (Prod.ext served rfl)⟩

end ModuleAtlas.Resolution
