import ModuleAtlas.Proofs.Tree
import ModuleAtlas.Resolution.Location

/-!
# What specifiers mean

Whatever way a specifier is resolved, the path it gives is normal as long as no extension holds a
slash (`resolve_isNormal`): the candidates of a normal path that are files are normal themselves.
So a file has one path among all that resolving gives.

A relative specifier means what it means by the components of the file it stands in
(`relativeFile_congr`), and after one file of the tree was overwritten or deleted it means what it
meant unless it meant that file (`relativeFile_edited`).
-/

namespace ModuleAtlas.Resolution

open ModuleAtlas.Path (IsName ofNames)
open ModuleAtlas.Tree (Edited)

variable {t : Tree} {extensions : List String}

/-- Extensions that stay inside the last segment of a path. -/
def Slashless (extensions : List String) : Prop := ∀ e ∈ extensions, '/' ∉ e.toList

instance (extensions : List String) : Decidable (Slashless extensions) :=
  inferInstanceAs (Decidable (∀ e ∈ extensions, '/' ∉ e.toList))

/-! ## Candidates -/

theorem indexName_relative (e : String) : (⟨"index" ++ e⟩ : Path).isAbsolute = false := by
  rw [Path.isAbsolute, String.toList_append]
  rfl

/-- Files are not found at the root. -/
theorem not_isFile_of_components {p : Path} (h : p.components = [.root]) : t.isFile p = false := by
  rw [← Bool.not_eq_true]
  intro file
  obtain ⟨c, found⟩ := Tree.isFile_iff.mp file
  obtain ⟨x, located, node⟩ := Tree.get?_eq_some found
  have walked := Tree.locate?_components located
  rw [h] at walked
  cases walked
  cases node

theorem isName_append {s e : List Char} (name : IsName s) (slashless : '/' ∉ e) :
    IsName (s ++ e) := by
  obtain ⟨nonempty, dot, dots, noSlash⟩ := name
  refine ⟨by simp [nonempty], ?_, ?_, by simp [noSlash, slashless]⟩
  · intro h
    rw [List.append_eq_singleton_iff] at h
    rcases h with ⟨empty, -⟩ | ⟨one, -⟩
    · exact nonempty empty
    · exact dot one
  · intro h
    rw [List.append_eq_cons_iff] at h
    rcases h with ⟨empty, -⟩ | ⟨more, rfl, rest⟩
    · exact nonempty empty
    · rw [eq_comm, List.append_eq_singleton_iff] at rest
      rcases rest with ⟨rfl, -⟩ | ⟨rfl, -⟩
      · exact dot rfl
      · exact dots rfl

/-- An extension behind a normal path gives a normal path, if it gives a file. -/
theorem isNormal_append {names : List (List Char)} (isName : ∀ n ∈ names, IsName n) {e : String}
    (slashless : '/' ∉ e.toList) (file : t.isFile ((ofNames names).append e) = true) :
    ((ofNames names).append e).IsNormal := by
  rcases List.eq_nil_or_concat names with rfl | ⟨front, last, rfl⟩
  · have text : ((ofNames []).append e).text.toList = '/' :: e.toList := by
      rw [Path.append, String.toList_append, Path.toList_ofNames]
      rfl
    have components := Path.components_of_absolute text
    rw [Path.segmentsOf_of_slashless slashless] at components
    rcases Path.componentOf_cases slashless with ⟨blank, -⟩ | ⟨-, dots⟩ | ⟨-, name⟩
    · rw [List.filterMap_cons, blank, List.filterMap_nil] at components
      rw [not_isFile_of_components components] at file
      cases file
    · -- The root is its own parent.
      have whole : (ofNames []).append e = ⟨"/.."⟩ := by
        rw [← String.ofList_toList (s := e), dots]
        rfl
      rw [whole] at file
      obtain ⟨c, found⟩ := Tree.isFile_iff.mp file
      obtain ⟨x, located, node⟩ := Tree.get?_eq_some found
      cases located
      cases node
    · have whole : (ofNames []).append e = ofNames [e.toList] := by
        rw [Path.append, ofNames, ofNames]
        congr 1
        apply String.toList_inj.mp
        rw [String.toList_append, String.toList_ofList, String.toList_ofList]
        simp
      rw [whole]
      exact Path.isNormal_ofNames (by simpa using name)
  · rw [List.concat_eq_append] at isName ⊢
    rw [Path.ofNames_append]
    apply Path.isNormal_ofNames
    intro n member
    rcases List.mem_append.mp member with inFront | isLast
    · exact isName n (List.mem_append_left _ inFront)
    · rw [List.mem_singleton] at isLast
      subst isLast
      exact isName_append (isName last (by simp)) slashless

theorem isNormal_index {names : List (List Char)} (isName : ∀ n ∈ names, IsName n) {e : String}
    (slashless : '/' ∉ e.toList) : (ofNames names / ("index" ++ e)).IsNormal := by
  have name : IsName ("index" ++ e).toList := by
    rw [String.toList_append]
    exact isName_append (by simp [IsName]) slashless
  rw [Path.ofNames_join isName name]
  apply Path.isNormal_ofNames
  intro n member
  rcases List.mem_append.mp member with old | new
  · exact isName n old
  · rw [List.mem_singleton] at new
    subst new
    exact name

theorem isAbsolute_of_candidate {p q : Path} (slashless : Slashless extensions)
    (member : q ∈ candidates extensions p) (absolute : q.isAbsolute = true) :
    p.isAbsolute = true := by
  by_cases text : p.text = ""
  · have empty : p = ⟨""⟩ := by rw [← text]
    subst empty
    rw [candidates, List.mem_cons, List.mem_append, List.mem_map, List.mem_map] at member
    rcases member with rfl | ⟨e, listed, rfl⟩ | ⟨e, -, rfl⟩
    · exact absolute
    · obtain ⟨cs, chars⟩ := Path.isAbsolute_iff.mp absolute
      rw [Path.append, String.empty_append] at chars
      exact absurd (by rw [chars]; exact List.mem_cons_self) (slashless e listed)
    · rw [Path.join_of_empty rfl, indexName_relative] at absolute
      cases absolute
  · rw [candidates, List.mem_cons, List.mem_append, List.mem_map, List.mem_map] at member
    rcases member with rfl | ⟨e, -, rfl⟩ | ⟨e, -, rfl⟩
    · exact absolute
    · rwa [Path.isAbsolute_append text] at absolute
    · rwa [Path.isAbsolute_join text (indexName_relative e)] at absolute

/-- The files that a worked-out path may stand for have normal paths. -/
theorem fileFor_isNormal {p q : Path} (slashless : Slashless extensions)
    (h : fileFor t extensions p.normalize = some q) : q.IsNormal ∧ t.isFile q = true := by
  have file : t.isFile q = true := List.find?_some h
  have member : q ∈ candidates extensions p.normalize := List.mem_of_find?_eq_some h
  have absolute := isAbsolute_of_candidate slashless member (Tree.isAbsolute_of_isFile file)
  rw [Path.isAbsolute_normalize] at absolute
  obtain ⟨names, isName, whole⟩ := Path.exists_names_of_absolute absolute
  refine ⟨?_, file⟩
  rw [whole, candidates, List.mem_cons, List.mem_append, List.mem_map, List.mem_map] at member
  rcases member with rfl | ⟨e, listed, rfl⟩ | ⟨e, listed, rfl⟩
  · exact Path.isNormal_ofNames isName
  · exact isNormal_append isName (slashless e listed) file
  · exact isNormal_index isName (slashless e listed)

/-! ## Relative specifiers -/

theorem relativeFile_isNormal {project : Project} {a : Aliases} {file q : Path}
    {specifier : String} (slashless : Slashless project.extensions)
    (h : relativeFile t project a file specifier = some q) : q.IsNormal ∧ t.isFile q = true := by
  obtain ⟨p, -, found⟩ := Option.bind_eq_some_iff.mp h
  exact fileFor_isNormal slashless found

/-- Two texts of one file give a relative specifier the same meaning. -/
theorem relativeFile_congr {project : Project} {a : Aliases} {file file' : Path}
    (same : file.same file' = true) (specifier : String) :
    relativeFile t project a file specifier = relativeFile t project a file' specifier := by
  rw [relativeFile, relativeFile, relativePath, relativePath]
  cases a.expand specifier with
  | some expanded => rfl
  | none =>
    dsimp only
    split
    · rfl
    · have beside := Path.normalize_beside_congr same specifier
      have through (d : Option Path) :
          ((d.map (· / specifier)).bind fun p => fileFor t project.extensions p.normalize) =
            (d.map fun d => (d / specifier).normalize).bind (fileFor t project.extensions) := by
        cases d <;> rfl
      rw [through, through, beside]

theorem kind_empty (a : Aliases) : LookupKind.of a "" = .package := by
  have noMatch : a.isMatch "" = false := by
    rw [Aliases.isMatch, List.any_eq_false]
    intro e _
    rw [afterKey?]
    cases key : e.1.toList with
    | nil => simp
    | cons c cs => simp
  simp [LookupKind.of, noMatch]

/-- A relative specifier is looked up as a path, in the context it is asked in. -/
theorem resolve_of_relative {project : Project} {a : Aliases} {specifier : String}
    (kind : LookupKind.of a specifier = .relative) (file : Path) (context : Option Path)
    (m : Finds) :
    resolve t project a specifier file context m =
      ((relativeFile t project a file specifier).map (⟨·, context⟩), m) := by
  have nonempty : specifier.isEmpty = false := by
    rw [← Bool.not_eq_true, String.isEmpty_iff]
    rintro rfl
    rw [kind_empty] at kind
    cases kind
  rw [resolve, nonempty, kind]
  rfl

/-! ## All specifiers -/

/-- How a path can be found: as the file that a worked-out path stands for, or as the normal form of
a path that is a file. -/
def FoundAs (t : Tree) (extensions : List String) (q : Path) : Prop :=
  (∃ p : Path, fileFor t extensions p.normalize = some q) ∨
    ∃ p : Path, t.isFile p = true ∧ q = p.normalize

theorem entryFile_foundAs {dir q : Path} {m : Manifest} {subpath : Option String}
    (h : entryFile t extensions dir m subpath = some q) : FoundAs t extensions q := by
  have main : mainFile t extensions dir m = some q → FoundAs t extensions q := by
    intro h
    obtain ⟨entry, -, found⟩ := Option.bind_eq_some_iff.mp h
    exact .inl ⟨_, found⟩
  unfold entryFile at h
  split at h
  · exact main h
  · split at h
    · split at h
      · exact .inl ⟨_, h⟩
      · exact main h
    · dsimp only at h
      split at h
      · next file =>
        cases h
        exact .inr ⟨_, file, rfl⟩
      · exact main h

theorem resolve_foundAs {project : Project} {a : Aliases} {specifier : String} {file : Path}
    {context : Option Path} {m : Finds} {l : Location}
    (h : (resolve t project a specifier file context m).1 = some l) :
    FoundAs t project.extensions l.path := by
  unfold resolve at h
  split at h
  · cases h
  · split at h
    · obtain ⟨q, found, rfl⟩ := Option.map_eq_some_iff.mp h
      obtain ⟨p, -, found⟩ := Option.bind_eq_some_iff.mp found
      exact .inl ⟨p, found⟩
    · obtain ⟨p, -, entry⟩ := Option.bind_eq_some_iff.mp h
      unfold entryOf at entry
      split at entry
      · cases entry
      · obtain ⟨q, found, rfl⟩ := Option.map_eq_some_iff.mp entry
        exact entryFile_foundAs found

/-- Every specifier that means a file means it by its normal path. -/
theorem resolve_isNormal {project : Project} {a : Aliases} {specifier : String} {file : Path}
    {context : Option Path} {m : Finds} {l : Location}
    (slashless : Slashless project.extensions)
    (h : (resolve t project a specifier file context m).1 = some l) : l.path.IsNormal := by
  rcases resolve_foundAs h with ⟨p, found⟩ | ⟨p, isFile, normal⟩
  · exact (fileFor_isNormal slashless found).1
  · rw [normal]
    exact Path.isNormal_normalize (Tree.isAbsolute_of_isFile isFile)

/-- Whatever a specifier means is a file. A path that was looked at before it was worked out is one
afterwards too. -/
theorem resolve_isFile {project : Project} {a : Aliases} {specifier : String} {file : Path}
    {context : Option Path} {m : Finds} {l : Location}
    (h : (resolve t project a specifier file context m).1 = some l) : t.isFile l.path = true := by
  rcases resolve_foundAs h with ⟨p, found⟩ | ⟨p, isFile, normal⟩
  · exact List.find?_some found
  · rw [normal]
    exact Tree.isFile_normalize isFile

/-! ## After one file changed -/

section Edits

variable {t' : Tree} {place : List String} (edited : Edited t t' place)
include edited

theorem fileFor_edited {p q : Path} (h : fileFor t extensions p = some q)
    (still : t'.isFile q = true) : fileFor t' extensions p = some q := by
  rw [fileFor, List.find?_eq_some_iff_append] at h ⊢
  obtain ⟨-, earlier, later, whole, none⟩ := h
  refine ⟨still, earlier, later, whole, fun x member => ?_⟩
  have absent := none x member
  rw [Bool.not_eq_true', ← Bool.not_eq_true] at absent ⊢
  exact fun file => absent (edited.isFile_of_isFile file)

theorem fileFor_edited_none {p : Path} (h : fileFor t extensions p = none) :
    fileFor t' extensions p = none := by
  rw [fileFor, List.find?_eq_none] at h ⊢
  exact fun x member file => h x member (edited.isFile_of_isFile file)

theorem relativeFile_edited {project : Project} {a : Aliases} {file q : Path} {specifier : String}
    (h : relativeFile t project a file specifier = some q) (still : t'.isFile q = true) :
    relativeFile t' project a file specifier = some q := by
  obtain ⟨p, path, found⟩ := Option.bind_eq_some_iff.mp h
  rw [relativeFile, path, Option.bind_some]
  exact fileFor_edited edited found still

theorem relativeFile_edited_none {project : Project} {a : Aliases} {file : Path}
    {specifier : String} (h : relativeFile t project a file specifier = none) :
    relativeFile t' project a file specifier = none := by
  rw [relativeFile] at h ⊢
  cases path : relativePath a file specifier with
  | none => rfl
  | some p =>
    rw [path, Option.bind_some] at h
    rw [Option.bind_some]
    exact fileFor_edited_none edited h

theorem projectAliases_edited {root : Path}
    (away : ∀ name ∈ aliasFiles, t.locate? (root / name) ≠ some place) :
    projectAliases t' root = projectAliases t root := by
  have present : ∀ file ∈ aliasFiles.map (root / ·), t'.has file = t.has file ∧
      t'.read? file = t.read? file := by
    intro file member
    obtain ⟨name, listed, rfl⟩ := List.mem_map.mp member
    exact ⟨by rw [Tree.has, Tree.has, edited.get?_eq (away name listed)],
      edited.read?_eq (away name listed)⟩
  have first : (aliasFiles.map (root / ·)).find? t'.has =
      (aliasFiles.map (root / ·)).find? t.has := by
    generalize aliasFiles.map (root / ·) = files at present
    induction files with
    | nil => rfl
    | cons file files ih =>
      rw [List.find?_cons, List.find?_cons, (present file List.mem_cons_self).1,
        ih fun f member => present f (List.mem_cons_of_mem _ member)]
  rw [projectAliases, projectAliases, first]
  cases found : (aliasFiles.map (root / ·)).find? t.has with
  | none => rfl
  | some file => simp only [(present file (List.mem_of_find?_eq_some found)).2]

end Edits

end ModuleAtlas.Resolution
