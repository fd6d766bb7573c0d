import ModuleAtlas.Proofs.Settled

/-!
# Packages remembered

Finds are remembered by context, name and search root. A package that is found in the workspace of a
file is remembered for that workspace, and for the root of the project as well; from there it is
served to the files of every workspace. So a file may be given a package that it does not see
(`answer_from_other_workspace`).

What holds of every list of lookups is `answer_after_lookups`. Each entry is compared with what is
seen with nothing remembered: one for a workspace is what is seen there, one for the root fits the
lookups that it is served to (`Remembered`, `Fits`). A lookup comes to what fits it
(`Remembered.fits_answer`), and what it remembers for a shorter name is what it would have come to
under that name (`mem_findPackage`), so the comparison goes on to the next one
(`Remembered.lookup`).
-/

namespace ModuleAtlas.Resolution

open Atlas (sameContext_refl sameContext_symm sameContext_trans)

variable {t : Tree} {root : Path}

/-! ## Names -/

theorem length_shorten? {name shorter : List Char} (h : shorten? name = some shorter) :
    shorter.length < name.length := by
  unfold shorten? at h
  have bound := (List.dropWhile_sublist (· != '/') (l := name.reverse)).length_le
  rw [List.length_reverse] at bound
  split at h
  · cases h
  · next c front cut =>
    rw [cut, List.length_cons] at bound
    split at h
    · cases h
    · cases h
      rw [List.length_reverse]
      omega

/-- With one step for each character, a name is shortened as often as can be. -/
theorem shorterNames_of_le {fuel fuel' : Nat} {name : List Char} (enough : name.length ≤ fuel)
    (enough' : name.length ≤ fuel') : shorterNames fuel name = shorterNames fuel' name := by
  induction fuel generalizing fuel' name with
  | zero =>
    have empty : name = [] := List.eq_nil_of_length_eq_zero (by omega)
    subst empty
    cases fuel' <;> rfl
  | succ fuel ih =>
    cases fuel' with
    | zero =>
      have empty : name = [] := List.eq_nil_of_length_eq_zero (by omega)
      subst empty
      rfl
    | succ fuel' =>
      rw [shorterNames, shorterNames]
      split
      · next shorter shortened =>
        have less := length_shorten? shortened
        have tail : shorterNames fuel shorter = shorterNames fuel' shorter :=
          ih (by omega) (by omega)
        rw [tail]
      · rfl

theorem namesOf_ofList (name : List Char) :
    namesOf (String.ofList name) = String.ofList name :: shorterNames name.length name := by
  rw [namesOf, String.toList_ofList, String.length_ofList]

/-- What follows a name among those left of another is what is left of it. -/
theorem namesOf_of_suffix_shorter {fuel : Nat} {name : List Char} (enough : name.length ≤ fuel)
    {n : String} {rest : List String} (suffix : n :: rest <:+ shorterNames fuel name) :
    namesOf n = n :: rest := by
  induction fuel generalizing name with
  | zero => simp [shorterNames] at suffix
  | succ fuel ih =>
    rw [shorterNames] at suffix
    split at suffix
    · next shorter shortened =>
      have less := length_shorten? shortened
      rcases List.suffix_cons_iff.mp suffix with whole | inner
      · obtain ⟨rfl, rfl⟩ := List.cons.inj whole
        have tail : shorterNames shorter.length shorter = shorterNames fuel shorter :=
          shorterNames_of_le (Nat.le_refl _) (by omega)
        rw [namesOf_ofList, tail]
      · exact ih (by omega) inner
    · simp at suffix

theorem namesOf_of_suffix {name n : String} {rest : List String}
    (suffix : n :: rest <:+ namesOf name) : namesOf n = n :: rest := by
  rw [namesOf] at suffix
  rcases List.suffix_cons_iff.mp suffix with whole | inner
  · obtain ⟨rfl, rfl⟩ := List.cons.inj whole
    rfl
  · exact namesOf_of_suffix_shorter (Nat.le_of_eq String.length_toList) inner

theorem namesOf_suffix_of_mem {name n : String} (member : n ∈ namesOf name) :
    namesOf n <:+ namesOf name := by
  obtain ⟨front, rest, split⟩ := List.append_of_mem member
  have suffix : n :: rest <:+ namesOf name := ⟨front, split.symm⟩
  rwa [namesOf_of_suffix suffix]

theorem mem_namesOf_self (name : String) : name ∈ namesOf name :=
  List.mem_cons_self

/-! ## Packages as they are seen -/

/-- What a package says: what its directory and its name are, however the directory is spelled. -/
def Package.seen (p : Package) : List Component × String := (p.dir.components, p.name)

theorem isName_manifestName : Path.IsName manifestName.toList := by
  unfold Path.IsName
  decide

theorem holdsPackage_congr {p q : Path} (same : p.same q = true) :
    holdsPackage t p = holdsPackage t q := by
  rw [holdsPackage, holdsPackage, Tree.isDirectory_congr same]
  cases directory : t.isDirectory q with
  | false => rfl
  | true =>
    rw [← Tree.isDirectory_congr same] at directory
    rw [Tree.isFile_join_congr same (Tree.isDirectory_iff.mp directory).1 isName_manifestName]

/-- The first directory that holds a package is the same in lists of the same directories. -/
theorem find?_holdsPackage_congr {places places' : List Path}
    (same : List.Forall₂ (fun p q : Path => p.same q = true) places places') :
    ((places.find? (holdsPackage t)).map (·.components)) =
      (places'.find? (holdsPackage t)).map (·.components) := by
  induction same with
  | nil => rfl
  | cons first _ ih =>
    rw [List.find?_cons, List.find?_cons, holdsPackage_congr first]
    split
    · simp only [Option.map_some, Path.same_iff.mp first]
    · exact ih

variable (t root) in
/-- The package of a name as it is seen from a search root, shorter names apart. -/
def sightAt (context : Option Path) (searchRoot : Path) (name : String) :
    Option (List Component × String) :=
  (packageAt t ⟨root, context⟩ searchRoot name).map Package.seen

theorem sameContext_cases {c c' : Option Path} (h : sameContext c c' = true) :
    (c = none ∧ c' = none) ∨ ∃ p q, c = some p ∧ c' = some q ∧ p.same q = true := by
  cases c with
  | none =>
    cases c' with
    | none => exact .inl ⟨rfl, rfl⟩
    | some q => cases h
  | some p =>
    cases c' with
    | none => cases h
    | some q => exact .inr ⟨p, q, rfl, rfl, h⟩

theorem placesOf_congr {context context' : Option Path} {searchRoot searchRoot' : Path}
    (contexts : sameContext context context' = true) (roots : searchRoot.same searchRoot' = true)
    (name : String) :
    List.Forall₂ (fun p q : Path => p.same q = true)
      (placesOf t ⟨root, context⟩ searchRoot name)
      (placesOf t ⟨root, context'⟩ searchRoot' name) := by
  have inContext : List.Forall₂ (fun p q : Path => p.same q = true)
      (context.toList.map (· / name)) (context'.toList.map (· / name)) := by
    rcases sameContext_cases contexts with ⟨rfl, rfl⟩ | ⟨p, q, rfl, rfl, same⟩
    · exact .nil
    · exact .cons (Path.join_congr same name) .nil
  have stored : List.Forall₂ (fun p q : Path => p.same q = true)
      (storedPackage t root name).toList (storedPackage t root name).toList :=
    List.forall₂_same.mpr fun p _ => Path.same_refl p
  have packages := Path.join_congr roots packagesName
  refine List.rel_append (List.rel_append (List.rel_append inContext ?_) stored) ?_
  · exact .cons (Path.join_congr packages name) .nil
  · exact .cons (Path.join_congr (Path.join_congr packages "@types") name) .nil

theorem sightAt_congr {context context' : Option Path} {searchRoot searchRoot' : Path}
    (contexts : sameContext context context' = true) (roots : searchRoot.same searchRoot' = true) :
    sightAt t root context searchRoot = sightAt t root context' searchRoot' := by
  funext name
  have shown : ∀ dir : Option Path, (dir.map (⟨·, name⟩ : Path → Package)).map Package.seen =
      (dir.map (·.components)).map (·, name) := by
    intro dir
    cases dir <;> rfl
  rw [sightAt, sightAt, packageAt, packageAt, shown, shown,
    find?_holdsPackage_congr (placesOf_congr contexts roots name)]

/-! ## Memory -/

theorem FindKey.same_iff {k l : FindKey} :
    k.same l = true ↔
      sameContext k.context l.context = true ∧ k.name = l.name ∧
        k.searchRoot.same l.searchRoot = true := by
  rw [FindKey.same, Bool.and_eq_true, Bool.and_eq_true, beq_iff_eq, and_assoc]

theorem FindKey.same_refl (k : FindKey) : k.same k = true :=
  FindKey.same_iff.mpr ⟨sameContext_refl _, rfl, Path.same_refl _⟩

/-- Finds are remembered by the search. -/
def FindKey.keyed : Keyed (FindKey × Package) FindKey where
  key := Prod.fst
  same := FindKey.same
  refl := FindKey.same_refl
  symm := by
    intro k l same
    obtain ⟨contexts, names, roots⟩ := FindKey.same_iff.mp same
    exact FindKey.same_iff.mpr ⟨sameContext_symm contexts, names.symm, Path.same_symm roots⟩
  trans := by
    intro j k l left right
    obtain ⟨contexts, names, roots⟩ := FindKey.same_iff.mp left
    obtain ⟨contexts', names', roots'⟩ := FindKey.same_iff.mp right
    exact FindKey.same_iff.mpr ⟨sameContext_trans contexts contexts', names.trans names',
      Path.same_trans roots roots'⟩

namespace Finds

variable {m : Finds} {k : FindKey} {p : Package} {e : FindKey × Package}

theorem mem_of_valid? (h : m.valid? t k = some p) : ∃ e ∈ m, e.1.same k = true ∧ e.2 = p := by
  obtain ⟨got, -⟩ := Option.filter_eq_some_iff.mp h
  obtain ⟨e, found, rfl⟩ := Option.map_eq_some_iff.mp got
  have same := List.find?_some found
  exact ⟨e, List.mem_of_find?_eq_some found, same, rfl⟩

theorem put_eq (m : Finds) (k : FindKey) (p : Package) :
    m.put k p = FindKey.keyed.put m k (fun e => (e.1, p)) (k, p) := by
  rw [put, Keyed.put, Keyed.find?, List.isSome_find?]
  rfl

theorem mem_put (member : e ∈ m.put k p) : e ∈ m ∨ (e.1.same k = true ∧ e.2 = p) := by
  rw [put_eq] at member
  rcases Keyed.mem_put member (fun _ => rfl) rfl with ⟨old, -⟩ | ⟨same, isNew | ⟨old, -, isNew⟩⟩
  · exact .inl old
  · exact .inr ⟨same, by rw [isNew]⟩
  · exact .inr ⟨same, by rw [isNew]⟩

end Finds

theorem fst_remember (k : FindKey) (found : Option Package) (m : Finds) :
    (remember k found m).1 = found := by
  cases found <;> rfl

theorem mem_remember {k : FindKey} {found : Option Package} {m : Finds} {e : FindKey × Package}
    (member : e ∈ (remember k found m).2) : e ∈ m ∨ (e.1.same k = true ∧ found = some e.2) := by
  cases found with
  | none => exact .inl member
  | some p =>
    rcases Finds.mem_put member with old | ⟨same, rfl⟩
    · exact .inl old
    · exact .inr ⟨same, rfl⟩

/-! ## The search -/

section Search

variable {scope : SearchScope} {searchRoot file : Path} {names : List String} {name : String}
  {m : Finds}

/-- What a search comes to under one name: what is remembered, or else what lies there. -/
def known (t : Tree) (scope : SearchScope) (m : Finds) (searchRoot : Path) (name : String) :
    Option Package :=
  (m.valid? t ⟨scope.context, name, searchRoot⟩).or (packageAt t scope searchRoot name)

theorem fst_searchNames :
    (searchNames t scope searchRoot names m).1 = names.findSome? (known t scope m searchRoot) := by
  induction names with
  | nil => rfl
  | cons name shorter ih =>
    rw [searchNames, List.findSome?_cons, known]
    cases m.valid? t ⟨scope.context, name, searchRoot⟩ with
    | some p => rfl
    | none =>
      cases packageAt t scope searchRoot name with
      | some p => rfl
      | none =>
        dsimp only [Option.or]
        rw [fst_remember, ih]

/-- A search that finds nothing leaves nothing behind. -/
theorem snd_searchNames (nothing : (searchNames t scope searchRoot names m).1 = none) :
    (searchNames t scope searchRoot names m).2 = m := by
  induction names with
  | nil => rfl
  | cons name shorter ih =>
    rw [searchNames] at nothing ⊢
    cases remembered : m.valid? t ⟨scope.context, name, searchRoot⟩ with
    | some p => simp [remembered] at nothing
    | none =>
      cases lies : packageAt t scope searchRoot name with
      | some p => simp [remembered, lies, fst_remember] at nothing
      | none =>
        simp only [remembered, lies, fst_remember] at nothing ⊢
        rw [nothing, remember, ih nothing]

/-- What a search remembers for a name is what it finds from that name on. -/
theorem mem_searchNames {e : FindKey × Package}
    (member : e ∈ (searchNames t scope searchRoot names m).2) :
    e ∈ m ∨ ∃ n rest, n :: rest <:+ names ∧ e.1.same ⟨scope.context, n, searchRoot⟩ = true ∧
      (n :: rest).findSome? (known t scope m searchRoot) = some e.2 := by
  induction names with
  | nil => exact .inl member
  | cons name shorter ih =>
    -- what is put under the first name is what the whole search finds
    have whole : (searchNames t scope searchRoot (name :: shorter) m).1 =
        (name :: shorter).findSome? (known t scope m searchRoot) := fst_searchNames
    rw [searchNames] at member whole
    cases remembered : m.valid? t ⟨scope.context, name, searchRoot⟩ with
    | some p =>
      simp only [remembered] at member
      exact .inl member
    | none =>
      cases lies : packageAt t scope searchRoot name with
      | some p =>
        simp only [remembered, lies, fst_remember] at member whole
        rcases mem_remember member with old | ⟨same, new⟩
        · exact .inl old
        · exact .inr ⟨name, shorter, List.suffix_rfl, same, whole.symm.trans new⟩
      | none =>
        simp only [remembered, lies, fst_remember] at member whole
        rcases mem_remember member with inner | ⟨same, new⟩
        · rcases ih inner with old | ⟨n, rest, suffix, same, found⟩
          · exact .inl old
          · exact .inr ⟨n, rest, suffix.trans (List.suffix_cons _ _), same, found⟩
        · exact .inr ⟨name, shorter, List.suffix_rfl, same, whole.symm.trans new⟩

theorem fst_searchWorkspace (workspace : Option Path) :
    (searchWorkspace t scope workspace names m).1 =
      workspace.bind fun w => names.findSome? (known t scope m w) := by
  cases workspace with
  | none => rfl
  | some w => exact fst_searchNames

theorem snd_searchWorkspace {workspace : Option Path}
    (nothing : (searchWorkspace t scope workspace names m).1 = none) :
    (searchWorkspace t scope workspace names m).2 = m := by
  cases workspace with
  | none => rfl
  | some w => exact snd_searchNames nothing

/-- The workspace of a file is below the root of the project. -/
theorem workspaceOf_ne_root {w : Path} (h : workspaceOf t root file = some w) :
    w.same root = false := by
  have below := List.all_eq_true.mp List.all_takeWhile w (List.mem_of_find?_eq_some h)
  rw [Bool.and_eq_true, Bool.not_eq_true'] at below
  exact below.1

/-- A package is found under its whole name below the root, then in the workspace, then under a
shorter name below the root. -/
theorem fst_findPackage :
    (findPackage t scope file name m).1 =
      (known t scope m scope.root name).or
        (((workspaceOf t scope.root file).bind fun w =>
            (namesOf name).findSome? (known t scope m w)).or
          ((namesOf name).tail.findSome? (known t scope m scope.root))) := by
  rw [findPackage, known]
  cases m.valid? t ⟨scope.context, name, scope.root⟩ with
  | some p => rfl
  | none =>
    cases packageAt t scope scope.root name with
    | some p => rfl
    | none =>
      dsimp only [Option.or]
      rw [← fst_searchWorkspace]
      split
      · next p m' inside => simp [inside, remember]
      · next m' inside =>
        have same := snd_searchWorkspace (congrArg Prod.fst inside)
        rw [inside] at same
        dsimp only at same
        subst same
        rw [inside, fst_remember, fst_searchNames]

/-- Where something would be found with nothing remembered, something is found. -/
theorem findPackage_nil_of_none (nothing : (findPackage t scope file name m).1 = none) :
    (findPackage t scope file name []).1 = none := by
  have lies : ∀ searchRoot n, known t scope m searchRoot n = none →
      known t scope [] searchRoot n = none :=
    fun _ _ unknown => (Option.or_eq_none_iff.mp unknown).2
  rw [fst_findPackage] at nothing ⊢
  simp only [Option.or_eq_none_iff, Option.bind_eq_none_iff, List.findSome?_eq_none_iff]
    at nothing ⊢
  obtain ⟨whole, inside, shorter⟩ := nothing
  exact ⟨lies _ _ whole, fun w isWorkspace n member => lies _ _ (inside w isWorkspace n member),
    fun n member => lies _ _ (shorter n member)⟩

theorem mem_searchWorkspace {workspace : Option Path} {e : FindKey × Package}
    (member : e ∈ (searchWorkspace t scope workspace names m).2) :
    e ∈ m ∨ ∃ w n rest, workspace = some w ∧ n :: rest <:+ names ∧
      e.1.same ⟨scope.context, n, w⟩ = true ∧
      (n :: rest).findSome? (known t scope m w) = some e.2 := by
  cases workspace with
  | none => exact .inl member
  | some w =>
    rcases mem_searchNames member with old | ⟨n, rest, suffix, same, found⟩
    · exact .inl old
    · exact .inr ⟨w, n, rest, rfl, suffix, same, found⟩

/-- Where the workspace has nothing under a name or a shorter one, a shorter one is looked for below
the root only. -/
theorem fst_findPackage_shorter {n : String} {rest : List String}
    (suffix : n :: rest <:+ namesOf name)
    (nothing :
      (searchWorkspace t scope (workspaceOf t scope.root file) (namesOf name) m).1 = none) :
    (findPackage t scope file n m).1 =
      (n :: rest).findSome? (known t scope m scope.root) := by
  have inside : ((workspaceOf t scope.root file).bind fun w =>
      (n :: rest).findSome? (known t scope m w)) = none := by
    rw [fst_searchWorkspace] at nothing
    cases workspace : workspaceOf t scope.root file with
    | none => rfl
    | some w =>
      rw [workspace, Option.bind_some, List.findSome?_eq_none_iff] at nothing
      rw [Option.bind_some, List.findSome?_eq_none_iff]
      intro x member
      exact nothing x (suffix.subset member)
  rw [fst_findPackage, namesOf_of_suffix suffix, inside, Option.none_or, List.tail_cons,
    List.findSome?_cons]
  cases known t scope m scope.root n <;> rfl

/-- What a lookup remembers for the root is what the file would have been answered under that name;
what it remembers for the workspace is what it found there from that name on. -/
theorem mem_findPackage {e : FindKey × Package}
    (member : e ∈ (findPackage t scope file name m).2) :
    e ∈ m ∨
    (∃ n ∈ namesOf name, e.1.same ⟨scope.context, n, scope.root⟩ = true ∧
      (findPackage t scope file n m).1 = some e.2) ∨
    ∃ w n rest, workspaceOf t scope.root file = some w ∧ n :: rest <:+ namesOf name ∧
      e.1.same ⟨scope.context, n, w⟩ = true ∧
      (n :: rest).findSome? (known t scope m w) = some e.2 := by
  have whole : (findPackage t scope file name m).1 = _ := fst_findPackage
  have self := mem_namesOf_self name
  rw [findPackage] at member
  cases remembered : m.valid? t ⟨scope.context, name, scope.root⟩ with
  | some p =>
    simp only [remembered] at member
    exact .inl member
  | none =>
    cases lies : packageAt t scope scope.root name with
    | some p =>
      simp only [remembered, lies] at member
      rcases mem_remember member with old | ⟨same, new⟩
      · exact .inl old
      · refine .inr (.inl ⟨name, self, same, ?_⟩)
        rw [whole, known, remembered, lies, Option.none_or, Option.some_or, new]
    | none =>
      have unknown : known t scope m scope.root name = none := by
        rw [known, remembered, lies, Option.or_none]
      rw [unknown, Option.none_or, ← fst_searchWorkspace] at whole
      simp only [remembered, lies] at member
      split at member
      · next p m' inside =>
        rw [inside, Option.some_or] at whole
        rcases mem_remember member with inner | ⟨same, new⟩
        · have found : e ∈ (searchWorkspace t scope (workspaceOf t scope.root file)
              (namesOf name) m).2 := by
            rw [inside]
            exact inner
          exact (mem_searchWorkspace found).imp_right .inr
        · exact .inr (.inl ⟨name, self, same, whole.trans new⟩)
      · next m' inside =>
        have same := snd_searchWorkspace (congrArg Prod.fst inside)
        rw [inside] at same
        dsimp only at same
        subst same
        rw [inside, Option.none_or, ← fst_searchNames] at whole
        rcases mem_remember member with inner | ⟨same, new⟩
        · rcases mem_searchNames inner with old | ⟨n, rest, suffix, same, found⟩
          · exact .inl old
          · have shorter : n :: rest <:+ namesOf name := suffix.trans (List.tail_suffix _)
            refine .inr (.inl ⟨n, shorter.subset List.mem_cons_self, same, ?_⟩)
            rw [fst_findPackage_shorter shorter (congrArg Prod.fst inside), found]
        · exact .inr (.inl ⟨name, self, same, whole.trans new⟩)

end Search

/-! ## Lookups -/

/-- What is asked for: the package that a specifier names in a file and a context. -/
structure Lookup where
  file : Path
  name : String
  context : Option Path
deriving DecidableEq, Repr

namespace Lookup

/-- A lookup under another name. -/
def under (c : Lookup) (name : String) : Lookup := { c with name }

/-- The package found for a lookup with some finds remembered, as it is seen. -/
def answer (t : Tree) (root : Path) (c : Lookup) (m : Finds) : Option (List Component × String) :=
  (findPackage t ⟨root, c.context⟩ c.file c.name m).1.map Package.seen

/-- The finds remembered after lookups. -/
def findsAfter (t : Tree) (root : Path) (m : Finds) : List Lookup → Finds
  | [] => m
  | c :: lookups =>
    findsAfter t root (findPackage t ⟨root, c.context⟩ c.file c.name m).2 lookups

/-- Each lookup of a list that shares its context and a name with a lookup sees the same under that
name, with nothing remembered. -/
def Agrees (t : Tree) (root : Path) (c : Lookup) (history : List Lookup) : Prop :=
  ∀ c' ∈ history, sameContext c'.context c.context = true →
    ∀ n ∈ namesOf c.name, n ∈ namesOf c'.name →
      (c'.under n).answer t root [] = (c.under n).answer t root []

instance (c : Lookup) (history : List Lookup) : Decidable (c.Agrees t root history) :=
  inferInstanceAs (Decidable (∀ c' ∈ history, _))

/-- What is remembered for a key, as it is seen. -/
def recalled (t : Tree) (m : Finds) (context : Option Path) (searchRoot : Path) (name : String) :
    Option (List Component × String) :=
  (m.valid? t ⟨context, name, searchRoot⟩).map Package.seen

variable {c : Lookup} {m : Finds} {history : List Lookup} {v : List Component × String}

theorem map_known (context : Option Path) (searchRoot : Path) (name : String) :
    (known t ⟨root, context⟩ m searchRoot name).map Package.seen =
      (recalled t m context searchRoot name).or (sightAt t root context searchRoot name) := by
  rw [known, Option.map_or, recalled, sightAt]

theorem map_findSome?_known (context : Option Path) (searchRoot : Path) (names : List String) :
    (names.findSome? (known t ⟨root, context⟩ m searchRoot)).map Package.seen =
      names.findSome? fun n =>
        (recalled t m context searchRoot n).or (sightAt t root context searchRoot n) := by
  rw [List.map_findSome?]
  congr 1
  funext n
  exact map_known context searchRoot n

variable (t root) in
/-- What is found for a lookup in the workspace of its file. -/
def inWorkspace (c : Lookup) (m : Finds) : Option Package :=
  (searchWorkspace t ⟨root, c.context⟩ (workspaceOf t root c.file) (namesOf c.name) m).1

theorem answer_eq :
    c.answer t root m =
      ((recalled t m c.context root c.name).or (sightAt t root c.context root c.name)).or
        (((c.inWorkspace t root m).map Package.seen).or
          ((namesOf c.name).tail.findSome? fun n =>
            (recalled t m c.context root n).or (sightAt t root c.context root n))) := by
  rw [answer, fst_findPackage, Option.map_or, Option.map_or, map_known, map_findSome?_known,
    ← fst_searchWorkspace, inWorkspace]

/-- What a lookup comes to with nothing remembered. -/
theorem answer_nil :
    c.answer t root [] =
      (sightAt t root c.context root c.name).or
        (((c.inWorkspace t root []).map Package.seen).or
          ((namesOf c.name).tail.findSome? (sightAt t root c.context root))) :=
  answer_eq

theorem answer_nil_shorter {n : String} {rest : List String} (suffix : n :: rest <:+ namesOf c.name)
    (nothing : c.inWorkspace t root [] = none) :
    (c.under n).answer t root [] = (n :: rest).findSome? (sightAt t root c.context root) := by
  rw [answer, under, fst_findPackage_shorter suffix nothing, map_findSome?_known]
  rfl

/-- With nothing remembered, lookups of one name in one context and workspace come to the same. -/
theorem answer_nil_congr {c' : Lookup} (names : c.name = c'.name)
    (contexts : sameContext c.context c'.context = true)
    (workspaces : sameContext (workspaceOf t root c.file) (workspaceOf t root c'.file) = true) :
    c.answer t root [] = c'.answer t root [] := by
  have inside : (c.inWorkspace t root []).map Package.seen =
      (c'.inWorkspace t root []).map Package.seen := by
    rw [inWorkspace, inWorkspace, fst_searchWorkspace, fst_searchWorkspace, names]
    rcases sameContext_cases workspaces with ⟨left, right⟩ | ⟨w, w', left, right, roots⟩
    · rw [left, right]
      rfl
    · rw [left, right, Option.bind_some, Option.bind_some, map_findSome?_known,
        map_findSome?_known, sightAt_congr contexts roots]
      rfl
  rw [answer_nil, answer_nil, inside, names, sightAt_congr contexts (Path.same_refl root)]

/-- Files of one workspace see the same. -/
theorem agrees_of_workspaces
    (workspaces : ∀ c' ∈ history,
      sameContext (workspaceOf t root c'.file) (workspaceOf t root c.file) = true) :
    c.Agrees t root history :=
  fun c' member contexts _ _ _ => answer_nil_congr rfl contexts (workspaces c' member)

end Lookup

/-- Where what is recalled for a name is what is seen from that name on, recalling changes
nothing. -/
theorem findSome?_recalled {α : Type} {kept sight : String → Option α} {names : List String}
    (fits : ∀ n rest, n :: rest <:+ names → ∀ v, kept n = some v →
      (n :: rest).findSome? sight = some v) :
    (names.findSome? fun n => (kept n).or (sight n)) = names.findSome? sight := by
  induction names with
  | nil => rfl
  | cons n rest ih =>
    rw [List.findSome?_cons]
    cases recalled : kept n with
    | some v => exact (fits n rest List.suffix_rfl v recalled).symm
    | none =>
      rw [Option.none_or, List.findSome?_cons]
      have inner := ih fun n' rest' suffix => fits n' rest' (suffix.trans (List.suffix_cons _ _))
      rw [inner]

/-! ## What is remembered -/

/-- A package that a lookup may come to after others. -/
structure Fits (t : Tree) (root : Path) (history : List Lookup) (c : Lookup)
    (v : List Component × String) : Prop where
  atHand : ∀ v', sightAt t root c.context root c.name = some v' → v = v'
  seen : ∃ c' ∈ history, sameContext c'.context c.context = true ∧
    ∃ n ∈ namesOf c.name, n ∈ namesOf c'.name ∧ (c'.under n).answer t root [] = some v
  agreed : c.Agrees t root history → c.answer t root [] = some v

/-- What is remembered for a workspace is what is seen there; what is remembered for the root of the
project fits every lookup that it is served to. -/
structure Remembered (t : Tree) (root : Path) (history : List Lookup) (m : Finds) : Prop where
  workspace : ∀ e ∈ m, e.1.searchRoot.same root = false →
    (namesOf e.1.name).findSome? (sightAt t root e.1.context e.1.searchRoot) = some e.2.seen
  atRoot : ∀ e ∈ m, e.1.searchRoot.same root = true → ∀ c : Lookup, c.name = e.1.name →
    sameContext c.context e.1.context = true → Fits t root history c e.2.seen

section Remembered

variable {history : List Lookup} {c : Lookup} {m : Finds} {v : List Component × String}

theorem Lookup.Agrees.mono {more : List Lookup} (h : c.Agrees t root more)
    (part : history ⊆ more) : c.Agrees t root history :=
  fun c' member => h c' (part member)

theorem Lookup.Agrees.shorter {n : String} (h : c.Agrees t root history)
    (member : n ∈ namesOf c.name) : (c.under n).Agrees t root history := by
  intro c' inHistory contexts n' inner shared
  exact h c' inHistory contexts n' ((namesOf_suffix_of_mem member).subset inner) shared

/-- A lookup agrees with itself. -/
theorem Lookup.Agrees.with_self (h : c.Agrees t root history) :
    c.Agrees t root (history ++ [c]) := by
  intro c' member contexts n own shared
  rcases List.mem_append.mp member with earlier | self
  · exact h c' earlier contexts n own shared
  · rw [List.mem_singleton.mp self]

theorem Fits.mono {more : List Lookup} (h : Fits t root history c v) (part : history ⊆ more) :
    Fits t root more c v := by
  refine ⟨h.atHand, ?_, fun agrees => h.agreed (agrees.mono part)⟩
  obtain ⟨c', member, rest⟩ := h.seen
  exact ⟨c', part member, rest⟩

/-- What a lookup comes to with nothing remembered fits it. -/
theorem fits_of_answer_nil (fresh : c.answer t root [] = some v) (member : c ∈ history) :
    Fits t root history c v := by
  refine ⟨?_, ?_, fun _ => fresh⟩
  · intro v' lies
    rw [Lookup.answer_nil, lies, Option.some_or] at fresh
    exact (Option.some.inj fresh).symm
  · have self := mem_namesOf_self c.name
    exact ⟨c, member, sameContext_refl _, c.name, self, self, fresh⟩

/-- What lies at hand is what fits. -/
theorem Fits.answer_nil_of_atHand (h : Fits t root history c v)
    (lies : (packageAt t ⟨root, c.context⟩ root c.name).isSome = true) :
    c.answer t root [] = some v := by
  obtain ⟨p, found⟩ := Option.isSome_iff_exists.mp lies
  have sight : sightAt t root c.context root c.name = some p.seen := by
    rw [sightAt, found, Option.map_some]
  rw [Lookup.answer_nil, sight, Option.some_or, h.atHand _ sight]

/-- What a lookup under a shorter name comes to fits the lookups of that name in its context. -/
theorem Fits.of_shorter {n : String} {x : Lookup}
    (h : Fits t root (history ++ [c.under n]) (c.under n) v) (member : n ∈ namesOf c.name)
    (names : x.name = n)
    (contexts : sameContext x.context c.context = true) : Fits t root (history ++ [c]) x v := by
  have inner := namesOf_suffix_of_mem member
  subst names
  refine ⟨?_, ?_, ?_⟩
  · intro v' lies
    rw [sightAt_congr contexts (Path.same_refl root)] at lies
    exact h.atHand v' lies
  · obtain ⟨c', earlier, contexts', n', own, shared, fresh⟩ := h.seen
    rcases List.mem_append.mp earlier with earlier | self
    · exact ⟨c', List.mem_append_left _ earlier,
        sameContext_trans contexts' (sameContext_symm contexts), n', own, shared, fresh⟩
    · rw [List.mem_singleton] at self
      subst self
      exact ⟨c, List.mem_append_right _ (List.mem_singleton_self c), sameContext_symm contexts, n',
        own, inner.subset own, fresh⟩
  · intro agrees
    have same : ∀ n' ∈ namesOf x.name,
        (c.under n').answer t root [] = (x.under n').answer t root [] :=
      fun n' own => agrees c (List.mem_append_right _ (List.mem_singleton_self c))
        (sameContext_symm contexts) n' own (inner.subset own)
    have fresh : (c.under x.name).answer t root [] = some v := by
      apply h.agreed
      apply Lookup.Agrees.with_self
      intro c' earlier contexts' n' own shared
      calc (c'.under n').answer t root []
        _ = (x.under n').answer t root [] :=
          agrees c' (List.mem_append_left _ earlier)
            (sameContext_trans contexts' (sameContext_symm contexts)) n' own shared
        _ = (c.under n').answer t root [] := (same n' own).symm
    exact (same x.name (mem_namesOf_self _)).symm.trans fresh

variable (remembered : Remembered t root history m)
include remembered

theorem Remembered.recalled_workspace {context : Option Path} {w : Path} {n : String}
    (other : w.same root = false) (recalled : Lookup.recalled t m context w n = some v) :
    (namesOf n).findSome? (sightAt t root context w) = some v := by
  obtain ⟨p, valid, rfl⟩ := Option.map_eq_some_iff.mp recalled
  obtain ⟨e, member, same, rfl⟩ := Finds.mem_of_valid? valid
  obtain ⟨contexts, rfl, roots⟩ := FindKey.same_iff.mp same
  have kept := remembered.workspace e member (by rwa [Path.same_congr_left roots])
  rwa [sightAt_congr contexts roots] at kept

theorem Remembered.recalled_root
    (recalled : Lookup.recalled t m c.context root c.name = some v) : Fits t root history c v := by
  obtain ⟨p, valid, rfl⟩ := Option.map_eq_some_iff.mp recalled
  obtain ⟨e, member, same, rfl⟩ := Finds.mem_of_valid? valid
  obtain ⟨contexts, names, roots⟩ := FindKey.same_iff.mp same
  exact remembered.atRoot e member roots c names.symm (sameContext_symm contexts)

/-- Searching a workspace comes to what is seen there. -/
theorem Remembered.findSome?_workspace {context : Option Path} {w : Path} {names : List String}
    {name : String} (other : w.same root = false) (suffix : names <:+ namesOf name) :
    (names.findSome? (known t ⟨root, context⟩ m w)).map Package.seen =
      names.findSome? (sightAt t root context w) := by
  rw [Lookup.map_findSome?_known]
  apply findSome?_recalled
  intro n rest inner v recalled
  rw [← namesOf_of_suffix (inner.trans suffix)]
  exact remembered.recalled_workspace other recalled

theorem Remembered.inWorkspace_eq (c : Lookup) :
    (c.inWorkspace t root m).map Package.seen = (c.inWorkspace t root []).map Package.seen := by
  rw [Lookup.inWorkspace, Lookup.inWorkspace, fst_searchWorkspace, fst_searchWorkspace]
  cases workspace : workspaceOf t root c.file with
  | none => rfl
  | some w =>
    rw [Option.bind_some, Option.bind_some,
      remembered.findSome?_workspace (workspaceOf_ne_root workspace) List.suffix_rfl,
      Lookup.map_findSome?_known]
    rfl

/-- What is left to a lookup are shorter names below the root. -/
theorem Remembered.fits_shorter (lies : sightAt t root c.context root c.name = none)
    (inside : c.inWorkspace t root [] = none)
    (found : ((namesOf c.name).tail.findSome? fun n => (Lookup.recalled t m c.context root n).or
      (sightAt t root c.context root n)) = some v) :
    Fits t root (history ++ [c]) c v := by
  refine ⟨?_, ?_, ?_⟩
  · intro v' lies'
    rw [lies] at lies'
    cases lies'
  · obtain ⟨n, isShorter, seen⟩ := List.exists_of_findSome?_eq_some found
    have member : n ∈ namesOf c.name := List.mem_of_mem_tail isShorter
    cases recalled : Lookup.recalled t m c.context root n with
    | some u =>
      rw [recalled, Option.some_or] at seen
      cases seen
      have fits : Fits t root history (c.under n) v := remembered.recalled_root recalled
      obtain ⟨c', earlier, contexts, n', own, shared, fresh⟩ := fits.seen
      exact ⟨c', List.mem_append_left _ earlier, contexts, n',
        (namesOf_suffix_of_mem member).subset own, shared, fresh⟩
    | none =>
      rw [recalled, Option.none_or] at seen
      have fresh : (c.under n).answer t root [] = some v := by
        rw [Lookup.answer_nil, Lookup.under, seen, Option.some_or]
      exact ⟨c, List.mem_append_right _ (List.mem_singleton_self c), sameContext_refl _, n, member,
        member, fresh⟩
  · intro agrees
    rw [Lookup.answer_nil, lies, inside, Option.map_none, Option.none_or, Option.none_or, ← found]
    symm
    apply findSome?_recalled
    intro n rest suffix u recalled
    have shorter : n :: rest <:+ namesOf c.name := suffix.trans (List.tail_suffix _)
    have fits : Fits t root history (c.under n) u := remembered.recalled_root recalled
    rw [← Lookup.answer_nil_shorter shorter inside]
    apply fits.agreed
    exact (agrees.mono (List.subset_append_left _ _)).shorter
      (shorter.subset List.mem_cons_self)

/-- What a lookup comes to fits it. -/
theorem Remembered.fits_answer (found : c.answer t root m = some v) :
    Fits t root (history ++ [c]) c v := by
  have self : c ∈ history ++ [c] := List.mem_append_right _ (List.mem_singleton_self c)
  have earlier : history ⊆ history ++ [c] := List.subset_append_left _ _
  rw [Lookup.answer_eq, remembered.inWorkspace_eq] at found
  cases recalled : Lookup.recalled t m c.context root c.name with
  | some u =>
    rw [recalled, Option.some_or, Option.some_or] at found
    cases found
    exact (remembered.recalled_root recalled).mono earlier
  | none =>
    rw [recalled, Option.none_or] at found
    cases lies : sightAt t root c.context root c.name with
    | some u =>
      rw [lies, Option.some_or] at found
      apply fits_of_answer_nil _ self
      rw [Lookup.answer_nil, lies, Option.some_or, found]
    | none =>
      rw [lies, Option.none_or] at found
      cases inside : c.inWorkspace t root [] with
      | some p =>
        rw [inside, Option.map_some, Option.some_or] at found
        apply fits_of_answer_nil _ self
        rw [Lookup.answer_nil, lies, inside, Option.none_or, Option.map_some, Option.some_or, found]
      | none =>
        rw [inside, Option.map_none, Option.none_or] at found
        exact remembered.fits_shorter lies inside found

/-- A lookup keeps the comparison up. -/
theorem Remembered.lookup (c : Lookup) :
    Remembered t root (history ++ [c]) (findPackage t ⟨root, c.context⟩ c.file c.name m).2 := by
  constructor
  · intro e member other
    rcases mem_findPackage member with old | ⟨n, -, same, -⟩ |
      ⟨w, n, rest, workspace, suffix, same, found⟩
    · exact remembered.workspace e old other
    · rw [(FindKey.same_iff.mp same).2.2] at other
      cases other
    · obtain ⟨contexts, names, roots⟩ := FindKey.same_iff.mp same
      have seen : ((n :: rest).findSome? (known t ⟨root, c.context⟩ m w)).map Package.seen = _ :=
        remembered.findSome?_workspace (workspaceOf_ne_root workspace) suffix
      rw [found, Option.map_some] at seen
      rw [seen, names, namesOf_of_suffix suffix, sightAt_congr contexts roots]
  · intro e member isRoot x names contexts
    rcases mem_findPackage member with old | ⟨n, shorter, same, found⟩ |
      ⟨w, n, rest, workspace, suffix, same, found⟩
    · exact (remembered.atRoot e old isRoot x names contexts).mono (List.subset_append_left _ _)
    · obtain ⟨contexts', names', -⟩ := FindKey.same_iff.mp same
      have answered : (c.under n).answer t root m = some e.2.seen := by
        rw [Lookup.answer, Lookup.under, found, Option.map_some]
      exact (remembered.fits_answer answered).of_shorter shorter (names.trans names')
        (sameContext_trans contexts contexts')
    · rw [Path.same_congr_left (FindKey.same_iff.mp same).2.2, workspaceOf_ne_root workspace]
        at isRoot
      cases isRoot

omit remembered in
theorem remembered_after (lookups : List Lookup) (remembered : Remembered t root history m) :
    Remembered t root (history ++ lookups) (Lookup.findsAfter t root m lookups) := by
  induction lookups generalizing history m with
  | nil => rwa [List.append_nil]
  | cons c lookups ih =>
    rw [List.append_cons]
    exact ih (remembered.lookup c)

omit remembered in
theorem remembered_nil : Remembered t root [] [] := by
  constructor
  · intro e member
    cases member
  · intro e member
    cases member

end Remembered

open Lookup (findsAfter)

/-- After any lookups, a lookup finds a package if it finds one with nothing remembered. What it
finds is what it or an earlier lookup in its context finds with nothing remembered, under a name
that both are shortened to. It is what the lookup itself finds with nothing remembered where the
package lies at hand under its whole name, where no earlier lookup in its context sees another
package under such a name, and so also where all files are of one workspace. -/
theorem answer_after_lookups (t : Tree) (root : Path) (history : List Lookup) (c : Lookup) :
    (c.answer t root (findsAfter t root [] history) = none → c.answer t root [] = none) ∧
    (∀ v, c.answer t root (findsAfter t root [] history) = some v →
      ∃ c' ∈ history ++ [c], sameContext c'.context c.context = true ∧
        ∃ n ∈ namesOf c.name, n ∈ namesOf c'.name ∧ (c'.under n).answer t root [] = some v) ∧
    ((packageAt t ⟨root, c.context⟩ root c.name).isSome = true ∨ c.Agrees t root history ∨
        (∀ c' ∈ history,
          sameContext (workspaceOf t root c'.file) (workspaceOf t root c.file) = true) →
      c.answer t root (findsAfter t root [] history) = c.answer t root []) := by
  have remembered : Remembered t root history (findsAfter t root [] history) :=
    remembered_after history remembered_nil
  have lost : c.answer t root (findsAfter t root [] history) = none →
      c.answer t root [] = none := by
    intro nothing
    rw [Lookup.answer, Option.map_eq_none_iff] at nothing ⊢
    exact findPackage_nil_of_none nothing
  refine ⟨lost, fun v found => (remembered.fits_answer found).seen, ?_⟩
  intro reason
  cases found : c.answer t root (findsAfter t root [] history) with
  | none => exact (lost found).symm
  | some v =>
    have fits := remembered.fits_answer found
    symm
    rcases reason with lies | agrees | workspaces
    · exact fits.answer_nil_of_atHand lies
    · exact fits.agreed agrees.with_self
    · exact fits.agreed (Lookup.agrees_of_workspaces workspaces).with_self

/-- Two workspaces that each hold a package `v`. -/
def workspacesTree : Tree :=
  ⟨[(["p"], .directory),
    (["p", "a"], .directory),
    (["p", "a", "node_modules"], .directory),
    (["p", "a", "node_modules", "v"], .directory),
    (["p", "a", "node_modules", "v", "package.json"], .file (.text "")),
    (["p", "b"], .directory),
    (["p", "b", "node_modules"], .directory),
    (["p", "b", "node_modules", "v"], .directory),
    (["p", "b", "node_modules", "v", "package.json"], .file (.text ""))]⟩

theorem answer_after_lookups_shorter :
    let first : Lookup := ⟨⟨"/p/a/m"⟩, "v/x", none⟩
    let second : Lookup := ⟨⟨"/p/a/n"⟩, "v", none⟩
    second.Agrees workspacesTree ⟨"/p"⟩ [first] ∧
    (second.answer workspacesTree ⟨"/p"⟩ []).isSome = true ∧
    second.answer workspacesTree ⟨"/p"⟩ (findsAfter workspacesTree ⟨"/p"⟩ [] [first]) =
      second.answer workspacesTree ⟨"/p"⟩ [] := by
  have agrees : (⟨⟨"/p/a/n"⟩, "v", none⟩ : Lookup).Agrees workspacesTree ⟨"/p"⟩
      [⟨⟨"/p/a/m"⟩, "v/x", none⟩] := by decide +kernel
  exact ⟨agrees, by decide +kernel, (answer_after_lookups _ _ _ _).2.2 (.inr (.inl agrees))⟩

/-- What is found in one workspace is served to the files of another. -/
theorem answer_from_other_workspace :
    let first : Lookup := ⟨⟨"/p/a/m"⟩, "v", none⟩
    let second : Lookup := ⟨⟨"/p/b/m"⟩, "v", none⟩
    second.answer workspacesTree ⟨"/p"⟩ (findsAfter workspacesTree ⟨"/p"⟩ [] [first]) ≠
      second.answer workspacesTree ⟨"/p"⟩ [] := by
  decide +kernel

end ModuleAtlas.Resolution
