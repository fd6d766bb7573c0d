import ModuleAtlas.Proofs.Keyed
import ModuleAtlas.Proofs.Path
import ModuleAtlas.Tree.Basic
import Mathlib.Data.List.Dedup
import Mathlib.Data.List.Perm.Subperm

/-!
# Walking a tree

A walk along a path can only end where the components of the path lead, whatever blanks its text
has (`locate?_components`). So two texts of one path never name two nodes (`read?_of_same`), and a
normal path names the node at its own names (`locate?_ofNames`). Different normal paths that can
be read are different files, and there are no more of them than files (`length_le_fileCount`).

`Edited` says what overwriting or deleting one file does to a tree. Walks that do not end at that
file do not notice (`Edited.get?_eq`), and no file appears (`Edited.isFile_of_isFile`). Writing a
file that is not there leaves all others as they are (`read?_write`).
-/

namespace ModuleAtlas.Tree

open ModuleAtlas.Path (IsName nameOf ofNames componentOf segmentsOf)

variable {t : Tree}

/-! ## Walks -/

theorem text_of_blank {s : List Char} (blank : componentOf s = none) :
    String.ofList s = "" ∨ String.ofList s = "." := by
  unfold componentOf at blank
  split at blank
  · next dot =>
    rcases dot with rfl | rfl
    · exact .inl rfl
    · exact .inr rfl
  · split at blank <;> cases blank

theorem step_blank {here x : List String} {s : List Char} (blank : componentOf s = none)
    (h : t.step here (String.ofList s) = some x) : x = here := by
  have text := text_of_blank blank
  unfold step at h
  split at h
  · cases h
  · cases h
    rfl

/-- A walk that ends somewhere ends there without its blank segments too. -/
theorem foldlM_components {pieces : List (List Char)} :
    ∀ {here x : List String}, (pieces.map String.ofList).foldlM t.step here = some x →
      ((pieces.filterMap componentOf).map Component.text).foldlM t.step here = some x := by
  induction pieces with
  | nil => exact fun h => h
  | cons s pieces ih =>
    intro here x h
    rw [List.map_cons, List.foldlM_cons, Option.bind_eq_bind, Option.bind_eq_some_iff] at h
    obtain ⟨next, first, rest⟩ := h
    cases solid : componentOf s with
    | none =>
      rw [List.filterMap_cons, solid]
      rw [step_blank solid first] at rest
      exact ih rest
    | some c =>
      rw [List.filterMap_cons, solid]
      dsimp only
      rw [List.map_cons, Path.componentOf_text solid, List.foldlM_cons, first]
      exact ih rest

theorem step_cases {here x : List String} {s : String} (h : t.step here s = some x) :
    t.node? here = some .directory ∧
      (((s = "" ∨ s = ".") ∧ x = here) ∨
        (s = ".." ∧ x = here.dropLast) ∨
        (¬ (s = "" ∨ s = ".") ∧ s ≠ ".." ∧ x = here ++ [s] ∧ (t.node? x).isSome = true)) := by
  unfold step at h
  split at h
  · cases h
  · next directory =>
    refine ⟨Classical.not_not.mp directory, ?_⟩
    split at h
    · next blank =>
      cases h
      exact .inl ⟨blank, rfl⟩
    · next solid =>
      split at h
      · next back =>
        cases h
        exact .inr (.inl ⟨back, rfl⟩)
      · next forward =>
        dsimp only at h
        split at h
        · next there =>
          cases h
          exact .inr (.inr ⟨solid, forward, rfl, there⟩)
        · cases h

theorem step_of_cases {here x : List String} {s : String}
    (directory : t.node? here = some .directory)
    (h : ((s = "" ∨ s = ".") ∧ x = here) ∨
      (s = ".." ∧ x = here.dropLast) ∨
      (¬ (s = "" ∨ s = ".") ∧ s ≠ ".." ∧ x = here ++ [s] ∧ (t.node? x).isSome = true)) :
    t.step here s = some x := by
  unfold step
  rw [if_neg (Classical.not_not.mpr directory)]
  rcases h with ⟨blank, rfl⟩ | ⟨rfl, rfl⟩ | ⟨solid, forward, rfl, there⟩
  · rw [if_pos blank]
  · rfl
  · rw [if_neg solid, if_neg forward]
    dsimp only
    rw [if_pos there]

/-- A walk goes on from directories only. -/
theorem directory_of_walk {here x : List String} {s : String} {segments : List String}
    (h : (s :: segments).foldlM t.step here = some x) : t.node? here = some .directory := by
  rw [List.foldlM_cons, Option.bind_eq_bind, Option.bind_eq_some_iff] at h
  obtain ⟨next, first, -⟩ := h
  exact (step_cases first).1

theorem segmentsBelowRoot_of_absolute {p : Path} {cs : List Char}
    (chars : p.text.toList = '/' :: cs) :
    segmentsBelowRoot p = (segmentsOf cs).map String.ofList := by
  rw [segmentsBelowRoot, Path.segments, chars, Path.segmentsOf_slash_cons, List.drop_one,
    List.tail_cons]

theorem isAbsolute_of_locate? {p : Path} {x : List String} (h : t.locate? p = some x) :
    p.isAbsolute = true := by
  unfold locate? at h
  split at h
  · assumption
  · cases h

/-- Where a walk ends is decided by the components of its path. -/
theorem locate?_components {p : Path} {x : List String} (h : t.locate? p = some x) :
    (p.components.tail.map Component.text).foldlM t.step [] = some x := by
  have absolute := isAbsolute_of_locate? h
  obtain ⟨cs, chars⟩ := Path.isAbsolute_iff.mp absolute
  rw [locate?, if_pos absolute, segmentsBelowRoot_of_absolute chars] at h
  rw [Path.components_of_absolute chars]
  exact foldlM_components h

theorem locate?_of_same {p q : Path} {x y : List String} (same : p.same q = true)
    (left : t.locate? p = some x) (right : t.locate? q = some y) : x = y := by
  have ended := locate?_components left
  rw [Path.same_iff.mp same, locate?_components right] at ended
  exact (Option.some.inj ended).symm

theorem get?_eq_some {p : Path} {n : Node} (h : t.get? p = some n) :
    ∃ x, t.locate? p = some x ∧ t.node? x = some n :=
  Option.bind_eq_some_iff.mp h

/-- Blank segments do not keep a walk from ending in a directory. -/
theorem foldlM_segments {pieces : List (List Char)} :
    ∀ {here x : List String},
      ((pieces.filterMap componentOf).map Component.text).foldlM t.step here = some x →
      t.node? x = some .directory →
      (pieces.map String.ofList).foldlM t.step here = some x := by
  induction pieces with
  | nil => exact fun h _ => h
  | cons s pieces ih =>
    intro here x walked directory
    cases component : componentOf s with
    | none =>
      rw [List.filterMap_cons_none component] at walked
      -- the walk goes on from here, or ends here
      have stands : t.node? here = some .directory := by
        cases steps : (pieces.filterMap componentOf).map Component.text with
        | nil =>
          rw [steps] at walked
          cases walked
          exact directory
        | cons c steps' =>
          rw [steps] at walked
          exact directory_of_walk walked
      rw [List.map_cons, List.foldlM_cons,
        step_of_cases stands (.inl ⟨text_of_blank component, rfl⟩)]
      exact ih walked directory
    | some c =>
      rw [List.filterMap_cons_some component, List.map_cons, List.foldlM_cons,
        Path.componentOf_text component, Option.bind_eq_bind, Option.bind_eq_some_iff] at walked
      obtain ⟨next, first, rest⟩ := walked
      rw [List.map_cons, List.foldlM_cons, first]
      exact ih rest directory

/-- A directory is found by the components of its path alone. -/
theorem isDirectory_iff {p : Path} :
    t.isDirectory p = true ↔
      p.isAbsolute = true ∧ ∃ x, (p.components.tail.map Component.text).foldlM t.step [] = some x ∧
        t.node? x = some .directory := by
  rw [isDirectory, decide_eq_true_iff]
  constructor
  · intro found
    obtain ⟨x, located, directory⟩ := get?_eq_some found
    exact ⟨isAbsolute_of_locate? located, x, locate?_components located, directory⟩
  · intro found
    obtain ⟨absolute, x, walked, directory⟩ := found
    obtain ⟨cs, chars⟩ := Path.isAbsolute_iff.mp absolute
    rw [Path.components_of_absolute chars, List.tail_cons] at walked
    rw [get?, locate?, if_pos absolute, segmentsBelowRoot_of_absolute chars,
      foldlM_segments walked directory]
    exact directory

theorem isDirectory_congr {p q : Path} (same : p.same q = true) :
    t.isDirectory p = t.isDirectory q := by
  rw [Bool.eq_iff_iff, isDirectory_iff, isDirectory_iff, Path.isAbsolute_congr same,
    Path.same_iff.mp same]

/-- What has a name in a directory is found by the components of the directory and the name. -/
theorem locate?_join {p : Path} {s : String} {x : List String} (absolute : p.isAbsolute = true)
    (name : IsName s.toList) :
    t.locate? (p / s) = some x ↔
      ∃ here, (p.components.tail.map Component.text).foldlM t.step [] = some here ∧
        t.step here s = some x := by
  have relative := Path.not_isAbsolute_of_isName name
  have text : p.text ≠ "" := by
    intro empty
    rw [Path.isAbsolute, empty] at absolute
    cases absolute
  obtain ⟨first, rest, pieces⟩ := p.exists_segments
  obtain ⟨front, blank, cut⟩ := Path.exists_segments_join pieces text relative
  have tail : p.components.tail = front.filterMap componentOf := by
    rw [Path.components_eq_lead pieces, Path.lead, if_pos absolute, List.singleton_append,
      List.tail_cons, blank]
  rw [locate?, if_pos ((Path.isAbsolute_join text relative).trans absolute), segmentsBelowRoot, cut,
    List.drop_one, List.tail_cons, Path.segmentsOf_of_slashless name.2.2.2, List.map_append,
    List.map_singleton, String.ofList_toList, List.foldlM_append, Option.bind_eq_bind,
    Option.bind_eq_some_iff, tail]
  simp only [List.foldlM_cons, List.foldlM_nil, Option.bind_eq_bind, Option.pure_def,
    Option.bind_fun_some]
  constructor
  · intro found
    obtain ⟨here, walked, last⟩ := found
    exact ⟨here, foldlM_components walked, last⟩
  · intro found
    obtain ⟨here, walked, last⟩ := found
    exact ⟨here, foldlM_segments walked (step_cases last).1, last⟩

theorem read?_eq_some {p : Path} {content : String} :
    t.read? p = some content ↔ t.get? p = some (.file (.text content)) := by
  unfold read?
  split <;> simp_all

theorem isFile_iff {p : Path} : t.isFile p = true ↔ ∃ c, t.get? p = some (.file c) := by
  unfold isFile
  split
  · next c h => exact ⟨fun _ => ⟨c, h⟩, fun _ => rfl⟩
  · next h =>
    refine ⟨fun no => (Bool.false_ne_true no).elim, fun ⟨c, found⟩ => ?_⟩
    exact (h c found).elim

theorem isFile_join_congr {p q : Path} {s : String} (same : p.same q = true)
    (absolute : p.isAbsolute = true) (name : IsName s.toList) :
    t.isFile (p / s) = t.isFile (q / s) := by
  have located : t.locate? (p / s) = t.locate? (q / s) := by
    apply Option.ext
    intro x
    rw [locate?_join absolute name, locate?_join (Path.isAbsolute_congr same ▸ absolute) name,
      Path.same_iff.mp same]
  rw [isFile, isFile, get?, get?, located]

theorem isFile_of_read? {p : Path} {content : String} (h : t.read? p = some content) :
    t.isFile p = true :=
  isFile_iff.mpr ⟨_, read?_eq_some.mp h⟩

theorem isAbsolute_of_isFile {p : Path} (h : t.isFile p = true) : p.isAbsolute = true := by
  obtain ⟨c, found⟩ := isFile_iff.mp h
  obtain ⟨x, located, -⟩ := get?_eq_some found
  exact isAbsolute_of_locate? located

/-- Two texts of one path that can both be read have one content. -/
theorem read?_of_same {p q : Path} {a b : String} (same : p.same q = true)
    (left : t.read? p = some a) (right : t.read? q = some b) : a = b := by
  obtain ⟨x, locatedLeft, nodeLeft⟩ := get?_eq_some (read?_eq_some.mp left)
  obtain ⟨y, locatedRight, nodeRight⟩ := get?_eq_some (read?_eq_some.mp right)
  rw [locate?_of_same same locatedLeft locatedRight, nodeRight] at nodeLeft
  cases nodeLeft
  rfl

/-- A text of a path that leads to a file leads to the file of the path. -/
theorem read?_of_isFile {p q : Path} {content : String} (same : p.same q = true)
    (file : t.isFile p = true) (read : t.read? q = some content) : t.read? p = some content := by
  obtain ⟨c, found⟩ := isFile_iff.mp file
  obtain ⟨x, locatedLeft, nodeLeft⟩ := get?_eq_some found
  obtain ⟨y, locatedRight, nodeRight⟩ := get?_eq_some (read?_eq_some.mp read)
  rw [locate?_of_same same locatedLeft locatedRight, nodeRight] at nodeLeft
  cases nodeLeft
  exact read?_eq_some.mpr found

/-! ## Normal paths -/

theorem ofList_inj {a b : List Char} (h : String.ofList a = String.ofList b) : a = b := by
  rw [← String.toList_ofList (l := a), h, String.toList_ofList]

theorem step_name {here x : List String} {s : List Char} (name : IsName s)
    (h : t.step here (String.ofList s) = some x) : x = here ++ [String.ofList s] := by
  obtain ⟨nonempty, dot, dots, -⟩ := name
  have plain : ¬ (String.ofList s = "" ∨ String.ofList s = ".") := by
    rintro (h | h)
    · exact nonempty (ofList_inj h)
    · exact dot (ofList_inj h)
  have forward : ¬ String.ofList s = ".." := fun h => dots (ofList_inj h)
  unfold step at h
  split at h
  · cases h
  · dsimp only at h
    split at h
    · cases h
      rfl
    · cases h

theorem foldlM_names {names : List (List Char)} (isName : ∀ n ∈ names, IsName n) :
    ∀ {here x : List String}, (names.map String.ofList).foldlM t.step here = some x →
      x = here ++ names.map String.ofList := by
  induction names with
  | nil =>
    intro here x h
    cases h
    simp
  | cons n names ih =>
    intro here x h
    rw [List.map_cons, List.foldlM_cons, Option.bind_eq_bind, Option.bind_eq_some_iff] at h
    obtain ⟨next, first, rest⟩ := h
    rw [step_name (isName n List.mem_cons_self) first] at rest
    rw [ih (fun m member => isName m (List.mem_cons_of_mem _ member)) rest, List.map_cons,
      List.append_assoc]
    rfl

/-- A normal path names the node at its own names. -/
theorem locate?_ofNames {names : List (List Char)} (isName : ∀ n ∈ names, IsName n)
    {x : List String} (h : t.locate? (ofNames names) = some x) : x = names.map String.ofList := by
  have walked := locate?_components h
  have texts : (names.map nameOf).map Component.text = names.map String.ofList := by
    rw [List.map_map]
    rfl
  rw [Path.components_ofNames isName, List.tail_cons, texts] at walked
  simpa using foldlM_names isName walked

theorem locate?_inj {p q : Path} {x : List String} (left : p.IsNormal) (right : q.IsNormal)
    (hp : t.locate? p = some x) (hq : t.locate? q = some x) : p = q := by
  obtain ⟨names, isName, rfl⟩ := Path.isNormal_iff.mp left
  obtain ⟨names', isName', rfl⟩ := Path.isNormal_iff.mp right
  have places := (locate?_ofNames isName hp).symm.trans (locate?_ofNames isName' hq)
  rw [List.map_injective_iff.mpr (fun a b => ofList_inj) places]

theorem segmentsBelowRoot_ofNames {names : List (List Char)} (isName : ∀ n ∈ names, IsName n)
    (nonempty : names ≠ []) : segmentsBelowRoot (ofNames names) = names.map String.ofList := by
  rw [segmentsBelowRoot_of_absolute (Path.toList_ofNames names),
    Path.segmentsOf_intercalate nonempty fun s member => (isName s member).2.2.2]

/-- A path with a last name leads to a place of that name. -/
theorem getLast?_of_locate? {p : Path} {x : List String} {n : String} (h : t.locate? p = some x)
    (named : p.fileName? = some n) : x.getLast? = some n := by
  obtain ⟨cs, chars⟩ := Path.isAbsolute_iff.mp (isAbsolute_of_locate? h)
  have walked := locate?_components h
  rw [Path.fileName?, Path.components_of_absolute chars] at named
  rw [Path.components_of_absolute chars, List.tail_cons] at walked
  rcases List.eq_nil_or_concat ((segmentsOf cs).filterMap componentOf) with none | ⟨front, c, whole⟩
  · rw [none] at named
    cases named
  · rw [List.concat_eq_append] at whole
    have isStep : Path.IsStep c := by
      refine Path.isStep_of_mem_filterMap (fun s => Path.slashless_of_mem_segmentsOf) (?_ :
        c ∈ (segmentsOf cs).filterMap componentOf)
      simp [whole]
    rw [whole, ← List.cons_append, List.getLast?_concat] at named
    rw [whole, List.map_append, List.foldlM_append, Option.bind_eq_bind,
      Option.bind_eq_some_iff] at walked
    obtain ⟨y, -, last⟩ := walked
    rcases isStep with rfl | ⟨s, name, rfl⟩
    · cases named
    · cases named
      rw [List.map_singleton, List.foldlM_cons, Option.bind_eq_bind,
        Option.bind_eq_some_iff] at last
      obtain ⟨z, stepped, ended⟩ := last
      cases ended
      rw [step_name name stepped, List.getLast?_concat]

/-- The segments of a normal path, its last name apart. -/
theorem segmentsBelowRoot_concat {front : List (List Char)} {last : List Char}
    (isName : ∀ n ∈ front ++ [last], IsName n) :
    segmentsBelowRoot (ofNames (front ++ [last])) =
      front.map String.ofList ++ [String.ofList last] := by
  rw [segmentsBelowRoot_ofNames isName (by simp), List.map_append, List.map_singleton]

/-- The walk along a normal path is the walk along its names. -/
theorem locate?_ofNames_eq {names : List (List Char)} (isName : ∀ n ∈ names, IsName n) :
    t.locate? (ofNames names) = (names.map String.ofList).foldlM t.step [] := by
  rw [locate?, if_pos (Path.isAbsolute_ofNames names)]
  cases names with
  | nil => rfl
  | cons n names => rw [segmentsBelowRoot_ofNames isName (by simp)]

/-- The names from the root to a place, innermost first, lead there. -/
def Leads (t : Tree) (here : List (List Char)) : Prop :=
  (∀ n ∈ here, IsName n) ∧
    (here.reverse.map String.ofList).foldlM t.step [] = some (here.reverse.map String.ofList)

theorem Leads.outward {n : List Char} {here : List (List Char)} (h : t.Leads (n :: here)) :
    t.Leads here := by
  obtain ⟨isName, walked⟩ := h
  have outer : ∀ m ∈ here, IsName m := fun m member => isName m (List.mem_cons_of_mem _ member)
  refine ⟨outer, ?_⟩
  rw [List.reverse_cons, List.map_append, List.foldlM_append, Option.bind_eq_bind,
    Option.bind_eq_some_iff] at walked
  obtain ⟨y, walked, -⟩ := walked
  have there := foldlM_names (fun m member => outer m (List.mem_reverse.mp member)) walked
  rwa [there] at walked

/-- Working out `..` along a walk leads where the walk leads. -/
theorem Leads.steps {here : List (List Char)} {steps : List Component} {x : List String}
    (leads : t.Leads here) (below : ∀ c ∈ steps, Path.IsStep c)
    (walked :
      (steps.map Component.text).foldlM t.step (here.reverse.map String.ofList) = some x) :
    ∃ there, t.Leads there ∧ x = there.reverse.map String.ofList ∧
      steps.foldl Path.normalStep (here.map nameOf ++ [.root]) = there.map nameOf ++ [.root] := by
  induction steps generalizing here with
  | nil =>
    cases walked
    exact ⟨here, leads, rfl, rfl⟩
  | cons c steps ih =>
    have rest : ∀ c ∈ steps, Path.IsStep c :=
      fun c member => below c (List.mem_cons_of_mem _ member)
    rw [List.map_cons, List.foldlM_cons, Option.bind_eq_bind, Option.bind_eq_some_iff] at walked
    obtain ⟨next, first, walked⟩ := walked
    rw [List.foldl_cons]
    rcases below c List.mem_cons_self with rfl | ⟨s, name, rfl⟩
    · have back : next = (here.reverse.map String.ofList).dropLast := by
        rcases (step_cases first).2 with ⟨blank, -⟩ | ⟨-, back⟩ | ⟨-, forward, -⟩
        · simp [Component.text] at blank
        · exact back
        · exact absurd rfl forward
      subst back
      cases here with
      | nil => exact ih leads rest walked
      | cons n here =>
        rw [List.reverse_cons, List.map_append, List.map_singleton, List.dropLast_concat] at walked
        exact ih leads.outward rest walked
    · have forward : t.step (here.reverse.map String.ofList) (String.ofList s) = some next := first
      obtain rfl := step_name name forward
      have leads' : t.Leads (s :: here) := by
        refine ⟨fun m member => ?_, ?_⟩
        · rcases List.mem_cons.mp member with rfl | member
          · exact name
          · exact leads.1 m member
        · rw [List.reverse_cons, List.map_append, List.foldlM_append, leads.2, Option.bind_eq_bind,
            Option.bind_some, List.map_singleton, List.foldlM_cons, forward]
          rfl
      refine ih leads' rest ?_
      rwa [List.reverse_cons, List.map_append]

/-- A path and its normal form lead to the same node. -/
theorem locate?_normalize {p : Path} {x : List String} (h : t.locate? p = some x) :
    t.locate? p.normalize = some x := by
  obtain ⟨cs, chars⟩ := Path.isAbsolute_iff.mp (isAbsolute_of_locate? h)
  have walked := locate?_components h
  have components := Path.components_of_absolute chars
  rw [components, List.tail_cons] at walked
  have below : ∀ c ∈ (segmentsOf cs).filterMap componentOf, Path.IsStep c := fun c =>
    Path.isStep_of_mem_filterMap fun s => Path.slashless_of_mem_segmentsOf
  have atRoot : t.Leads [] := ⟨by simp, rfl⟩
  obtain ⟨there, ⟨isName, leads⟩, rfl, worked⟩ := atRoot.steps below walked
  have start : (Component.root :: (segmentsOf cs).filterMap componentOf).foldl Path.normalStep [] =
      there.map nameOf ++ [.root] := worked
  have normal : p.normalize = ofNames there.reverse := by
    rw [Path.normalize, components, Path.normalComponents, start, ← Path.ofComponents_names]
    simp
  rw [normal, locate?_ofNames_eq (by simpa using isName), leads]

theorem isFile_normalize {p : Path} (h : t.isFile p = true) : t.isFile p.normalize = true := by
  obtain ⟨c, found⟩ := isFile_iff.mp h
  obtain ⟨x, located, node⟩ := get?_eq_some found
  rw [isFile_iff]
  exact ⟨c, by rw [get?, locate?_normalize located, Option.bind_some, node]⟩

/-! ## Counting files -/

/-- The places of the files of a tree. -/
def filePlaces (t : Tree) : List (List String) :=
  (t.nodes.map (·.1)).dedup.filter fun place =>
    match t.node? place with
    | some (.file _) => true
    | _ => false

/-- The number of files of a tree. -/
def fileCount (t : Tree) : Nat := t.filePlaces.length

theorem fileCount_le_size (t : Tree) : t.fileCount ≤ t.size := by
  rw [fileCount, filePlaces, size]
  calc _ ≤ (t.nodes.map (·.1)).dedup.length := List.length_filter_le _ _
    _ ≤ (t.nodes.map (·.1)).length := (List.dedup_sublist _).length_le
    _ = t.nodes.length := List.length_map _

theorem mem_nodes {x : List String} {c : Content} (h : t.node? x = some (.file c)) :
    (x, .file c) ∈ t.nodes := by
  cases x with
  | nil => cases h
  | cons s x =>
    obtain ⟨⟨place, n⟩, found, isFile⟩ := Option.map_eq_some_iff.mp h
    have here : place = s :: x := by simpa using List.find?_some found
    have member := List.mem_of_find?_eq_some found
    rwa [here, show n = .file c from isFile] at member

theorem mem_filePlaces {x : List String} {c : Content} (h : t.node? x = some (.file c)) :
    x ∈ t.filePlaces := by
  have listed : x ∈ t.nodes.map (·.1) := List.mem_map.mpr ⟨_, mem_nodes h, rfl⟩
  rw [filePlaces, List.mem_filter, List.mem_dedup]
  exact ⟨listed, by rw [h]⟩

/-- The texts of the files. -/
def texts (t : Tree) : List String :=
  t.nodes.filterMap fun n =>
    match n.2 with
    | .file (.text s) => some s
    | _ => none

theorem mem_texts {p : Path} {content : String} (h : t.read? p = some content) :
    content ∈ t.texts := by
  obtain ⟨x, -, node⟩ := get?_eq_some (read?_eq_some.mp h)
  exact List.mem_filterMap.mpr ⟨_, mem_nodes node, rfl⟩

/-- There are no more readable normal paths than files. -/
theorem length_le_fileCount {paths : List Path} (normal : ∀ p ∈ paths, p.IsNormal)
    (readable : ∀ p ∈ paths, (t.read? p).isSome = true)
    (distinct : paths.Pairwise fun p q => p.same q = false) : paths.length ≤ t.fileCount := by
  have placed : ∀ p ∈ paths, ∃ x, t.locate? p = some x ∧ x ∈ t.filePlaces := by
    intro p member
    obtain ⟨content, read⟩ := Option.isSome_iff_exists.mp (readable p member)
    obtain ⟨x, located, node⟩ := get?_eq_some (read?_eq_some.mp read)
    exact ⟨x, located, mem_filePlaces node⟩
  have nodup : (paths.map fun p => (t.locate? p).getD []).Nodup := by
    rw [List.Nodup, List.pairwise_map]
    refine distinct.imp_of_mem fun {p q} hp hq different => ?_
    obtain ⟨x, atX, -⟩ := placed p hp
    obtain ⟨y, atY, -⟩ := placed q hq
    rw [atX, atY, Option.getD_some, Option.getD_some]
    rintro rfl
    rw [locate?_inj (normal p hp) (normal q hq) atX atY, Path.same_refl] at different
    cases different
  have inside : (paths.map fun p => (t.locate? p).getD []) ⊆ t.filePlaces := by
    intro x member
    obtain ⟨p, hp, rfl⟩ := List.mem_map.mp member
    obtain ⟨x, located, listed⟩ := placed p hp
    rwa [located]
  have count := (nodup.subperm inside).length_le
  rwa [List.length_map] at count

/-! ## Changing one file -/

/-- A tree after the file at a place was overwritten or deleted. Below the place there is nothing
to walk to, before or after. -/
structure Edited (t t' : Tree) (place : List String) : Prop where
  elsewhere : ∀ other, ¬ place <+: other → t'.node? other = t.node? other
  before : ∃ c, t.node? place = some (.file c)
  after : t'.node? place = none ∨ ∃ c, t'.node? place = some (.file c)

section Edits

variable {t' : Tree} {place : List String}

theorem not_prefix_next {here : List String} {s : String} (outside : ¬ place <+: here)
    (different : here ++ [s] ≠ place) : ¬ place <+: here ++ [s] := by
  rw [List.prefix_concat_iff, not_or]
  exact ⟨fun h => different h.symm, outside⟩

theorem not_prefix_dropLast {here : List String} (outside : ¬ place <+: here) :
    ¬ place <+: here.dropLast :=
  fun h => outside (h.trans (List.dropLast_prefix here))

variable (edited : Edited t t' place)
include edited

/-- A step of a walk that has not come to the changed file. It may lead to it; it leads nowhere
new. -/
theorem Edited.step_back {here x : List String} {s : String} (outside : ¬ place <+: here)
    (h : t'.step here s = some x) :
    t.step here s = some x ∧ (x = place ∨ ¬ place <+: x) := by
  obtain ⟨directory, cases⟩ := step_cases h
  rw [edited.elsewhere here outside] at directory
  rcases cases with ⟨blank, rfl⟩ | ⟨back, rfl⟩ | ⟨solid, forward, rfl, there⟩
  · exact ⟨step_of_cases directory (.inl ⟨blank, rfl⟩), .inr outside⟩
  · exact ⟨step_of_cases directory (.inr (.inl ⟨back, rfl⟩)), .inr (not_prefix_dropLast outside)⟩
  · by_cases arrived : here ++ [s] = place
    · obtain ⟨c, file⟩ := edited.before
      refine ⟨step_of_cases directory (.inr (.inr ⟨solid, forward, rfl, ?_⟩)), .inl arrived⟩
      rw [arrived, file]
      rfl
    · have next := not_prefix_next outside arrived
      rw [edited.elsewhere _ next] at there
      exact ⟨step_of_cases directory (.inr (.inr ⟨solid, forward, rfl, there⟩)), .inr next⟩

theorem Edited.step_forth {here x : List String} {s : String} (outside : ¬ place <+: here)
    (h : t.step here s = some x) (away : x ≠ place) :
    t'.step here s = some x ∧ ¬ place <+: x := by
  obtain ⟨directory, cases⟩ := step_cases h
  rw [← edited.elsewhere here outside] at directory
  rcases cases with ⟨blank, rfl⟩ | ⟨back, rfl⟩ | ⟨solid, forward, rfl, there⟩
  · exact ⟨step_of_cases directory (.inl ⟨blank, rfl⟩), outside⟩
  · exact ⟨step_of_cases directory (.inr (.inl ⟨back, rfl⟩)), not_prefix_dropLast outside⟩
  · have next := not_prefix_next outside away
    rw [← edited.elsewhere _ next] at there
    exact ⟨step_of_cases directory (.inr (.inr ⟨solid, forward, rfl, there⟩)), next⟩

theorem Edited.walk_back {segments : List String} :
    ∀ {here x : List String}, ¬ place <+: here → segments.foldlM t'.step here = some x →
      segments.foldlM t.step here = some x ∧ (x = place ∨ ¬ place <+: x) := by
  induction segments with
  | nil =>
    intro here x outside h
    cases h
    exact ⟨rfl, .inr outside⟩
  | cons s segments ih =>
    intro here x outside h
    rw [List.foldlM_cons, Option.bind_eq_bind, Option.bind_eq_some_iff] at h
    obtain ⟨next, first, rest⟩ := h
    obtain ⟨first', ended⟩ := edited.step_back outside first
    rw [List.foldlM_cons, first', Option.bind_eq_bind, Option.bind_some]
    rcases ended with rfl | outside'
    · cases segments with
      | nil =>
        cases rest
        exact ⟨rfl, .inl rfl⟩
      | cons s segments =>
        have directory := directory_of_walk rest
        rcases edited.after with gone | ⟨c, file⟩
        · rw [gone] at directory
          cases directory
        · rw [file] at directory
          cases directory
    · exact ih outside' rest

theorem Edited.walk_forth {segments : List String} :
    ∀ {here x : List String}, ¬ place <+: here → segments.foldlM t.step here = some x →
      x ≠ place → segments.foldlM t'.step here = some x ∧ ¬ place <+: x := by
  induction segments with
  | nil =>
    intro here x outside h _
    cases h
    exact ⟨rfl, outside⟩
  | cons s segments ih =>
    intro here x outside h away
    rw [List.foldlM_cons, Option.bind_eq_bind, Option.bind_eq_some_iff] at h
    obtain ⟨next, first, rest⟩ := h
    have passing : next ≠ place := by
      rintro rfl
      cases segments with
      | nil =>
        cases rest
        exact away rfl
      | cons s segments =>
        have directory := directory_of_walk rest
        obtain ⟨c, file⟩ := edited.before
        rw [file] at directory
        cases directory
    obtain ⟨first', outside'⟩ := edited.step_forth outside first passing
    rw [List.foldlM_cons, first', Option.bind_eq_bind, Option.bind_some]
    exact ih outside' rest away

theorem Edited.place_ne_nil : place ≠ [] := by
  rintro rfl
  obtain ⟨c, file⟩ := edited.before
  cases file

theorem Edited.outside_root : ¬ place <+: [] := by
  rw [List.prefix_nil]
  exact edited.place_ne_nil

theorem Edited.locate?_back {p : Path} {x : List String} (h : t'.locate? p = some x) :
    t.locate? p = some x ∧ (x = place ∨ ¬ place <+: x) := by
  have absolute := isAbsolute_of_locate? h
  rw [locate?, if_pos absolute] at h ⊢
  exact edited.walk_back edited.outside_root h

/-- Walks that do not end at the changed file find what they found before. -/
theorem Edited.get?_eq {p : Path} (away : t.locate? p ≠ some place) : t'.get? p = t.get? p := by
  unfold get?
  cases located : t.locate? p with
  | none =>
    cases located' : t'.locate? p with
    | none => rfl
    | some x =>
      rw [(edited.locate?_back located').1] at located
      cases located
  | some x =>
    have different : x ≠ place := fun h => away (by rw [located, h])
    have absolute := isAbsolute_of_locate? located
    rw [locate?, if_pos absolute] at located
    obtain ⟨walked, outside⟩ := edited.walk_forth edited.outside_root located different
    rw [locate?, if_pos absolute, walked, Option.bind_some, Option.bind_some,
      edited.elsewhere x outside]

theorem Edited.read?_eq {p : Path} (away : t.locate? p ≠ some place) :
    t'.read? p = t.read? p := by
  rw [read?, read?, edited.get?_eq away]

theorem Edited.isFile_eq {p : Path} (away : t.locate? p ≠ some place) :
    t'.isFile p = t.isFile p := by
  rw [isFile, isFile, edited.get?_eq away]

/-- No file appears. -/
theorem Edited.isFile_of_isFile {p : Path} (h : t'.isFile p = true) : t.isFile p = true := by
  by_cases away : t.locate? p = some place
  · obtain ⟨c, file⟩ := edited.before
    rw [isFile_iff]
    exact ⟨c, by rw [get?, away, Option.bind_some, file]⟩
  · rwa [← edited.isFile_eq away]

end Edits

/-! ## Overwriting and deleting -/

theorem node?_of_ne_nil {x : List String} (nonempty : x ≠ []) :
    t.node? x = (t.nodes.find? (·.1 == x)).map (·.2) := by
  cases x with
  | nil => exact absurd rfl nonempty
  | cons s x => rfl

theorem node?_set {place x : List String} {n : Node} (nonempty : x ≠ []) :
    (t.set place n).node? x = if x = place then some n else t.node? x := by
  rw [node?_of_ne_nil nonempty, node?_of_ne_nil nonempty, set, List.find?_append]
  by_cases here : x = place
  · subst here
    have gone : (t.nodes.filter (·.1 != x)).find? (·.1 == x) = none := by
      rw [List.find?_eq_none]
      intro a member
      have different := (List.mem_filter.mp member).2
      simpa using different
    rw [gone, if_pos rfl, Option.none_or, List.find?_cons_of_pos (by simp)]
    rfl
  · have kept : (t.nodes.filter (·.1 != place)).find? (·.1 == x) = t.nodes.find? (·.1 == x) := by
      refine find?_filter_of_imp (fun a key => ?_) t.nodes
      rw [beq_iff_eq] at key
      simpa [key] using here
    rw [kept, if_neg here, List.find?_cons_of_neg (by simpa using Ne.symm here), List.find?_nil,
      Option.or_none]

theorem node?_filter_prefix {place x : List String} (outside : ¬ place <+: x) :
    (⟨t.nodes.filter fun n => !place.isPrefixOf n.1⟩ : Tree).node? x = t.node? x := by
  cases x with
  | nil => rfl
  | cons s x =>
    rw [node?_of_ne_nil (by simp), node?_of_ne_nil (by simp), find?_filter_of_imp]
    intro a key
    rw [beq_iff_eq] at key
    rw [key, Bool.not_eq_true', ← Bool.not_eq_true, List.isPrefixOf_iff_prefix]
    exact outside

theorem edited_delete {q : Path} {place : List String} {c : Content}
    (located : t.locate? q = some place) (file : t.node? place = some (.file c)) :
    Edited t (t.delete q) place := by
  have nonempty : place ≠ [] := by
    rintro rfl
    cases file
  rw [delete, located]
  refine ⟨fun other => node?_filter_prefix, ⟨c, file⟩, .inl ?_⟩
  rw [node?_of_ne_nil nonempty, List.find?_filter, Option.map_eq_none_iff, List.find?_eq_none]
  intro a _
  cases h : a.1 == place with
  | false => simp
  | true =>
    have key : a.1 = place := by simpa using h
    simp [key]

/-- Walking to a file again while making directories makes none. -/
theorem foldlM_makeStep {names : List (List Char)} (isName : ∀ n ∈ names, IsName n)
    {last : String} :
    ∀ {here x : List String}, (names.map String.ofList ++ [last]).foldlM t.step here = some x →
      (names.map String.ofList).foldlM makeStep (t, here) =
        some (t, here ++ names.map String.ofList) := by
  induction names with
  | nil =>
    intro here x _
    simp
  | cons n names ih =>
    intro here x h
    obtain ⟨nonempty, dot, dots, -⟩ := isName n List.mem_cons_self
    rw [List.map_cons, List.cons_append, List.foldlM_cons, Option.bind_eq_bind,
      Option.bind_eq_some_iff] at h
    obtain ⟨next, first, rest⟩ := h
    obtain rfl := step_name (isName n List.mem_cons_self) first
    have directory : t.node? (here ++ [String.ofList n]) = some .directory := by
      cases names with
      | nil => exact directory_of_walk rest
      | cons m names => exact directory_of_walk rest
    have made : makeStep (t, here) (String.ofList n) = some (t, here ++ [String.ofList n]) := by
      have plain : ¬ (String.ofList n = "" ∨ String.ofList n = ".") := by
        rintro (h | h)
        · exact nonempty (ofList_inj h)
        · exact dot (ofList_inj h)
      have forward : ¬ String.ofList n = ".." := fun h => dots (ofList_inj h)
      simp only [makeStep, if_neg plain, if_neg forward, directory]
    rw [List.map_cons, List.foldlM_cons, made, Option.bind_eq_bind, Option.bind_some,
      ih (fun m member => isName m (List.mem_cons_of_mem _ member)) rest, List.append_assoc]
    rfl

theorem edited_write {names : List (List Char)} (isName : ∀ n ∈ names, IsName n)
    {place : List String} {c : Content} (located : t.locate? (ofNames names) = some place)
    (file : t.node? place = some (.file c)) (content : Content) :
    Edited t (t.write (ofNames names) content) place := by
  have nonempty : place ≠ [] := by
    rintro rfl
    cases file
  have here := locate?_ofNames isName located
  obtain ⟨front, last, rfl⟩ : ∃ front last, names = front ++ [last] := by
    rcases List.eq_nil_or_concat names with rfl | ⟨front, last, rfl⟩
    · exact absurd here nonempty
    · exact ⟨front, last, List.concat_eq_append⟩
  have below := segmentsBelowRoot_concat isName
  have walked :
      (front.map String.ofList ++ [String.ofList last]).foldlM t.step [] = some place := by
    rw [← below]
    rwa [locate?, if_pos (Path.isAbsolute_ofNames _)] at located
  have made := foldlM_makeStep (fun n member => isName n (List.mem_append_left _ member)) walked
  obtain ⟨solid, dot, dots, -⟩ := isName last (by simp)
  have plain :
      ¬ (String.ofList last = "" ∨ String.ofList last = "." ∨ String.ofList last = "..") := by
    rintro (h | h | h)
    · exact solid (ofList_inj h)
    · exact dot (ofList_inj h)
    · exact dots (ofList_inj h)
  have spot : [] ++ front.map String.ofList ++ [String.ofList last] = place := by
    rw [here, List.map_append]
    rfl
  have written : t.write (ofNames (front ++ [last])) content = t.set place (.file content) := by
    unfold write
    dsimp only
    rw [below, List.getLast?_concat, List.dropLast_concat, made]
    dsimp only
    rw [if_neg plain, spot, file]
    rfl
  rw [written]
  refine ⟨fun other outside => ?_, ⟨c, file⟩, .inr ⟨content, ?_⟩⟩
  · cases other with
    | nil => rfl
    | cons s other =>
      rw [node?_set (by simp), if_neg]
      rintro rfl
      exact outside (List.prefix_refl _)
  · rw [node?_set nonempty, if_pos rfl]

/-! ## New files -/

/-- A tree that has the directories of another and its files, but for one place. -/
structure Extends (t t' : Tree) (place : List String) : Prop where
  directories : ∀ {x}, t.node? x = some .directory → t'.node? x = some .directory
  files : ∀ {x c}, x ≠ place → t.node? x = some (.file c) → t'.node? x = some (.file c)

theorem Extends.refl (t : Tree) (place : List String) : Extends t t place :=
  ⟨fun h => h, fun _ h => h⟩

theorem Extends.trans {t₁ t₂ t₃ : Tree} {place : List String} (first : Extends t₁ t₂ place)
    (second : Extends t₂ t₃ place) : Extends t₁ t₃ place :=
  ⟨fun h => second.directories (first.directories h),
    fun other h => second.files other (first.files other h)⟩

/-- A walk to another place goes the same way. -/
theorem Extends.walk {t' : Tree} {place x : List String} (h : Extends t t' place)
    (there : (t'.node? x).isSome = true) {segments : List String} :
    ∀ {here : List String}, segments.foldlM t.step here = some x →
      segments.foldlM t'.step here = some x := by
  induction segments with
  | nil => exact fun walked => walked
  | cons s segments ih =>
    intro here walked
    rw [List.foldlM_cons, Option.bind_eq_bind, Option.bind_eq_some_iff] at walked ⊢
    obtain ⟨next, first, rest⟩ := walked
    obtain ⟨directory, way⟩ := step_cases first
    -- the walk ends at `next`, or it goes on from there, and then `next` is a directory
    have isThere : (t'.node? next).isSome = true := by
      cases segments with
      | nil =>
        cases rest
        exact there
      | cons s' segments =>
        rw [h.directories (directory_of_walk rest)]
        rfl
    refine ⟨next, step_of_cases (h.directories directory) ?_, ih rest⟩
    rcases way with blank | back | ⟨solid, forward, isNext, -⟩
    · exact .inl blank
    · exact .inr (.inl back)
    · exact .inr (.inr ⟨solid, forward, isNext, isThere⟩)

theorem Extends.get? {t' : Tree} {place : List String} (h : Extends t t' place) {p : Path}
    {c : Content} (found : t.get? p = some (.file c)) (away : t.locate? p ≠ some place) :
    t'.get? p = some (.file c) := by
  obtain ⟨x, located, node⟩ := get?_eq_some found
  have node' := h.files (fun there => away (there ▸ located)) node
  have absolute := isAbsolute_of_locate? located
  have located' : t'.locate? p = some x := by
    rw [locate?, if_pos absolute] at located ⊢
    exact h.walk (by rw [node']; rfl) located
  rw [Tree.get?, located', Option.bind_some, node']

theorem extends_set {place x : List String} {n : Node} (absent : t.node? x = none) :
    Extends t (t.set x n) place := by
  have kept : ∀ {y m}, t.node? y = some m → (t.set x n).node? y = some m := by
    intro y m node
    cases y with
    | nil => exact node
    | cons s y =>
      rw [node?_set (by simp), if_neg, node]
      rintro rfl
      rw [absent] at node
      cases node
  exact ⟨kept, fun _ => kept⟩

theorem extends_makeStep {place here here' : List String} {t' : Tree} {s : String}
    (h : makeStep (t, here) s = some (t', here')) : Extends t t' place := by
  unfold makeStep at h
  dsimp only at h
  split at h
  · cases h
    exact .refl t place
  · split at h
    · cases h
      exact .refl t place
    · split at h
      · cases h
        exact .refl t place
      · cases h
      · next absent =>
        cases h
        exact extends_set absent

theorem extends_foldlM_makeStep {place : List String} {segments : List String} :
    ∀ {t t' : Tree} {here here' : List String},
      segments.foldlM makeStep (t, here) = some (t', here') → Extends t t' place := by
  induction segments with
  | nil =>
    intro t t' here here' h
    cases h
    exact .refl t place
  | cons s segments ih =>
    intro t t' here here' h
    rw [List.foldlM_cons, Option.bind_eq_bind, Option.bind_eq_some_iff] at h
    obtain ⟨⟨t₁, here₁⟩, first, rest⟩ := h
    exact (extends_makeStep first).trans (ih rest)

/-- Along names, directories are made one below the other. -/
theorem makeStep_names {names : List (List Char)} (isName : ∀ n ∈ names, IsName n) :
    ∀ {t t' : Tree} {here here' : List String},
      (names.map String.ofList).foldlM makeStep (t, here) = some (t', here') →
      here' = here ++ names.map String.ofList := by
  induction names with
  | nil =>
    intro t t' here here' h
    cases h
    simp
  | cons n names ih =>
    intro t t' here here' h
    rw [List.map_cons, List.foldlM_cons, Option.bind_eq_bind, Option.bind_eq_some_iff] at h
    obtain ⟨⟨t₁, here₁⟩, first, rest⟩ := h
    obtain ⟨nonempty, dot, dots, -⟩ := isName n List.mem_cons_self
    have next : here₁ = here ++ [String.ofList n] := by
      unfold makeStep at first
      dsimp only at first
      split at first
      · next blank =>
        rcases blank with blank | blank
        · exact absurd (ofList_inj blank) nonempty
        · exact absurd (ofList_inj blank) dot
      · split at first
        · next back => exact absurd (ofList_inj back) dots
        · split at first
          · cases first
            rfl
          · cases first
          · cases first
            rfl
    rw [ih (fun m member => isName m (List.mem_cons_of_mem _ member)) rest, next]
    simp

/-- Writing a file changes no other file and no directory. -/
theorem extends_write {names : List (List Char)} (isName : ∀ n ∈ names, IsName n)
    (content : Content) :
    Extends t (t.write (ofNames names) content) (names.map String.ofList) := by
  rcases List.eq_nil_or_concat names with rfl | ⟨front, last, rfl⟩
  · exact .refl t _
  · rw [List.concat_eq_append] at isName ⊢
    unfold write
    dsimp only
    rw [segmentsBelowRoot_concat isName, List.getLast?_concat, List.dropLast_concat]
    split
    · next name t₁ here isLast made =>
      cases isLast
      have front' := makeStep_names (fun n member => isName n (List.mem_append_left _ member)) made
      have extended : Extends t t₁ ((front ++ [last]).map String.ofList) :=
        extends_foldlM_makeStep made
      split
      · exact extended
      · split
        · exact extended
        · next notDirectory =>
          rw [front', List.nil_append] at notDirectory ⊢
          have place : front.map String.ofList ++ [String.ofList last] =
              (front ++ [last]).map String.ofList := by
            simp
          rw [place] at notDirectory ⊢
          refine extended.trans ⟨fun {x} directory => ?_, fun {x c} other file => ?_⟩
          · cases x with
            | nil => rfl
            | cons s x =>
              rw [node?_set (by simp), if_neg, directory]
              rintro there
              exact notDirectory (there ▸ directory)
          · cases x with
            | nil => cases file
            | cons s x => rw [node?_set (by simp), if_neg other, file]
    · exact .refl t _

/-- A new file leaves what the others hold. -/
theorem read?_write {q : Path} (normal : q.IsNormal) (absent : t.isFile q = false)
    (content : Content) {p : Path} {text : String} (read : t.read? p = some text) :
    (t.write q content).read? p = some text := by
  obtain ⟨names, isName, rfl⟩ := Path.isNormal_iff.mp normal
  have found := read?_eq_some.mp read
  rw [read?_eq_some]
  refine (extends_write isName content).get? found fun located => ?_
  -- the path would lead to the file that is not there
  have file := isFile_normalize (isFile_of_read? read)
  have normal' := Path.isNormal_normalize (isAbsolute_of_locate? located)
  obtain ⟨names', isName', whole⟩ := Path.isNormal_iff.mp normal'
  have located' := locate?_normalize located
  rw [whole] at located' file
  have places := locate?_ofNames isName' located'
  rw [← List.map_injective_iff.mpr (fun a b => ofList_inj) places, absent] at file
  cases file

end ModuleAtlas.Tree
