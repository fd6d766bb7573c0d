import ModuleAtlas.Proofs.Freshness

/-!
# Loading ends in a part in order

Extensions may hold slashes, and then a file can be found under several paths. A path that is found
is still one of few: behind its last name that was worked out there is nothing but the end of an
extension (`tails`), and up to there it names a node of the tree. So there are no more paths that
differ than ends of extensions at nodes (`length_le_of_found`).

In a part of a project that is in order the modules being linked are all different and found, so the
fuel that loading is given is enough, whatever the extensions are (`exists_plain_straight`).
-/

namespace ModuleAtlas

/-! ## Paths that are found -/

namespace Tree

open ModuleAtlas.Path (IsName)

variable {t : Tree}

theorem exists_node {x : List String} (nonempty : x ≠ []) (there : (t.node? x).isSome = true) :
    ∃ n ∈ t.nodes, n.1 = x := by
  cases x with
  | nil => exact absurd rfl nonempty
  | cons s x =>
    obtain ⟨node, isNode⟩ := Option.isSome_iff_exists.mp there
    obtain ⟨n, found, -⟩ := Option.map_eq_some_iff.mp isNode
    exact ⟨n, List.mem_of_find?_eq_some found, by simpa using List.find?_some found⟩

/-- A walk along names leads to a node. -/
theorem exists_node_of_walk {names : List (List Char)} (isName : ∀ n ∈ names, IsName n)
    (nonempty : names ≠ []) {x : List String}
    (walked : (names.map String.ofList).foldlM t.step [] = some x) :
    ∃ n ∈ t.nodes, n.1 = names.map String.ofList := by
  have place : x = names.map String.ofList := by simpa using foldlM_names isName walked
  obtain ⟨front, last, rfl⟩ := (List.eq_nil_or_concat names).resolve_left nonempty
  rw [List.concat_eq_append] at *
  rw [List.map_append, List.map_singleton, List.foldlM_append, Option.bind_eq_bind,
    Option.bind_eq_some_iff] at walked
  obtain ⟨here, -, stepped⟩ := walked
  rw [List.foldlM_cons, Option.bind_eq_bind, Option.bind_eq_some_iff] at stepped
  obtain ⟨there, stepped, ended⟩ := stepped
  cases ended
  rw [← place]
  refine exists_node (by simp [place]) ?_
  obtain ⟨noText, noDot, noDots, -⟩ := isName last (by simp)
  rcases (step_cases stepped).2 with ⟨blank, -⟩ | ⟨back, -⟩ | ⟨-, -, -, isNode⟩
  · rcases blank with empty | dot
    · exact absurd (ofList_inj empty) noText
    · exact absurd (ofList_inj dot) noDot
  · exact absurd (ofList_inj back) noDots
  · exact isNode

end Tree

namespace Path

theorem append_empty (p : Path) : p.append "" = p := by
  rw [append, String.append_empty]

theorem append_append (p : Path) (s s' : String) : (p.append s).append s' = p.append (s ++ s') := by
  rw [append, append, append, String.append_assoc]

/-- Text behind a path that goes on inside of it. -/
theorem join_append {q : String} (nonempty : q ≠ "") (relative : (⟨q⟩ : Path).isAbsolute = false)
    (p : Path) (s : String) : p / (q ++ s) = (p / q).append s := by
  have stays : (⟨q ++ s⟩ : Path).isAbsolute = false :=
    (isAbsolute_append (p := ⟨q⟩) nonempty s).trans relative
  change p.join (q ++ s) = (p.join q).append s
  rw [join, join, stays, relative, if_neg Bool.false_ne_true, if_neg Bool.false_ne_true]
  split
  · rw [append, String.append_assoc]
  · rw [append, String.append_assoc, String.append_assoc, String.append_assoc]

end Path

namespace Resolution

open ModuleAtlas.Path (IsName ofNames segmentsOf)

variable {t : Tree} {extensions : List String} {q : Path}

/-- A file that some worked-out path may stand for. -/
def Found (t : Tree) (extensions : List String) (q : Path) : Prop :=
  t.isFile q = true ∧ ∃ p : Path, q ∈ candidates extensions p.normalize

theorem found_of_fileFor {p : Path} (h : fileFor t extensions p.normalize = some q) :
    Found t extensions q :=
  ⟨List.find?_some h, p, List.mem_of_find?_eq_some h⟩

/-- What stays inside of the segment that an extension is put behind. -/
def headOf (e : String) : String := String.ofList (e.toList.takeWhile (· != '/'))

/-- What an extension holds from its first slash on. -/
def tailOf (e : String) : String := String.ofList (e.toList.dropWhile (· != '/'))

theorem headOf_append_tailOf (e : String) : headOf e ++ tailOf e = e := by
  rw [headOf, tailOf, ← String.ofList_append, List.takeWhile_append_dropWhile, String.ofList_toList]

theorem slashless_headOf (e : String) : '/' ∉ (headOf e).toList := by
  rw [headOf, String.toList_ofList]
  intro member
  have other := List.all_eq_true.mp List.all_takeWhile _ member
  simp at other

theorem tailOf_cases (e : String) : tailOf e = "" ∨ ∃ cs, (tailOf e).toList = '/' :: cs := by
  rw [tailOf, String.toList_ofList]
  cases rest : e.toList.dropWhile (· != '/') with
  | nil => exact .inl rfl
  | cons c cs =>
    have slash := List.head_dropWhile_not (· != '/') (l := e.toList) (by simp [rest])
    simp only [rest, List.head_cons, bne_eq_false_iff_eq] at slash
    exact .inr ⟨cs, by rw [slash]⟩

/-- The ends that paths can have behind a node. -/
def tails (extensions : List String) : List String := "" :: extensions.map tailOf

/-- A path that goes on with an end behind names leads over the node of these names. -/
theorem exists_node_of_isFile {names : List (List Char)} (isName : ∀ n ∈ names, IsName n)
    (nonempty : names ≠ []) {s : String} (isTail : s = "" ∨ ∃ cs, s.toList = '/' :: cs)
    (file : t.isFile ((ofNames names).append s) = true) :
    ∃ n ∈ t.nodes, n.1.map String.toList = names := by
  have chars : ((ofNames names).append s).text.toList =
      '/' :: (List.intercalate ['/'] names ++ s.toList) := by
    rw [Path.append, String.toList_append, Path.toList_ofNames, List.cons_append]
  have cut : ∃ more, segmentsOf (List.intercalate ['/'] names ++ s.toList) = names ++ more := by
    have whole := Path.segmentsOf_intercalate nonempty fun n member => (isName n member).2.2.2
    rcases isTail with rfl | ⟨cs, slash⟩
    · exact ⟨[], by rw [String.toList_empty, List.append_nil, List.append_nil, whole]⟩
    · exact ⟨segmentsOf cs, by rw [slash, Path.segmentsOf_append_slash, whole]⟩
  obtain ⟨more, cut⟩ := cut
  obtain ⟨c, found⟩ := Tree.isFile_iff.mp file
  obtain ⟨x, located, -⟩ := Tree.get?_eq_some found
  rw [Tree.locate?, if_pos (Tree.isAbsolute_of_isFile file),
    Tree.segmentsBelowRoot_of_absolute chars, cut, List.map_append, List.foldlM_append,
    Option.bind_eq_bind, Option.bind_eq_some_iff] at located
  obtain ⟨y, walked, -⟩ := located
  obtain ⟨n, member, place⟩ := Tree.exists_node_of_walk isName nonempty walked
  refine ⟨n, member, ?_⟩
  simp [place, Function.comp_def]

/-- The paths of which every file that is found has one: the root with each extension behind it, and
every node with each end. -/
def spellings (t : Tree) (extensions : List String) : List Path :=
  ("" :: extensions).map (ofNames []).append ++
    t.nodes.flatMap fun n => (tails extensions).map (ofNames (n.1.map String.toList)).append

theorem length_spellings (t : Tree) (extensions : List String) :
    (spellings t extensions).length = (t.size + 1) * (extensions.length + 1) := by
  have atNodes : (t.nodes.map fun n =>
      ((tails extensions).map (ofNames (n.1.map String.toList)).append).length).sum =
      t.size * (extensions.length + 1) := by
    simp [tails, Tree.size]
  rw [spellings, List.length_append, List.length_map, List.length_cons, List.length_flatMap,
    atNodes, Nat.add_mul, Nat.one_mul, Nat.add_comm]

/-- A file behind names with an end is found among the spellings. -/
theorem mem_spellings_of_isFile {names : List (List Char)} (isName : ∀ n ∈ names, IsName n)
    (nonempty : names ≠ []) {s : String} (isEnd : s ∈ tails extensions)
    (file : t.isFile ((ofNames names).append s) = true) :
    (ofNames names).append s ∈ spellings t extensions := by
  have isTail : s = "" ∨ ∃ cs, s.toList = '/' :: cs := by
    rcases List.mem_cons.mp isEnd with rfl | isEnd
    · exact .inl rfl
    · obtain ⟨e, -, rfl⟩ := List.mem_map.mp isEnd
      exact tailOf_cases e
  obtain ⟨n, member, place⟩ := exists_node_of_isFile isName nonempty isTail file
  refine List.mem_append_right _ (List.mem_flatMap.mpr ⟨n, member, ?_⟩)
  rw [place]
  exact List.mem_map_of_mem isEnd

/-- A file that is found behind an absolute path is among the spellings. -/
theorem mem_spellings_of_names {names : List (List Char)} (isName : ∀ n ∈ names, IsName n)
    (member : q ∈ candidates extensions (ofNames names)) (file : t.isFile q = true) :
    q ∈ spellings t extensions := by
  have atRoot {e : String} (listed : e ∈ "" :: extensions) :
      (ofNames []).append e ∈ spellings t extensions :=
    List.mem_append_left _ (List.mem_map_of_mem listed)
  have isEnd {e : String} (listed : e ∈ extensions) : tailOf e ∈ tails extensions :=
    List.mem_cons_of_mem _ (List.mem_map_of_mem listed)
  rw [candidates, List.mem_cons, List.mem_append, List.mem_map, List.mem_map] at member
  rcases member with rfl | ⟨e, listed, rfl⟩ | ⟨e, listed, rfl⟩
  · rw [← Path.append_empty (ofNames names)] at file ⊢
    by_cases root : names = []
    · exact root ▸ atRoot List.mem_cons_self
    · exact mem_spellings_of_isFile isName root List.mem_cons_self file
  · rcases List.eq_nil_or_concat names with rfl | ⟨front, last, rfl⟩
    · exact atRoot (List.mem_cons_of_mem _ listed)
    · rw [List.concat_eq_append] at isName file ⊢
      rw [← headOf_append_tailOf e, ← Path.append_append, Path.ofNames_append] at file ⊢
      refine mem_spellings_of_isFile (fun n inside => ?_) (by simp) (isEnd listed) file
      rcases List.mem_append.mp inside with inFront | isLast
      · exact isName n (List.mem_append_left _ inFront)
      · rw [List.mem_singleton.mp isLast]
        exact isName_append (isName last (by simp)) (slashless_headOf e)
  · have name : IsName ("index" ++ headOf e).toList := by
      rw [String.toList_append]
      exact isName_append (by simp [IsName]) (slashless_headOf e)
    have whole : ofNames names / ("index" ++ e) =
        (ofNames (names ++ [("index" ++ headOf e).toList])).append (tailOf e) := by
      rw [← Path.ofNames_join isName name, ← Path.join_append _ (indexName_relative _),
        String.append_assoc, headOf_append_tailOf]
      simp
    rw [whole] at file ⊢
    refine mem_spellings_of_isFile (fun n inside => ?_) (by simp) (isEnd listed) file
    rcases List.mem_append.mp inside with old | new
    · exact isName n old
    · rw [List.mem_singleton.mp new]
      exact name

theorem isAbsolute_of_mem_candidates {p : Path} (text : p.text ≠ "")
    (member : q ∈ candidates extensions p) : q.isAbsolute = p.isAbsolute := by
  rw [candidates, List.mem_cons, List.mem_append, List.mem_map, List.mem_map] at member
  rcases member with rfl | ⟨e, -, rfl⟩ | ⟨e, -, rfl⟩
  · rfl
  · exact Path.isAbsolute_append text e
  · exact Path.isAbsolute_join text (indexName_relative e)

/-- An extension that starts with a slash, alone and behind the root. -/
theorem same_append_root {e : String} {cs : List Char} (slash : e.toList = '/' :: cs) :
    (⟨e⟩ : Path).same ((ofNames []).append e) = true := by
  have behind : ((ofNames []).append e).text.toList = '/' :: '/' :: cs := by
    rw [Path.append, String.toList_append, Path.toList_ofNames, slash]
    rfl
  rw [Path.same_iff, Path.components_of_absolute slash, Path.components_of_absolute behind,
    Path.segmentsOf_slash_cons]
  rfl

theorem Found.exists_spelling (found : Found t extensions q) :
    ∃ r ∈ spellings t extensions, q.same r = true := by
  obtain ⟨file, p, member⟩ := found
  have absolute := Tree.isAbsolute_of_isFile file
  by_cases text : p.normalize.text = ""
  · -- Behind the empty path, only an extension that starts at the root is absolute.
    have empty : p.normalize = ⟨""⟩ := by rw [← text]
    rw [empty, candidates, List.mem_cons, List.mem_append, List.mem_map, List.mem_map] at member
    rcases member with rfl | ⟨e, listed, rfl⟩ | ⟨e, -, rfl⟩
    · cases absolute
    · rw [Path.append, String.empty_append] at absolute ⊢
      obtain ⟨cs, slash⟩ := Path.isAbsolute_iff.mp absolute
      refine ⟨_, ?_, same_append_root slash⟩
      exact List.mem_append_left _ (List.mem_map_of_mem (List.mem_cons_of_mem _ listed))
    · rw [Path.join_of_empty rfl, indexName_relative] at absolute
      cases absolute
  · rw [isAbsolute_of_mem_candidates text member, Path.isAbsolute_normalize] at absolute
    obtain ⟨names, isName, whole⟩ := Path.exists_names_of_absolute absolute
    exact ⟨q, mem_spellings_of_names isName (whole ▸ member) file, Path.same_refl q⟩

/-- Different paths of files that are found are no more than the spellings. -/
theorem length_le_of_found {ps : List Path} (apart : ps.Pairwise fun p q => p.same q = false)
    (found : ∀ p ∈ ps, Found t extensions p) :
    ps.length ≤ (t.size + 1) * (extensions.length + 1) := by
  have distinct : (ps.map Path.components).Nodup := by
    rw [List.nodup_iff_pairwise_ne, List.pairwise_map]
    refine apart.imp fun differ same => ?_
    rw [Path.same_iff.mpr same] at differ
    cases differ
  have listed : ps.map Path.components ⊆ (spellings t extensions).map Path.components := by
    intro cs member
    obtain ⟨p, inside, rfl⟩ := List.mem_map.mp member
    obtain ⟨r, spelled, same⟩ := (found p inside).exists_spelling
    exact List.mem_map.mpr ⟨r, spelled, (Path.same_iff.mp same).symm⟩
  have few := (distinct.subperm listed).length_le
  rwa [List.length_map, List.length_map, length_spellings] at few

end Resolution

/-! ## Loads -/

namespace Atlas

open Draft (Mode Slot)
open Resolution (Location Found)

variable {t : Tree} {project : Project} {S : Path → Prop} {p q : Path}

theorem AsksFor.found (asks : AsksFor t project p q) : Found t project.extensions q := by
  obtain ⟨d, slot, specifier, mode, -, -, -, meant⟩ := asks
  obtain ⟨base, -, isFile⟩ := Option.bind_eq_some_iff.mp meant
  exact Resolution.found_of_fileFor isFile

/-- The modules of a part that are being linked while the module at a path is loaded: they differ
and lead to it, and all but the outermost, and the module itself unless it is the outermost, were
found. -/
structure Climb (S : Path → Prop) (t : Tree) (project : Project) (stack : List Path) (p : Path) :
    Prop where
  inside : ∀ q ∈ stack, S q
  leads : ∀ q ∈ stack, Relation.TransGen (AsksFor t project) q p
  apart : stack.Pairwise fun p q => p.same q = false
  found : ∀ q ∈ stack.tail, Found t project.extensions q
  next : stack = [] ∨ Found t project.extensions p

namespace Climb

variable {stack : List Path}

theorem nil (p : Path) : Climb S t project [] p :=
  ⟨by simp, by simp, .nil, by simp, .inl rfl⟩

theorem length_le (h : Climb S t project stack p) :
    stack.length ≤ (t.size + 1) * (project.extensions.length + 1) + 1 := by
  have few := Resolution.length_le_of_found (h.apart.sublist (List.tail_sublist _)) h.found
  rw [List.length_tail] at few
  omega

/-- A module begins and asks for another. -/
theorem push (h : Climb S t project stack p) (inside : S p)
    (absent : ∀ r ∈ stack, r.same p = false) (asks : AsksFor t project p q) :
    Climb S t project (stack ++ [p]) q := by
  constructor
  · exact List.forall_mem_append.mpr ⟨h.inside, by simpa using inside⟩
  · refine List.forall_mem_append.mpr ⟨fun r member => (h.leads r member).tail asks, ?_⟩
    simpa using .single asks
  · rw [List.pairwise_append]
    refine ⟨h.apart, List.pairwise_singleton _ _, fun r member p' isOwn => ?_⟩
    rw [List.mem_singleton.mp isOwn]
    exact absent r member
  · cases stack with
    | nil => simp
    | cons outermost stack =>
      have found := h.next.resolve_left (List.cons_ne_nil _ _)
      exact List.forall_mem_append.mpr ⟨h.found, by simpa using found⟩
  · exact .inr asks.found

end Climb

/-- Where everything that slots ask for is answered, they get answers. -/
theorem exists_answered_requests {σ : Type} {fetch : Fetch σ} {I : σ → Prop} {d : Draft}
    {slots : List Slot} {s : σ}
    (returns : ∀ slot ∈ slots, ∀ specifier mode, request? d slot = some (specifier, mode) →
      ∀ s, I s → ∃ f s', fetch specifier mode s = some (f, s') ∧ I s') (start : I s) :
    ∃ fs s', Answered fetch.Gives d slots s fs s' := by
  induction slots generalizing s with
  | nil => exact ⟨[], s, .nil⟩
  | cons slot rest ih =>
    obtain ⟨first, others⟩ := List.forall_mem_cons.mp returns
    cases request : request? d slot with
    | none =>
      obtain ⟨fs, s', answered⟩ := ih others start
      exact ⟨_, _, .silent request answered⟩
    | some asked =>
      obtain ⟨f, s₁, gives, next⟩ := first _ _ request s start
      obtain ⟨fs, s', answered⟩ := ih others next
      exact ⟨_, _, .asked request gives answered⟩

/-- Loading a module of the part ends with some fuel, while modules that lead to it are being
linked. -/
def EndsWith (S : Path → Prop) (t : Tree) (project : Project) (fuel : Nat) (nesting : Nesting) :
    Prop :=
  ∀ l mode s, S l.path → FaithfulOn S t project s.atlas → s.nesting = nesting →
    Climb S t project nesting.stack l.path → ∃ m s', load t fuel l mode s = some (m, s')

section Ends

variable {fuel : Nat} {l : Location} {mode : Mode} {nesting : Nesting} {s : Session}

/-- A module of the part that asks for another gets an answer, if loading the other one ends. -/
theorem exists_fetch_straight (straight : Straight t project S)
    (ends : EndsWith S t project fuel nesting) {specifier : String}
    (relative : IsRelative t project specifier)
    (climb : ∀ q, fileMeant t project l.path specifier = some q →
      S q ∧ Climb S t project nesting.stack q)
    (start : FaithfulOn S t project s.atlas ∧ s.nesting = nesting) :
    ∃ f s', fetch t (load t fuel) l specifier mode s = some (f, s') ∧
      FaithfulOn S t project s'.atlas ∧ s'.nesting = nesting := by
  obtain ⟨kept, rfl⟩ := start
  unfold fetch
  cases found : s.atlas.resolve t specifier l.path l.context with
  | mk target atlas =>
    have meant := ((kept.settled.resolve found).2 relative).1
    cases target with
    | none => exact ⟨_, _, rfl, kept.resolve found, rfl⟩
    | some target =>
      obtain ⟨inside, climb⟩ := climb target.path meant.symm
      obtain ⟨m, s', loading⟩ :=
        ends target mode { s with atlas } inside (kept.resolve found) rfl climb
      have loads := FaithfulOn.loads straight ⟨fuel, loading⟩ (kept.resolve found)
        fun q member _ => climb.leads q member
      dsimp only
      rw [loading]
      exact ⟨_, _, rfl, loads.kept, loads.nesting inside⟩

/-- Building a module of the part ends, if loading the modules that it asks for does. -/
theorem exists_built_straight (straight : Straight t project S)
    (ends : EndsWith S t project fuel nesting) {content : String} (inside : S l.path)
    (read : t.read? l.path = some content)
    (climb : ∀ q, AsksFor t project l.path q → Climb S t project nesting.stack q)
    (start : FaithfulOn S t project s.atlas ∧ s.nesting = nesting) :
    ∃ m s', Built (fetch t (load t fuel) l).Gives Session.counted mode l.path content s m s' := by
  cases ok : Draft.ofFile mode l.path content with
  | error e => exact ⟨_, _, .unsupported ok⟩
  | ok d =>
    by_cases pending : d.isPending = true
    · have returns : ∀ slot ∈ d.slots, ∀ specifier mode',
          request? d slot = some (specifier, mode') →
          ∀ s, FaithfulOn S t project s.atlas ∧ s.nesting = nesting →
            ∃ f s', fetch t (load t fuel) l specifier mode' s = some (f, s') ∧
              FaithfulOn S t project s'.atlas ∧ s'.nesting = nesting := by
        intro slot member specifier mode' request s start
        obtain ⟨relative, asks⟩ := straight.request inside read ok member request
        refine exists_fetch_straight straight ends relative (fun q meant => ?_) start
        exact ⟨straight.closed inside (asks q meant), climb q (asks q meant)⟩
      obtain ⟨fs, s', answered⟩ := exists_answered_requests returns
        (s := s.counted) ⟨start.1.withTables fun e member => member, start.2⟩
      exact ⟨_, _, .linked ok pending answered⟩
    · exact ⟨_, _, .plain ok (by simpa using pending)⟩

/-- Loading a module of the part ends, if the fuel is enough for all paths that can be found and are
not being linked. -/
theorem endsWith_of_le (straight : Straight t project S)
    (enough : (t.size + 1) * (project.extensions.length + 1) + 2 ≤ fuel + nesting.stack.length) :
    EndsWith S t project fuel nesting := by
  induction fuel generalizing nesting with
  | zero =>
    intro l mode s _ _ _ climb
    have bound := climb.length_le
    omega
  | succ fuel ih =>
    rintro l mode s inside kept rfl climb
    simp only [load_succ_iff]
    cases read : t.read? l.path with
    | none => exact ⟨_, _, .unreadable read⟩
    | some content =>
      obtain ⟨⟨hit, tables⟩, got⟩ : ∃ r, s.atlas.tables.get l.path mode content = r := ⟨_, rfl⟩
      obtain ⟨⟨level, nesting⟩, pushed⟩ : ∃ r, s.nesting.push l.path = r := ⟨_, rfl⟩
      cases hit with
      | some m => exact ⟨_, _, .hit read got⟩
      | none =>
        cases level with
        | none => exact ⟨_, _, .cut read got pushed⟩
        | some level =>
          obtain ⟨absent, -, rfl⟩ := Nesting.push_some pushed
          have deeper : EndsWith S t project fuel { stack := s.nesting.stack ++ [l.path] } := by
            refine ih ?_
            rw [List.length_append, List.length_singleton]
            omega
          have begun : FaithfulOn S t project { s.atlas with tables } :=
            kept.withTables fun e member => TableCache.mem_of_get got member
          obtain ⟨m, s', built⟩ := exists_built_straight straight deeper inside read
            (fun q asks => climb.push inside absent asks)
            (s := { s.withTables tables with nesting := { stack := s.nesting.stack ++ [l.path] } })
            ⟨begun, rfl⟩
          exact ⟨_, _, .built read got pushed built⟩

end Ends

/-- The table of a module of a part in order is what linking without keeping gives, whatever the
extensions are. -/
theorem exists_plain_straight {atlas : Atlas} (straight : Straight t project S)
    (faithful : FaithfulOn S t project atlas) {l : Location} (inside : S l.path) (mode : Mode) :
    ∃ m, Plain t project l.path mode m ∧ (atlas.loadTable t l mode).1 = m.map (·.table) := by
  have enough : (t.size + 1) * (project.extensions.length + 1) + 2 ≤ loadDepth t project := by
    have wide : project.extensions.length + 1 ≤ 2 * project.extensions.length + 1 := by omega
    exact Nat.add_le_add_right (Nat.mul_le_mul_left _ wide) 2
  have ends : EndsWith S t project (loadDepth t project) {} := endsWith_of_le straight enough
  obtain ⟨m, s', loading⟩ := ends l mode { atlas } inside faithful rfl (.nil l.path)
  have loads := FaithfulOn.loads straight ⟨_, loading⟩ faithful fun q member => nomatch member
  refine ⟨m, loads.plain inside, ?_⟩
  rw [loadTable, faithful.settled.sameProject, loading]

end Atlas

end ModuleAtlas
