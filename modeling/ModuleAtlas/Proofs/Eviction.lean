import Mathlib.Data.List.Perm.Subperm
import Mathlib.Data.List.Sort
import Mathlib.Logic.Relation
import Mathlib.Order.Bounds.Basic
import ModuleAtlas.Proofs.Kept

/-!
# What goes with a path

Dropping a path drops every table that was linked against it, and every table that was linked
against one of these. `ClosedAround` says which sets of paths hold a path together with all that was
linked against it; what `TableCache.invalidate` drops is the least of them (`isLeast_dependentsOf`).

* `dependentsOf` looks through all entries in rounds. A round that adds nothing ends the search,
  and no more rounds can add something than there are entries (`closed_or_long`).
* A `Sweep` drops one path at a time and forgets the entries as it goes: an entry that led to
  another may be gone before the other is looked at. It misses nothing (`Sweep.Sound.step`), in
  whatever order it takes up paths and entries, and every sweep ends (`Sweep.Step.shrinks`).

`invalidate_drops_dependents` puts the two together.
-/

namespace ModuleAtlas.Atlas

/-! ## Sets of paths -/

/-- The paths of a list, by their components: two texts of one path count once. -/
def pathSet (paths : List Path) : Set (List Component) :=
  {cs | ∃ p ∈ paths, p.components = cs}

theorem mem_pathSet {paths : List Path} {p : Path} :
    p.components ∈ pathSet paths ↔ among paths p = true := by
  simp [pathSet, among_iff, Path.same_iff]

theorem pathSet_subset_iff {paths : List Path} {R : Set (List Component)} :
    pathSet paths ⊆ R ↔ ∀ p ∈ paths, p.components ∈ R := by
  constructor
  · intro inside p member
    exact inside ⟨p, member, rfl⟩
  · intro inside cs h
    obtain ⟨p, member, rfl⟩ := h
    exact inside p member

theorem pathSet_sortPaths (paths : List Path) : pathSet (sortPaths paths) = pathSet paths := by
  simp [pathSet, mem_sortPaths]

/-- No two of the paths are the same. -/
def Apart (paths : List Path) : Prop := paths.Pairwise fun p q => p.same q = false

theorem Apart.nodup {paths : List Path} (apart : Apart paths) :
    (paths.map Path.components).Nodup := by
  rw [List.Nodup, List.pairwise_map]
  apply apart.imp
  intro p q different equal
  rw [Path.same_iff.mpr equal] at different
  cases different

theorem Apart.concat {paths : List Path} {p : Path} (apart : Apart paths)
    (new : among paths p = false) : Apart (paths ++ [p]) := by
  rw [Apart, List.pairwise_append]
  refine ⟨apart, List.pairwise_singleton _ _, ?_⟩
  intro q member r isLast
  rw [List.mem_singleton] at isLast
  rw [isLast]
  rw [among, List.any_eq_false] at new
  simpa using new q member

/-- Sorting paths that are apart puts each strictly before the next. -/
theorem Apart.pairwise_sortPaths {paths : List Path} (apart : Apart paths) :
    (sortPaths paths).Pairwise fun p q => p.before q = true := by
  have apart' : Apart (sortPaths paths) := by
    refine (List.Perm.pairwise_iff ?_ (List.mergeSort_perm paths _)).mpr apart
    intro p q different
    rwa [Path.same_comm]
  exact pairwise_before (Atlas.pairwise_sortPaths paths) (List.Pairwise.isChain apart')

/-- Sorted paths are known from their set. -/
theorem map_components_eq {paths paths' : List Path}
    (sorted : paths.Pairwise fun p q => p.before q = true)
    (sorted' : paths'.Pairwise fun p q => p.before q = true)
    (same : pathSet paths = pathSet paths') :
    paths.map Path.components = paths'.map Path.components := by
  have irrefl : Std.Irrefl fun as bs : List Component => Path.componentsBefore as bs = true := by
    constructor
    intro as
    simp [Path.sorts_componentsBefore.irrefl]
  have antisymm :
      Std.Antisymm fun as bs : List Component => Path.componentsBefore as bs = true := by
    constructor
    intro as bs forth back
    exact absurd (Path.sorts_componentsBefore.trans forth back) (irrefl.irrefl as)
  have strictly : ∀ {xs : List Path}, (xs.Pairwise fun p q => p.before q = true) →
      (xs.map Path.components).Pairwise fun as bs => Path.componentsBefore as bs = true :=
    fun h => List.pairwise_map.mpr h
  apply List.Pairwise.eq_of_mem_iff (strictly sorted) (strictly sorted')
  intro cs
  have members : ∀ xs : List Path, cs ∈ xs.map Path.components ↔ cs ∈ pathSet xs := by
    simp [pathSet]
  rw [members, members, same]

/-! ## Closed sets -/

/-- A set that holds a path, and the path of every entry that was linked against a path of the
set. -/
structure ClosedAround (entries : List KeptTable) (p : Path) (R : Set (List Component)) : Prop where
  start : p.components ∈ R
  step : ∀ e ∈ entries, ∀ d ∈ e.module.dependencies, d.components ∈ R → e.path.components ∈ R

section Rounds

variable {entries : List KeptTable} {p : Path} {R : Set (List Component)}

theorem pathSet_addDependent {paths : List Path} {e : KeptTable} (closed : ClosedAround entries p R)
    (member : e ∈ entries) (inside : pathSet paths ⊆ R) : pathSet (addDependent paths e) ⊆ R := by
  unfold addDependent
  split
  · next linked =>
    rw [Bool.and_eq_true] at linked
    obtain ⟨d, isDependency, dropped⟩ := List.any_eq_true.mp linked.2
    rw [pathSet_subset_iff] at inside ⊢
    intro q listed
    rcases List.mem_append.mp listed with old | new
    · exact inside q old
    · rw [List.mem_singleton] at new
      rw [new]
      apply closed.step e member d isDependency
      exact pathSet_subset_iff.mpr inside (mem_pathSet.mpr dropped)
  · exact inside

theorem pathSet_foldl_addDependent (closed : ClosedAround entries p R) {es : List KeptTable}
    (part : es ⊆ entries) {paths : List Path} (inside : pathSet paths ⊆ R) :
    pathSet (es.foldl addDependent paths) ⊆ R := by
  induction es generalizing paths with
  | nil => exact inside
  | cons e es ih =>
    apply ih (fun x member => part (List.mem_cons_of_mem _ member))
    exact pathSet_addDependent closed (part List.mem_cons_self) inside

/-- Rounds stay inside every closed set. -/
theorem pathSet_dependentsWithin (closed : ClosedAround entries p R) (rounds : Nat)
    {paths : List Path} (inside : pathSet paths ⊆ R) :
    pathSet (dependentsWithin entries rounds paths) ⊆ R := by
  induction rounds generalizing paths with
  | zero => exact inside
  | succ rounds ih =>
    exact ih (pathSet_foldl_addDependent closed (List.Subset.refl entries) inside)

/-- What one round adds, it adds behind: paths of entries, each once. -/
theorem exists_foldl_addDependent (es : List KeptTable) (paths : List Path) :
    ∃ new, es.foldl addDependent paths = paths ++ new ∧
      (∀ q ∈ new, ∃ e ∈ es, e.path = q) ∧ (Apart paths → Apart (paths ++ new)) := by
  induction es generalizing paths with
  | nil => exact ⟨[], by simp, by simp, by simp⟩
  | cons e es ih =>
    obtain ⟨new, whole, fromEntries, apart⟩ := ih (addDependent paths e)
    have later : ∀ q ∈ new, ∃ x ∈ e :: es, x.path = q := by
      intro q member
      obtain ⟨x, listed, isPath⟩ := fromEntries q member
      exact ⟨x, List.mem_cons_of_mem _ listed, isPath⟩
    rw [List.foldl_cons, whole]
    unfold addDependent at apart ⊢
    split at apart
    · next linked =>
      rw [if_pos linked]
      rw [Bool.and_eq_true, Bool.not_eq_true'] at linked
      refine ⟨e.path :: new, by simp, ?_, ?_⟩
      · intro q member
        rcases List.mem_cons.mp member with rfl | member
        · exact ⟨e, List.mem_cons_self, rfl⟩
        · exact later q member
      · intro before
        simpa using apart (before.concat linked.1)
    · next unlinked =>
      rw [if_neg unlinked]
      exact ⟨new, rfl, later, apart⟩

theorem exists_dependentsWithin (entries : List KeptTable) (rounds : Nat) (paths : List Path) :
    ∃ new, dependentsWithin entries rounds paths = paths ++ new ∧
      (∀ q ∈ new, ∃ e ∈ entries, e.path = q) ∧ (Apart paths → Apart (paths ++ new)) := by
  induction rounds generalizing paths with
  | zero => exact ⟨[], by simp [dependentsWithin], by simp, by simp⟩
  | succ rounds ih =>
    obtain ⟨first, whole, fromEntries, apart⟩ := exists_foldl_addDependent entries paths
    obtain ⟨more, whole', fromEntries', apart'⟩ := ih (paths ++ first)
    refine ⟨first ++ more, ?_, ?_, ?_⟩
    · rw [dependentsWithin, whole, whole', List.append_assoc]
    · intro q member
      rcases List.mem_append.mp member with member | member
      · exact fromEntries q member
      · exact fromEntries' q member
    · intro before
      rw [← List.append_assoc]
      exact apart' (apart before)

/-- A round that adds nothing has nothing to add: the paths are closed. -/
theorem step_of_fixed {paths : List Path} (fixed : entries.foldl addDependent paths = paths) :
    ∀ e ∈ entries, ∀ d ∈ e.module.dependencies, d.components ∈ pathSet paths →
      e.path.components ∈ pathSet paths := by
  intro e member d isDependency dropped
  rw [mem_pathSet] at dropped ⊢
  have listed : among e.module.dependencies d = true :=
    among_iff.mpr ⟨d, isDependency, Path.same_refl d⟩
  have found := among_foldl_addDependent member dropped listed
  rwa [fixed] at found

/-- Rounds come to a closed list, unless each of them has added a path. -/
theorem closed_or_long (entries : List KeptTable) (rounds : Nat) (paths : List Path) :
    (∀ e ∈ entries, ∀ d ∈ e.module.dependencies,
      d.components ∈ pathSet (dependentsWithin entries rounds paths) →
        e.path.components ∈ pathSet (dependentsWithin entries rounds paths)) ∨
      paths.length + rounds ≤ (dependentsWithin entries rounds paths).length := by
  induction rounds generalizing paths with
  | zero => exact .inr (Nat.le_refl _)
  | succ rounds ih =>
    by_cases fixed : entries.foldl addDependent paths = paths
    · left
      have stays : ∀ rounds, dependentsWithin entries rounds paths = paths := by
        intro rounds
        induction rounds with
        | zero => rfl
        | succ rounds ih => rw [dependentsWithin, fixed, ih]
      rw [stays]
      exact step_of_fixed fixed
    · obtain ⟨new, whole, -, -⟩ := exists_foldl_addDependent entries paths
      have grown : paths.length + 1 ≤ (entries.foldl addDependent paths).length := by
        cases new with
        | nil => exact absurd (by simpa using whole) fixed
        | cons q new => simp [whole]
      rw [dependentsWithin]
      rcases ih (entries.foldl addDependent paths) with closed | long
      · exact .inl closed
      · right
        omega

/-- Only an entry can add a path, so the search is over when its rounds are. -/
theorem closedAround_dependentsOf (entries : List KeptTable) (p : Path) :
    ClosedAround entries p (pathSet (dependentsOf entries p)) := by
  obtain ⟨new, whole, fromEntries, apart⟩ :=
    exists_dependentsWithin entries (entries.length + 1) [p]
  constructor
  · rw [mem_pathSet, among_iff, dependentsOf, whole]
    exact ⟨p, by simp, Path.same_refl p⟩
  · rcases closed_or_long entries (entries.length + 1) [p] with closed | long
    · exact closed
    · exfalso
      have distinct : (new.map Path.components).Nodup := by
        have all := (apart (List.pairwise_singleton _ p)).nodup
        rw [List.map_append] at all
        exact (List.nodup_append.mp all).2.1
      have listed : new.map Path.components ⊆ entries.map fun e => e.path.components := by
        intro cs member
        obtain ⟨q, inNew, rfl⟩ := List.mem_map.mp member
        obtain ⟨e, inEntries, rfl⟩ := fromEntries q inNew
        exact List.mem_map.mpr ⟨e, inEntries, rfl⟩
      have few := (distinct.subperm listed).length_le
      rw [List.length_map, List.length_map] at few
      rw [whole] at long
      simp at long
      omega

/-- What goes with a path is the least closed set around it. -/
theorem isLeast_dependentsOf (entries : List KeptTable) (p : Path) :
    IsLeast {R | ClosedAround entries p R} (pathSet (dependentsOf entries p)) := by
  refine ⟨closedAround_dependentsOf entries p, ?_⟩
  intro R closed
  apply pathSet_dependentsWithin closed
  simpa [pathSet_subset_iff] using closed.start

theorem apart_dependentsOf (entries : List KeptTable) (p : Path) :
    Apart (dependentsOf entries p) := by
  obtain ⟨new, whole, -, apart⟩ := exists_dependentsWithin entries (entries.length + 1) [p]
  rw [dependentsOf, whole]
  exact apart (List.pairwise_singleton _ p)

end Rounds

/-! ## Sweeps -/

/-- Whether an entry is one of a path, or was linked against it. -/
def KeptTable.restsOn (e : KeptTable) (p : Path) : Bool :=
  e.path.same p || among e.module.dependencies p

/-- A sweep: the entries that are left, the paths that are still to be dropped, and those that
were. -/
structure Sweep where
  entries : List KeptTable
  pending : List Path
  dropped : List Path := []

/-- One step of a sweep takes up any pending path. One that was dropped before is passed over. Any
other is dropped, and all entries that rest on it are gone; the paths of those that were linked
against it are pending then. The entries may be gone through in any order. -/
inductive Sweep.Step : Sweep → Sweep → Prop
  | again {s : Sweep} {q : Path} {rest : List Path} :
    s.pending.Perm (q :: rest) → among s.dropped q = true → Step s { s with pending := rest }
  | drop {s : Sweep} {q : Path} {rest : List Path} {gone left : List KeptTable} :
    s.pending.Perm (q :: rest) → among s.dropped q = false →
    gone.Perm (s.entries.filter (·.restsOn q)) → left.Perm (s.entries.filter (!·.restsOn q)) →
    Step s ⟨left, (gone.filter (!·.path.same q)).map (·.path) ++ rest, s.dropped ++ [q]⟩

/-- Each step leaves fewer entries and pending paths: an entry that is gone leaves at most one path
behind. -/
theorem Sweep.Step.shrinks {s s' : Sweep} (h : Sweep.Step s s') :
    s'.entries.length + s'.pending.length < s.entries.length + s.pending.length := by
  cases h with
  | again taken _ =>
    have length := taken.length_eq
    simp at length ⊢
    omega
  | @drop q rest gone left taken _ isGone isLeft =>
    have length := taken.length_eq
    have split := s.entries.length_eq_length_filter_add (·.restsOn q)
    have fewer := gone.length_filter_le (!·.path.same q)
    rw [← isGone.length_eq, ← isLeft.length_eq] at split
    simp at length ⊢
    omega

theorem Sweep.wellFounded_step : WellFounded fun s' s : Sweep => Sweep.Step s s' :=
  Subrelation.wf Sweep.Step.shrinks
    (measure fun s : Sweep => s.entries.length + s.pending.length).wf

/-- What holds of a sweep that began with all entries and one path. -/
structure Sweep.Sound (entries : List KeptTable) (p : Path) (s : Sweep) : Prop where
  left : s.entries.Perm (entries.filter fun e => !s.dropped.any e.restsOn)
  inside : ∀ R, ClosedAround entries p R → pathSet (s.pending ++ s.dropped) ⊆ R
  start : among (s.pending ++ s.dropped) p = true
  follows : ∀ e ∈ entries, ∀ d ∈ e.module.dependencies, among s.dropped d = true →
    among (s.pending ++ s.dropped) e.path = true
  apart : Apart s.dropped

theorem Sweep.Sound.begin (entries : List KeptTable) (p : Path) :
    Sweep.Sound entries p ⟨entries, [p], []⟩ := by
  refine ⟨?_, ?_, ?_, ?_, .nil⟩
  · simp
  · intro R closed
    simpa [pathSet_subset_iff] using closed.start
  · simp [among]
  · intro e _ d _ dropped
    simp [among] at dropped

section Sweeps

variable {entries : List KeptTable} {p : Path} {s s' : Sweep}

/-- A path that was dropped before may be passed over. -/
theorem Sweep.Sound.again {q : Path} {rest : List Path} (sound : Sweep.Sound entries p s)
    (taken : s.pending.Perm (q :: rest)) (dropped : among s.dropped q = true) :
    Sweep.Sound entries p { s with pending := rest } := by
  have still : ∀ x, among (s.pending ++ s.dropped) x = true →
      among (rest ++ s.dropped) x = true := by
    intro x h
    obtain ⟨r, member, same⟩ := among_iff.mp h
    rw [List.mem_append, taken.mem_iff, List.mem_cons] at member
    rcases member with (isTaken | inRest) | inDropped
    · rw [isTaken] at same
      rw [among_congr same] at dropped
      exact among_mono (List.subset_append_right _ _) dropped
    · exact among_iff.mpr ⟨r, List.mem_append_left _ inRest, same⟩
    · exact among_iff.mpr ⟨r, List.mem_append_right _ inDropped, same⟩
  refine ⟨sound.left, ?_, still p sound.start, ?_, sound.apart⟩
  · intro R closed
    have inside := pathSet_subset_iff.mp (sound.inside R closed)
    apply pathSet_subset_iff.mpr
    intro x member
    apply inside x
    rw [List.mem_append, taken.mem_iff]
    rcases List.mem_append.mp member with inRest | inDropped
    · exact .inl (List.mem_cons_of_mem _ inRest)
    · exact .inr inDropped
  · intro e member d isDependency gone
    exact still e.path (sound.follows e member d isDependency gone)

/-- No entry that was linked against a dropped path is missed. It may be gone when the path is
dropped; then its own path was pending before. -/
theorem Sweep.Sound.drop {q : Path} {rest : List Path} {gone left : List KeptTable}
    (sound : Sweep.Sound entries p s) (taken : s.pending.Perm (q :: rest))
    (new : among s.dropped q = false) (isGone : gone.Perm (s.entries.filter (·.restsOn q)))
    (isLeft : left.Perm (s.entries.filter (!·.restsOn q))) :
    Sweep.Sound entries p
      ⟨left, (gone.filter (!·.path.same q)).map (·.path) ++ rest, s.dropped ++ [q]⟩ := by
  have more : s.pending ++ s.dropped ⊆
      (gone.filter (!·.path.same q)).map (·.path) ++ rest ++ (s.dropped ++ [q]) := by
    intro x member
    rw [List.mem_append, taken.mem_iff, List.mem_cons] at member
    simp only [List.mem_append, List.mem_singleton]
    tauto
  refine ⟨?_, ?_, among_mono more sound.start, ?_, sound.apart.concat new⟩
  · have filtered := isLeft.trans (sound.left.filter _)
    rw [List.filter_filter] at filtered
    simpa [List.any_append, Bool.and_comm] using filtered
  · intro R closed
    have inside := pathSet_subset_iff.mp (sound.inside R closed)
    have pending : q.components ∈ R := inside q (by simp [taken.mem_iff])
    apply pathSet_subset_iff.mpr
    intro x member
    simp only [List.mem_append, List.mem_singleton] at member
    rcases member with (fromEntry | inRest) | inDropped | rfl
    · obtain ⟨e, member, rfl⟩ := List.mem_map.mp fromEntry
      obtain ⟨member, other⟩ := List.mem_filter.mp member
      rw [isGone.mem_iff, sound.left.filter _ |>.mem_iff] at member
      obtain ⟨listed, rests⟩ := List.mem_filter.mp member
      rw [KeptTable.restsOn, Bool.or_eq_true] at rests
      rcases rests with same | linked
      · simp [same] at other
      · obtain ⟨d, isDependency, same⟩ := among_iff.mp linked
        apply closed.step e (List.mem_filter.mp listed).1 d isDependency
        rwa [Path.same_iff.mp same]
    · exact inside x (by simp [taken.mem_iff, inRest])
    · exact inside x (by simp [inDropped])
    · exact pending
  · intro e member d isDependency dropped
    rw [among, List.any_append, Bool.or_eq_true] at dropped
    rcases dropped with before | now
    · exact among_mono more (sound.follows e member d isDependency before)
    · have linked : among e.module.dependencies q = true := by
        refine among_iff.mpr ⟨d, isDependency, ?_⟩
        simpa [Path.same_comm] using now
      by_cases there : e ∈ s.entries
      · by_cases own : e.path.same q = true
        · refine among_iff.mpr ⟨q, by simp, Path.same_symm own⟩
        · have listed : e ∈ gone.filter (!·.path.same q) := by
            simp [isGone.mem_iff, there, KeptTable.restsOn, linked, own]
          refine among_iff.mpr ⟨e.path, ?_, Path.same_refl _⟩
          exact List.mem_append_left _ (List.mem_append_left _ (List.mem_map_of_mem listed))
      · -- the entry went with an earlier path, and was pending from then on
        rw [sound.left.mem_iff, List.mem_filter] at there
        simp [member] at there
        obtain ⟨r, inDropped, rests⟩ := there
        rw [KeptTable.restsOn, Bool.or_eq_true] at rests
        rcases rests with same | linked'
        · refine among_mono more (among_iff.mpr ⟨r, ?_, Path.same_symm same⟩)
          exact List.mem_append_right _ inDropped
        · obtain ⟨d', isDependency', same⟩ := among_iff.mp linked'
          apply among_mono more
          apply sound.follows e member d' isDependency'
          exact among_iff.mpr ⟨r, inDropped, Path.same_symm same⟩

theorem Sweep.Sound.step (sound : Sweep.Sound entries p s) (h : Sweep.Step s s') :
    Sweep.Sound entries p s' := by
  cases h with
  | again taken dropped => exact sound.again taken dropped
  | drop taken new isGone isLeft => exact sound.drop taken new isGone isLeft

theorem Sweep.Sound.steps (sound : Sweep.Sound entries p s)
    (h : Relation.ReflTransGen Sweep.Step s s') : Sweep.Sound entries p s' := by
  induction h with
  | refl => exact sound
  | tail _ last ih => exact ih.step last

/-- A sweep that cannot go on has no pending paths. -/
theorem Sweep.pending_eq_nil (stuck : ∀ s', ¬ Sweep.Step s s') : s.pending = [] := by
  cases pending : s.pending with
  | nil => rfl
  | cons q rest =>
    have taken : s.pending.Perm (q :: rest) := by rw [pending]
    cases dropped : among s.dropped q with
    | true => exact absurd (.again taken dropped) (stuck _)
    | false => exact absurd (.drop taken dropped (.refl _) (.refl _)) (stuck _)

/-- At its end a sweep has dropped the least closed set around its path. -/
theorem Sweep.Sound.isLeast (sound : Sweep.Sound entries p s) (ended : s.pending = []) :
    IsLeast {R | ClosedAround entries p R} (pathSet s.dropped) := by
  obtain ⟨-, inside, start, follows, -⟩ := sound
  rw [ended, List.nil_append] at inside start follows
  refine ⟨⟨mem_pathSet.mpr start, ?_⟩, fun R closed => inside R closed⟩
  intro e member d isDependency dropped
  rw [mem_pathSet] at dropped ⊢
  exact follows e member d isDependency dropped

/-- And what it has left are the entries outside that set. -/
theorem Sweep.Sound.entries_perm (sound : Sweep.Sound entries p s) (ended : s.pending = []) :
    s.entries.Perm (entries.filter fun e => !among s.dropped e.path) := by
  obtain ⟨left, -, -, follows, -⟩ := sound
  rw [ended, List.nil_append] at follows
  refine left.trans (List.Perm.of_eq (List.filter_congr ?_))
  intro e member
  congr 1
  rw [Bool.eq_iff_iff, List.any_eq_true]
  constructor
  · intro h
    obtain ⟨r, inDropped, rests⟩ := h
    rw [KeptTable.restsOn, Bool.or_eq_true] at rests
    rcases rests with same | linked
    · exact among_iff.mpr ⟨r, inDropped, Path.same_symm same⟩
    · obtain ⟨d, isDependency, same⟩ := among_iff.mp linked
      apply follows e member d isDependency
      exact among_iff.mpr ⟨r, inDropped, Path.same_symm same⟩
  · intro h
    obtain ⟨r, inDropped, same⟩ := among_iff.mp h
    exact ⟨r, inDropped, by simp [KeptTable.restsOn, Path.same_symm same]⟩

end Sweeps

/-! ## Dropping a path -/

/-- What dropping a path from a cache has to give: the least closed set around the path as a list in
strict order, and the cache without the entries of its paths, none of which was linked against one
of them. -/
structure Eviction (c : TableCache) (p : Path) (dropped : List Path) (kept : TableCache) :
    Prop where
  sorted : dropped.Pairwise fun q r => q.before r = true
  least : IsLeast {R | ClosedAround c.entries p R} (pathSet dropped)
  rest : kept = { c with entries := c.entries.filter fun e => !among dropped e.path }
  independent : ∀ e ∈ kept.entries, ∀ d ∈ e.module.dependencies, among dropped d = false

theorem among_sortPaths (paths : List Path) (q : Path) :
    among (sortPaths paths) q = among paths q := by
  rw [Bool.eq_iff_iff, ← mem_pathSet, ← mem_pathSet, pathSet_sortPaths]

theorem eviction_invalidate (c : TableCache) (p : Path) :
    Eviction c p (c.invalidate p).1 (c.invalidate p).2 := by
  have closed := closedAround_dependentsOf c.entries p
  have kept : (c.invalidate p).2.entries =
      c.entries.filter fun e => !among (c.invalidate p).1 e.path := by
    simp [TableCache.invalidate, among_sortPaths]
  refine ⟨(apart_dependentsOf c.entries p).pairwise_sortPaths, ?_, ?_, ?_⟩
  · rw [TableCache.invalidate, pathSet_sortPaths]
    exact isLeast_dependentsOf c.entries p
  · rw [← kept]
    rfl
  · intro e member d isDependency
    rw [kept, List.mem_filter, Bool.not_eq_true'] at member
    rw [Bool.eq_false_iff]
    intro dropped
    rw [TableCache.invalidate, among_sortPaths] at dropped member
    have reached := closed.step e member.1 d isDependency (mem_pathSet.mpr dropped)
    rw [mem_pathSet, member.2] at reached
    cases reached

/-- Two evictions of a path from the same entries, in whatever order these stand, drop the same
paths and leave the same entries. -/
theorem Eviction.unique {c c' : TableCache} {p : Path} {dropped dropped' : List Path}
    {kept kept' : TableCache} (h : Eviction c p dropped kept) (h' : Eviction c' p dropped' kept')
    (perm : c'.entries.Perm c.entries) :
    dropped'.map Path.components = dropped.map Path.components ∧
      kept'.entries.Perm kept.entries := by
  have closed : ∀ R, ClosedAround c'.entries p R ↔ ClosedAround c.entries p R := by
    intro R
    constructor
    · intro h
      exact ⟨h.start, fun e member => h.step e (perm.mem_iff.mpr member)⟩
    · intro h
      exact ⟨h.start, fun e member => h.step e (perm.mem_iff.mp member)⟩
  have sets : pathSet dropped' = pathSet dropped := by
    have least := h'.least
    simp only [closed] at least
    exact least.unique h.least
  refine ⟨map_components_eq h'.sorted h.sorted sets, ?_⟩
  rw [h.rest, h'.rest]
  refine (perm.filter _).trans (List.Perm.of_eq (List.filter_congr ?_))
  intro e _
  congr 1
  rw [Bool.eq_iff_iff, ← mem_pathSet, ← mem_pathSet, sets]

/-- A sweep that has ended is an eviction. -/
theorem Sweep.Sound.ended {c : TableCache} {p : Path} {s : Sweep}
    (sound : Sweep.Sound c.entries p s) (ended : s.pending = []) :
    (sortPaths s.dropped).map Path.components = (c.invalidate p).1.map Path.components ∧
      s.entries.Perm (c.invalidate p).2.entries := by
  have eviction := eviction_invalidate c p
  have sets : pathSet s.dropped = pathSet (c.invalidate p).1 :=
    (sound.isLeast ended).unique eviction.least
  constructor
  · apply map_components_eq sound.apart.pairwise_sortPaths eviction.sorted
    rw [pathSet_sortPaths, sets]
  · rw [eviction.rest]
    refine (sound.entries_perm ended).trans (List.Perm.of_eq (List.filter_congr ?_))
    intro e _
    congr 1
    rw [Bool.eq_iff_iff, ← mem_pathSet, ← mem_pathSet, sets]

/-- Dropping a path drops exactly what rests on it, however far, and leaves the other entries as
they are. The order of the entries has no part in it. Nor has the way to go about it: dropping one
path after the other and forgetting the entries meanwhile always ends, and always the same way. -/
theorem invalidate_drops_dependents (c : TableCache) (p : Path) :
    Eviction c p (c.invalidate p).1 (c.invalidate p).2 ∧
    (∀ c' : TableCache, c'.entries.Perm c.entries →
      (c'.invalidate p).1.map Path.components = (c.invalidate p).1.map Path.components ∧
        (c'.invalidate p).2.entries.Perm (c.invalidate p).2.entries) ∧
    (WellFounded fun s' s : Sweep => Sweep.Step s s') ∧
    ∀ s, Relation.ReflTransGen Sweep.Step ⟨c.entries, [p], []⟩ s → (∀ s', ¬ Sweep.Step s s') →
      (sortPaths s.dropped).map Path.components = (c.invalidate p).1.map Path.components ∧
        s.entries.Perm (c.invalidate p).2.entries := by
  refine ⟨eviction_invalidate c p, ?_, Sweep.wellFounded_step, ?_⟩
  · intro c' perm
    exact (eviction_invalidate c p).unique (eviction_invalidate c' p) perm
  · intro s steps stuck
    have sound := (Sweep.Sound.begin c.entries p).steps steps
    exact sound.ended (Sweep.pending_eq_nil stuck)

/-- Two modules that were linked against each other, one of them kept in both modes, and one that
was linked against neither. -/
def ringCache : TableCache :=
  { entries :=
      [⟨⟨"/p/a.ts"⟩, .full, "", { table := {}, dependencies := [⟨"/p/b.ts"⟩] }⟩,
       ⟨⟨"/p/b.ts"⟩, .exportsOnly, "", { table := {}, dependencies := [⟨"/p/./a.ts"⟩] }⟩,
       ⟨⟨"/p/b.ts"⟩, .full, "", { table := {} }⟩,
       ⟨⟨"/p/c.ts"⟩, .full, "", { table := {} }⟩] }

theorem invalidate_drops_dependents_ring :
    (ringCache.invalidate ⟨"/p/a.ts"⟩).1 = [⟨"/p/a.ts"⟩, ⟨"/p/b.ts"⟩] ∧
    (({ ringCache with entries := ringCache.entries.reverse }).invalidate
        ⟨"/p/a.ts"⟩).1.map Path.components =
      (ringCache.invalidate ⟨"/p/a.ts"⟩).1.map Path.components ∧
    (sortPaths [⟨"/p/a.ts"⟩, ⟨"/p/b.ts"⟩]).map Path.components =
      (ringCache.invalidate ⟨"/p/a.ts"⟩).1.map Path.components := by
  have dropped : dependentsOf ringCache.entries ⟨"/p/a.ts"⟩ = [⟨"/p/a.ts"⟩, ⟨"/p/b.ts"⟩] := by
    decide +kernel
  have first : Sweep.Step ⟨ringCache.entries, [⟨"/p/a.ts"⟩], []⟩
      ⟨ringCache.entries.drop 2, [⟨"/p/b.ts"⟩], [⟨"/p/a.ts"⟩]⟩ :=
    @Sweep.Step.drop ⟨ringCache.entries, [⟨"/p/a.ts"⟩], []⟩ ⟨"/p/a.ts"⟩ [] _ _ (.refl _)
      (by decide +kernel) (.refl _) (.refl _)
  have second : Sweep.Step ⟨ringCache.entries.drop 2, [⟨"/p/b.ts"⟩], [⟨"/p/a.ts"⟩]⟩
      ⟨ringCache.entries.drop 3, [], [⟨"/p/a.ts"⟩, ⟨"/p/b.ts"⟩]⟩ :=
    @Sweep.Step.drop ⟨ringCache.entries.drop 2, [⟨"/p/b.ts"⟩], [⟨"/p/a.ts"⟩]⟩ ⟨"/p/b.ts"⟩ [] _ _
      (.refl _) (by decide +kernel) (.refl _) (.refl _)
  have stuck : ∀ s', ¬ Sweep.Step
      ⟨ringCache.entries.drop 3, [], [⟨"/p/a.ts"⟩, ⟨"/p/b.ts"⟩]⟩ s' := by
    intro s' h
    cases h with
    | again taken _ => simpa using taken.length_eq
    | drop taken _ _ _ => simpa using taken.length_eq
  obtain ⟨-, orders, -, sweeps⟩ := invalidate_drops_dependents ringCache ⟨"/p/a.ts"⟩
  refine ⟨?_, ?_, ?_⟩
  · rw [TableCache.invalidate, dropped]
    exact List.mergeSort_of_pairwise (by decide +kernel)
  · exact (orders _ (List.reverse_perm _)).1
  · exact (sweeps _ (.tail (.single first) second) stuck).1

end ModuleAtlas.Atlas
