import ModuleAtlas.Atlas.Link
import ModuleAtlas.Proofs.PathOrder
import Mathlib.Data.List.Chain

/-!
# What linking asks and what it makes of the answers

A slot of a draft asks for at most one module (`request?`), and what it stands for is a function
of the answer (`fill`). So linking is asking in order and filling in: `linkSlots_iff` splits it into
the answers, `Answered`, and what they give. Everything said about a linked module is said about
its answers.

`dependencySet` puts the paths in order, each once, without the module's own (`among_dependencySet`,
`pairwise_dependencySet`). `distinctExports` keeps every outer name.
-/

namespace ModuleAtlas.Atlas

open Draft (Slot Mode)
open Symbols

/-! ## Local names -/

theorem mem_imports_of_target? {d : Draft} {name : String} {i : Import}
    (h : target? d name = some (.imported i)) : i ∈ d.imports := by
  obtain ⟨last, -, h⟩ := Option.bind_eq_some_iff.mp h
  unfold targetAt at h
  split at h
  · cases h
  · split at h
    · next found =>
      cases h
      exact List.mem_of_find?_eq_some found
    · obtain ⟨e, -, isTarget⟩ := Option.map_eq_some_iff.mp h
      cases isTarget

/-! ## Requests -/

/-- The module that a slot asks for: its specifier, and how much of it is taken. -/
def request? (d : Draft) : Slot → Option (String × Mode)
  | .everything specifier => some (specifier, .exportsOnly)
  | .entry e =>
    match e.declaration with
    | .reference _ (some specifier) => some (specifier, .full)
    | .reference target none =>
      match target? d target with
      | some (.imported i) => if i.isNamespace then none else some (i.source, .full)
      | _ => none
    | _ => none

/-- The entry that a reference stands for, given the table of the module it asked for. -/
def found? (d : Draft) (target : String) (origin : Option String) (table : Option Table) :
    Option Export :=
  match origin with
  | some _ => table.bind (·.lookup target)
  | none =>
    match target? d target with
    | some (.declared e) => some e
    | some (.imported i) =>
      if i.isNamespace then some { name := i.localName, declaration := .wholeModule i.source }
      else table.bind fun t => if i.isDefault then t.default? else t.named? i.soughtName
    | none => none

/-- The exports that a slot stands for, given the table of the module it asked for. -/
def fill (d : Draft) (table : Option Table) : Slot → List Export
  | .everything _ => (table.map (·.exports)).getD []
  | .entry e =>
    match e.declaration with
    | .reference target origin => [((found? d target origin table).map (exportAs e)).getD e]
    | _ => [e]

/-- A slot is linked by asking what it asks and filling in the answer. -/
theorem linkSlot_eq {σ : Type} (fetch : Fetch σ) (d : Draft) (slot : Slot) (s : σ) :
    linkSlot fetch d slot s =
      match request? d slot with
      | none => some ((fill d none slot, []), s)
      | some (specifier, mode) =>
        (fetch specifier mode s).map fun (f, s) => ((fill d f.table slot, f.dependencies), s) := by
  cases slot with
  | everything specifier => rfl
  | entry e =>
    cases declaration : e.declaration with
    | reference target origin =>
      cases origin with
      | some specifier =>
        simp [linkSlot, request?, fill, followReference, found?, declaration, Function.comp_def]
      | none =>
        cases leads : target? d target with
        | none => simp [linkSlot, request?, fill, followReference, followTarget, found?,
            declaration, leads]
        | some target =>
          cases target with
          | declared e' => simp [linkSlot, request?, fill, followReference, followTarget, found?,
              declaration, leads]
          | imported i =>
            by_cases whole : i.isNamespace = true
            · simp [linkSlot, request?, fill, followReference, followTarget, followImport, found?,
                declaration, leads, whole]
            · simp [linkSlot, request?, fill, followReference, followTarget, followImport, found?,
                declaration, leads, whole, Function.comp_def]
    | _ => simp [linkSlot, request?, fill, declaration]

/-! ## Answers -/

/-- The answers that slots get, one after the other, where `R` says which answers a request can
get in which states. A slot that asks for nothing counts as answered by nothing. -/
inductive Answered {σ : Type} (R : String → Mode → σ → Fetched → σ → Prop) (d : Draft) :
    List Slot → σ → List Fetched → σ → Prop
  | nil {s : σ} : Answered R d [] s [] s
  | silent {slot : Slot} {rest : List Slot} {s s' : σ} {fs : List Fetched} :
    request? d slot = none → Answered R d rest s fs s' →
    Answered R d (slot :: rest) s ({} :: fs) s'
  | asked {slot : Slot} {rest : List Slot} {specifier : String} {mode : Mode} {s s₁ s' : σ}
    {f : Fetched} {fs : List Fetched} :
    request? d slot = some (specifier, mode) → R specifier mode s f s₁ →
    Answered R d rest s₁ fs s' → Answered R d (slot :: rest) s (f :: fs) s'

/-- The answers of a way to ask. -/
def Fetch.Gives {σ : Type} (fetch : Fetch σ) (specifier : String) (mode : Mode) (s : σ)
    (f : Fetched) (s' : σ) : Prop :=
  fetch specifier mode s = some (f, s')

/-- The exports that slots stand for, given their answers. -/
def filled (d : Draft) : List Slot → List Fetched → List Export
  | slot :: rest, f :: fs => fill d f.table slot ++ filled d rest fs
  | _, _ => []

/-- Whatever slots stand for, one of them stands for with one of the answers. -/
theorem mem_filled {d : Draft} {slots : List Slot} {fs : List Fetched} {x : Export}
    (member : x ∈ filled d slots fs) : ∃ slot ∈ slots, ∃ f ∈ fs, x ∈ fill d f.table slot := by
  induction slots generalizing fs with
  | nil => cases member
  | cons slot rest ih =>
    cases fs with
    | nil => cases member
    | cons f fs =>
      rcases List.mem_append.mp member with member | member
      · exact ⟨slot, List.mem_cons_self, f, List.mem_cons_self, member⟩
      · obtain ⟨slot', inside, f', inAnswers, member⟩ := ih member
        exact ⟨slot', List.mem_cons_of_mem _ inside, f', List.mem_cons_of_mem _ inAnswers, member⟩

/-- The paths that answers led to. -/
def pathsOf (fs : List Fetched) : List Path := fs.flatMap (·.dependencies)

theorem linkSlots_iff {σ : Type} {fetch : Fetch σ} {d : Draft} {slots : List Slot} {s s' : σ}
    {es : List Export} {paths : List Path} :
    linkSlots fetch d slots s = some ((es, paths), s') ↔
      ∃ fs, Answered fetch.Gives d slots s fs s' ∧ es = filled d slots fs ∧ paths = pathsOf fs := by
  induction slots generalizing s es paths with
  | nil =>
    constructor
    · intro h
      cases h
      exact ⟨[], .nil, rfl, rfl⟩
    · rintro ⟨fs, answered, rfl, rfl⟩
      cases answered
      rfl
  | cons slot rest ih =>
    rw [linkSlots, linkSlot_eq]
    constructor
    · intro h
      obtain ⟨⟨⟨es₁, paths₁⟩, s₁⟩, first, h⟩ := Option.bind_eq_some_iff.mp h
      obtain ⟨⟨⟨es₂, paths₂⟩, s₂⟩, others, whole⟩ := Option.map_eq_some_iff.mp h
      cases whole
      obtain ⟨fs, answered, rfl, rfl⟩ := ih.mp others
      cases request : request? d slot with
      | none =>
        rw [request] at first
        cases first
        exact ⟨{} :: fs, .silent request answered, rfl, rfl⟩
      | some r =>
        obtain ⟨specifier, mode⟩ := r
        rw [request] at first
        obtain ⟨⟨f, s₁'⟩, gives, whole⟩ := Option.map_eq_some_iff.mp first
        cases whole
        exact ⟨f :: fs, .asked request gives answered, rfl, rfl⟩
    · rintro ⟨fs, answered, rfl, rfl⟩
      cases answered with
      | silent request others =>
        rw [request]
        have linked := ih.mpr ⟨_, others, rfl, rfl⟩
        dsimp only
        rw [Option.bind_some, linked]
        rfl
      | asked request gives others =>
        rw [request]
        have linked := ih.mpr ⟨_, others, rfl, rfl⟩
        dsimp only
        rw [gives, Option.map_some, Option.bind_some, linked]
        rfl

/-- The module that a draft becomes with the given answers. -/
def linkedWith (own : Path) (d : Draft) (fs : List Fetched) : Linked :=
  { table := { exports := distinctExports (filled d d.slots fs), imports := d.imports,
               locals := d.locals }
    dependencies := dependencySet own (pathsOf fs) }

/-- Linking is getting answers and putting them together. -/
theorem link_iff {σ : Type} {fetch : Fetch σ} {own : Path} {d : Draft} {s s' : σ} {m : Linked} :
    link fetch own d s = some (m, s') ↔
      ∃ fs, Answered fetch.Gives d d.slots s fs s' ∧ m = linkedWith own d fs := by
  rw [link, Option.map_eq_some_iff]
  constructor
  · rintro ⟨⟨⟨es, paths⟩, s₁⟩, linked, whole⟩
    cases whole
    obtain ⟨fs, answered, rfl, rfl⟩ := linkSlots_iff.mp linked
    exact ⟨fs, answered, rfl⟩
  · rintro ⟨fs, answered, rfl⟩
    exact ⟨_, linkSlots_iff.mpr ⟨fs, answered, rfl, rfl⟩, rfl⟩

section Views

variable {σ τ : Type} {fetch : Fetch σ} {fetch' : Fetch τ} {view : σ → τ}

theorem linkSlots_map (asks : ∀ specifier mode s,
      (fetch specifier mode s).map (fun r => (r.1, view r.2)) = fetch' specifier mode (view s))
    (d : Draft) (slots : List Slot) (s : σ) :
    (linkSlots fetch d slots s).map (fun r => (r.1, view r.2)) =
      linkSlots fetch' d slots (view s) := by
  induction slots generalizing s with
  | nil => rfl
  | cons slot rest ih =>
    have first : (linkSlot fetch d slot s).map (fun r => (r.1, view r.2)) =
        linkSlot fetch' d slot (view s) := by
      rw [linkSlot_eq, linkSlot_eq]
      split
      · rfl
      · rw [← asks, Option.map_map, Option.map_map]
        rfl
    rw [linkSlots, linkSlots, ← first]
    cases linkSlot fetch d slot s with
    | none => rfl
    | some r =>
      rw [Option.bind_some, Option.map_some, Option.bind_some]
      dsimp only
      rw [← ih, Option.map_map, Option.map_map]
      rfl

/-- Linking in two kinds of state that ask alike comes to the same. -/
theorem link_map (asks : ∀ specifier mode s,
      (fetch specifier mode s).map (fun r => (r.1, view r.2)) = fetch' specifier mode (view s))
    (own : Path) (d : Draft) (s : σ) :
    (link fetch own d s).map (fun r => (r.1, view r.2)) = link fetch' own d (view s) := by
  rw [link, link, ← linkSlots_map asks, Option.map_map, Option.map_map]
  rfl

end Views

section Answers

variable {σ : Type} {R : String → Mode → σ → Fetched → σ → Prop} {d : Draft}
  {slots : List Slot} {s s' : σ} {fs : List Fetched}

/-- Answers, seen in another kind of state. -/
theorem Answered.view {τ : Type} {R' : String → Mode → τ → Fetched → τ → Prop} (view : σ → τ)
    (answers : ∀ {specifier mode s f s'}, R specifier mode s f s' →
      R' specifier mode (view s) f (view s'))
    (h : Answered R d slots s fs s') : Answered R' d slots (view s) fs (view s') := by
  induction h with
  | nil => exact .nil
  | silent request _ ih => exact .silent request ih
  | asked request answer _ ih => exact .asked request (answers answer) ih

theorem Answered.mono {R' : String → Mode → σ → Fetched → σ → Prop}
    (weaken : ∀ {specifier mode s f s'}, R specifier mode s f s' → R' specifier mode s f s')
    (h : Answered R d slots s fs s') : Answered R' d slots s fs s' :=
  h.view id weaken

/-- What every answer keeps, the answers keep. -/
theorem Answered.keeps {I : σ → Prop} (h : Answered R d slots s fs s')
    (step : ∀ {specifier mode s f s'}, R specifier mode s f s' → I s → I s')
    (start : I s) : I s' := by
  induction h with
  | nil => exact start
  | silent _ _ ih => exact ih start
  | asked _ answer _ ih => exact ih (step answer start)

/-- What every answer keeps and has, the answers keep and have. -/
theorem Answered.keeps_all {I : σ → Prop} {J : Fetched → Prop} (h : Answered R d slots s fs s')
    (nothing : J {})
    (step : ∀ {specifier mode s f s'}, R specifier mode s f s' → I s → I s' ∧ J f)
    (start : I s) : I s' ∧ ∀ f ∈ fs, J f := by
  induction h with
  | nil => exact ⟨start, fun f member => nomatch member⟩
  | silent _ _ ih =>
    obtain ⟨kept, all⟩ := ih start
    exact ⟨kept, List.forall_mem_cons.mpr ⟨nothing, all⟩⟩
  | asked _ answer _ ih =>
    obtain ⟨kept, first⟩ := step answer start
    obtain ⟨kept, all⟩ := ih kept
    exact ⟨kept, List.forall_mem_cons.mpr ⟨first, all⟩⟩

/-- Answers in two kinds of state that are asked alike, if the answers are such as the second can
give too. -/
theorem Answered.lockstep {τ : Type} {R' : String → Mode → τ → Fetched → τ → Prop}
    {rel : σ → τ → Prop} {given : Fetched → Prop} (h : Answered R d slots s fs s')
    (step : ∀ {specifier mode s f s' u}, R specifier mode s f s' → given f → rel s u →
      ∃ u', R' specifier mode u f u' ∧ rel s' u')
    (all : ∀ f ∈ fs, given f) {u : τ} (start : rel s u) :
    ∃ u', Answered R' d slots u fs u' ∧ rel s' u' := by
  induction h generalizing u with
  | nil => exact ⟨u, .nil, start⟩
  | silent request _ ih =>
    obtain ⟨-, all⟩ := List.forall_mem_cons.mp all
    obtain ⟨u', answered, related⟩ := ih all start
    exact ⟨u', .silent request answered, related⟩
  | asked request answer _ ih =>
    obtain ⟨own, all⟩ := List.forall_mem_cons.mp all
    obtain ⟨u₁, first, related⟩ := step answer own start
    obtain ⟨u', answered, related⟩ := ih all related
    exact ⟨u', .asked request first answered, related⟩

/-- Where every request is answered, the slots are. -/
theorem exists_answered {fetch : Fetch σ} {I : σ → Prop}
    (returns : ∀ specifier mode s, I s → ∃ f s', fetch specifier mode s = some (f, s') ∧ I s')
    (d : Draft) (slots : List Slot) (start : I s) :
    ∃ fs s', Answered fetch.Gives d slots s fs s' ∧ I s' := by
  induction slots generalizing s with
  | nil => exact ⟨[], s, .nil, start⟩
  | cons slot rest ih =>
    cases request : request? d slot with
    | none =>
      obtain ⟨fs, s', answered, kept⟩ := ih start
      exact ⟨_, s', .silent request answered, kept⟩
    | some r =>
      obtain ⟨f, s₁, gives, kept⟩ := returns r.1 r.2 s start
      obtain ⟨fs, s', answered, kept⟩ := ih kept
      exact ⟨_, s', .asked request gives answered, kept⟩

end Answers

/-! ## Each once -/

/-- One more element of a list that keeps the first of those that are alike. -/
def keepFirst {α : Type} (alike : α → α → Bool) (kept : List α) (a : α) : List α :=
  if kept.any (alike · a) then kept else kept ++ [a]

/-- Keeping the first of those that are alike keeps a part of the list in its order, in which no two
are alike and every element has one that is. -/
theorem foldl_keepFirst {α : Type} (alike : α → α → Bool) (refl : ∀ a, alike a a = true)
    (as : List α) :
    ∀ kept : List α, (kept.Pairwise fun a b => alike a b = false) →
      ∃ new, as.foldl (keepFirst alike) kept = kept ++ new ∧ new.Sublist as ∧
        (∀ a ∈ as, ∃ b ∈ kept ++ new, alike b a = true) ∧
        (kept ++ new).Pairwise fun a b => alike a b = false := by
  induction as with
  | nil =>
    intro kept apart
    exact ⟨[], by simp, .slnil, by simp, by simpa using apart⟩
  | cons a as ih =>
    intro kept apart
    rw [List.foldl_cons]
    by_cases seen : kept.any (alike · a) = true
    · rw [keepFirst, if_pos seen]
      obtain ⟨new, whole, part, covers, apart'⟩ := ih kept apart
      refine ⟨new, whole, part.cons a, ?_, apart'⟩
      intro x member
      rcases List.mem_cons.mp member with rfl | member
      · obtain ⟨b, inKept, same⟩ := List.any_eq_true.mp seen
        exact ⟨b, List.mem_append_left _ inKept, same⟩
      · exact covers x member
    · rw [keepFirst, if_neg seen]
      have apart₁ : (kept ++ [a]).Pairwise fun a b => alike a b = false := by
        rw [List.pairwise_append]
        refine ⟨apart, List.pairwise_singleton _ _, ?_⟩
        intro x inKept y isA
        rw [List.mem_singleton] at isA
        subst isA
        rw [List.any_eq_true, not_exists] at seen
        exact Bool.eq_false_iff.mpr fun same => seen x ⟨inKept, same⟩
      obtain ⟨new, whole, part, covers, apart'⟩ := ih (kept ++ [a]) apart₁
      rw [List.append_assoc] at whole apart'
      refine ⟨a :: new, whole, part.cons_cons a, ?_, apart'⟩
      intro x member
      rcases List.mem_cons.mp member with rfl | member
      · exact ⟨x, by simp, refl x⟩
      · simpa using covers x member

theorem loop_eraseRepsBy {α : Type} (alike : α → α → Bool) (a : α) (as front : List α) :
    List.eraseRepsBy.loop alike a as front =
      front.reverse ++ List.eraseRepsBy.loop alike a as [] := by
  induction as generalizing a front with
  | nil => simp [List.eraseRepsBy.loop]
  | cons b as ih =>
    rw [List.eraseRepsBy.loop, List.eraseRepsBy.loop]
    cases alike a b with
    | true => exact ih a front
    | false =>
      dsimp only
      rw [ih b (a :: front), ih b [a]]
      simp

theorem eraseRepsBy_of_alike {α : Type} {alike : α → α → Bool} {a b : α}
    (same : alike a b = true) (as : List α) :
    (a :: b :: as).eraseRepsBy alike = (a :: as).eraseRepsBy alike := by
  rw [List.eraseRepsBy, List.eraseRepsBy, List.eraseRepsBy.loop, same]

theorem eraseRepsBy_of_apart {α : Type} {alike : α → α → Bool} {a b : α}
    (apart : alike a b = false) (as : List α) :
    (a :: b :: as).eraseRepsBy alike = a :: (b :: as).eraseRepsBy alike := by
  rw [List.eraseRepsBy, List.eraseRepsBy, List.eraseRepsBy.loop, apart]
  exact loop_eraseRepsBy alike b as [a]

/-- The first element is always kept, so what stays after it is compared with it. -/
theorem exists_eraseRepsBy_cons {α : Type} (alike : α → α → Bool) (refl : ∀ a, alike a a = true)
    (a : α) (as : List α) :
    ∃ rest, (a :: as).eraseRepsBy alike = a :: rest ∧ rest.Sublist as ∧
      (a :: rest).IsChain (fun a b => alike a b = false) ∧
      ∀ x ∈ as, ∃ y ∈ a :: rest, alike y x = true := by
  induction as generalizing a with
  | nil => exact ⟨[], rfl, .slnil, .singleton a, by simp⟩
  | cons b as ih =>
    cases same : alike a b with
    | true =>
      obtain ⟨rest, whole, part, apart, covers⟩ := ih a
      refine ⟨rest, (eraseRepsBy_of_alike same as).trans whole, part.cons b, apart,
        fun x member => ?_⟩
      rcases List.mem_cons.mp member with isB | member
      · exact ⟨a, List.mem_cons_self, isB ▸ same⟩
      · exact covers x member
    | false =>
      obtain ⟨rest, whole, part, apart, covers⟩ := ih b
      refine ⟨b :: rest, (eraseRepsBy_of_apart same as).trans (congrArg _ whole),
        part.cons_cons b, .cons_cons same apart, fun x member => ?_⟩
      rcases List.mem_cons.mp member with isB | member
      · exact ⟨b, by simp, isB ▸ refl b⟩
      · obtain ⟨y, inside, isLike⟩ := covers x member
        exact ⟨y, List.mem_cons_of_mem a inside, isLike⟩

/-- Leaving out what is like the one before keeps a part of the list in its order, in which no
neighbours are alike and every element has one that is. -/
theorem eraseRepsBy_spec {α : Type} (alike : α → α → Bool) (refl : ∀ a, alike a a = true)
    (as : List α) :
    (as.eraseRepsBy alike).Sublist as ∧
      (as.eraseRepsBy alike).IsChain (fun a b => alike a b = false) ∧
      ∀ a ∈ as, ∃ b ∈ as.eraseRepsBy alike, alike b a = true := by
  cases as with
  | nil => exact ⟨.slnil, .nil, by simp⟩
  | cons a as =>
    obtain ⟨rest, whole, part, apart, covers⟩ := exists_eraseRepsBy_cons alike refl a as
    rw [whole]
    refine ⟨part.cons_cons a, apart, fun x member => ?_⟩
    rcases List.mem_cons.mp member with isA | member
    · exact ⟨a, List.mem_cons_self, isA ▸ refl a⟩
    · exact covers x member

theorem among_iff {paths : List Path} {p : Path} :
    among paths p = true ↔ ∃ q ∈ paths, q.same p = true :=
  List.any_eq_true

theorem among_congr {paths : List Path} {p q : Path} (same : p.same q = true) :
    among paths p = among paths q := by
  rw [among, among]
  congr 1
  funext r
  exact Path.same_congr_right same r

theorem among_mono {paths more : List Path} (part : paths ⊆ more) {p : Path}
    (h : among paths p = true) : among more p = true := by
  obtain ⟨q, member, same⟩ := among_iff.mp h
  exact among_iff.mpr ⟨q, part member, same⟩

/-- Sorting puts no path behind one that comes after it. -/
theorem pairwise_sortPaths (paths : List Path) :
    (sortPaths paths).Pairwise fun p q => q.before p = false :=
  Path.sorts_componentsBefore.pairwise_mergeSort Path.components paths

theorem mem_sortPaths {paths : List Path} {p : Path} : p ∈ sortPaths paths ↔ p ∈ paths :=
  List.mem_mergeSort

/-- Sorted paths of which no neighbours are the same come strictly one before the other. -/
theorem pairwise_before {paths : List Path}
    (sorted : paths.Pairwise fun p q => q.before p = false)
    (apart : paths.IsChain fun p q => p.same q = false) :
    paths.Pairwise fun p q => p.before q = true := by
  induction paths with
  | nil => exact .nil
  | cons p paths ih =>
    obtain ⟨inOrder, sorted⟩ := List.pairwise_cons.mp sorted
    have rest := ih sorted apart.tail
    refine .cons (fun q member => ?_) rest
    cases paths with
    | nil => cases member
    | cons r paths =>
      have next : p.before r = true := by
        rcases Path.before_total apart.rel with first | second
        · exact first
        · rw [inOrder r List.mem_cons_self] at second
          cases second
      rcases List.mem_cons.mp member with isNext | later
      · exact isNext ▸ next
      · exact Path.sorts_componentsBefore.trans next ((List.pairwise_cons.mp rest).1 q later)

/-- The dependencies of a module before its own path is taken out. -/
theorem exists_dependencies (paths : List Path) :
    ∃ kept : List Path, (∀ own, dependencySet own paths = kept.filter (!·.same own)) ∧
      kept.Pairwise (fun p q => p.before q = true) ∧ kept ⊆ paths ∧
      ∀ p, among kept p = true ↔ among paths p = true := by
  obtain ⟨part, apart, covers⟩ := eraseRepsBy_spec Path.same Path.same_refl (sortPaths paths)
  have sorted := (pairwise_sortPaths paths).sublist part
  have inside : (sortPaths paths).eraseRepsBy Path.same ⊆ paths :=
    fun p member => mem_sortPaths.mp (part.subset member)
  refine ⟨_, fun own => rfl, pairwise_before sorted apart, inside, fun p => ?_⟩
  rw [among_iff, among_iff]
  constructor
  · rintro ⟨q, member, same⟩
    exact ⟨q, inside member, same⟩
  · rintro ⟨q, member, same⟩
    obtain ⟨first, inKept, alike⟩ := covers q (mem_sortPaths.mpr member)
    exact ⟨first, inKept, Path.same_trans alike same⟩

/-- Dependencies stand in order, so no two of them are the same. -/
theorem pairwise_dependencySet (own : Path) (paths : List Path) :
    (dependencySet own paths).Pairwise fun p q => p.before q = true := by
  obtain ⟨kept, whole, sorted, -⟩ := exists_dependencies paths
  rw [whole]
  exact sorted.filter _

/-- Dependencies are paths that the module led to, as they are spelled there. -/
theorem dependencySet_subset (own : Path) (paths : List Path) :
    dependencySet own paths ⊆ paths := by
  obtain ⟨kept, whole, -, inside, -⟩ := exists_dependencies paths
  rw [whole]
  exact fun p member => inside (List.mem_filter.mp member).1

/-- The dependencies of a module are the paths it led to but its own. -/
theorem among_dependencySet {own : Path} {paths : List Path} {p : Path} :
    among (dependencySet own paths) p = true ↔ among paths p = true ∧ p.same own = false := by
  obtain ⟨kept, whole, -, -, covers⟩ := exists_dependencies paths
  rw [whole, ← covers, among_iff, among_iff]
  constructor
  · rintro ⟨q, member, same⟩
    obtain ⟨inKept, other⟩ := List.mem_filter.mp member
    rw [Bool.not_eq_true'] at other
    exact ⟨⟨q, inKept, same⟩, by rwa [← Path.same_congr_left same]⟩
  · rintro ⟨⟨q, inKept, same⟩, other⟩
    refine ⟨q, List.mem_filter.mpr ⟨inKept, ?_⟩, same⟩
    rwa [Bool.not_eq_true', Path.same_congr_left same]

/-! ## Names -/

/-- The names under which exports other than the default are seen. -/
def outerNamesOf (es : List Export) : List String := (es.filter (!·.isDefault)).map (·.outerName)

theorem mem_outerNamesOf {es : List Export} {name : String} :
    name ∈ outerNamesOf es ↔ ∃ e ∈ es, e.isDefault = false ∧ e.outerName = name := by
  simp [outerNamesOf, and_assoc]

theorem outerNamesOf_append (es more : List Export) :
    outerNamesOf (es ++ more) = outerNamesOf es ++ outerNamesOf more := by
  rw [outerNamesOf, List.filter_append, List.map_append]
  rfl

/-- Of the exports, the first with each name stays, once among defaults and once among the
others. -/
theorem distinctExports_spec (es : List Export) :
    (distinctExports es).Sublist es ∧
      (∀ e ∈ es, ∃ k ∈ distinctExports es,
        k.isDefault = e.isDefault ∧ k.outerName = e.outerName) ∧
      (distinctExports es).Pairwise fun k e =>
        ¬ (k.isDefault = e.isDefault ∧ k.outerName = e.outerName) := by
  obtain ⟨kept, whole, part, covers, apart⟩ := foldl_keepFirst
    (fun k e : Export => k.isDefault == e.isDefault && k.outerName == e.outerName)
    (by simp) es [] .nil
  rw [List.nil_append] at whole covers apart
  have kept_eq : distinctExports es = kept := whole
  rw [kept_eq]
  refine ⟨part, fun e member => ?_, apart.imp fun {k e} different => by simpa using different⟩
  obtain ⟨k, inKept, alike⟩ := covers e member
  exact ⟨k, inKept, by simpa using alike⟩

/-- Leaving out repeated exports leaves out no name. -/
theorem mem_outerNamesOf_distinctExports {es : List Export} {name : String} :
    name ∈ outerNamesOf (distinctExports es) ↔ name ∈ outerNamesOf es := by
  obtain ⟨part, covers, -⟩ := distinctExports_spec es
  rw [mem_outerNamesOf, mem_outerNamesOf]
  constructor
  · rintro ⟨e, member, rest⟩
    exact ⟨e, part.subset member, rest⟩
  · rintro ⟨e, member, named, outer⟩
    obtain ⟨k, inKept, sameDefault, sameName⟩ := covers e member
    exact ⟨k, inKept, sameDefault.trans named, sameName.trans outer⟩

theorem isDefault_exportAs (e found : Export) : (exportAs e found).isDefault = e.isDefault := by
  unfold exportAs
  dsimp only
  split <;> rfl

/-- A reference is exported under the name it has in its module. -/
theorem outerName_exportAs {e : Export} (found : Export) (named : e.isDefault = false) :
    (exportAs e found).outerName = e.outerName := by
  unfold exportAs
  dsimp only
  rw [named, Bool.false_or]
  split
  · next same =>
    rw [beq_iff_eq] at same
    unfold Export.outerName at same ⊢
    cases renamed : e.newName with
    | none =>
      rw [renamed] at same
      exact same.symm
    | some new =>
      rw [renamed] at same
      dsimp only at same ⊢
      split
      · next default =>
        rw [if_pos default] at same
        exact same.symm
      · rfl
  · unfold Export.outerName
    cases e.newName with
    | none => rfl
    | some new =>
      dsimp only
      split <;> rfl

/-- Whatever an entry stands for, it is one export, which is the default if the entry is and has
the name of the entry if not. -/
theorem exists_fill_entry (d : Draft) (table : Option Table) (e : Export) :
    ∃ x, fill d table (.entry e) = [x] ∧ x.isDefault = e.isDefault ∧
      (e.isDefault = false → x.outerName = e.outerName) := by
  rw [fill]
  split
  · next target origin _ =>
    cases found? d target origin table with
    | none => exact ⟨e, rfl, rfl, fun _ => rfl⟩
    | some found => exact ⟨_, rfl, isDefault_exportAs e found, outerName_exportAs found⟩
  · exact ⟨e, rfl, rfl, fun _ => rfl⟩

/-- The names that a slot gives: its own, or those of the module it takes everything from. -/
theorem mem_outerNamesOf_fill {d : Draft} {table : Option Table} {slot : Slot} {name : String} :
    name ∈ outerNamesOf (fill d table slot) ↔
      match slot with
      | .entry e => e.isDefault = false ∧ e.outerName = name
      | .everything _ => ∃ t, table = some t ∧ name ∈ outerNamesOf t.exports := by
  cases slot with
  | everything specifier =>
    rw [fill]
    cases table with
    | none => simp [outerNamesOf]
    | some t => simp
  | entry e =>
    obtain ⟨x, whole, sameDefault, sameName⟩ := exists_fill_entry d table e
    rw [whole, mem_outerNamesOf]
    simp only [List.mem_singleton, exists_eq_left, sameDefault]
    exact and_congr_right fun named => by rw [sameName named]

end ModuleAtlas.Atlas
