import ModuleAtlas.Proofs.Draft
import ModuleAtlas.Proofs.Termination

/-!
# The names of a linked module

Linking puts a found declaration in the place of a reference, with another name inside, another
text, and perhaps from a default export. The names that importers see are not touched by it: they
are those of the draft, slot by slot, and where all exports of a module go, those of that module
(`outerNamesOf_filled`). Of a name that comes twice the first stays (`outerNamesOf_distinctExports`).
So the names of a linked module can be read off its draft and the modules it takes everything from,
without following a single reference (`link_names`).
-/

namespace ModuleAtlas.Atlas

open Draft (Slot Mode)
open Resolution (Location)
open Symbols

variable {t : Tree} {d : Draft}

/-! ## First occurrences -/

theorem outerNamesOf_singleton_default {e : Export} (isDefault : e.isDefault = true) :
    outerNamesOf [e] = [] := by
  simp [outerNamesOf, isDefault]

theorem outerNamesOf_singleton_named {e : Export} (named : e.isDefault = false) :
    outerNamesOf [e] = [e.outerName] := by
  simp [outerNamesOf, named]

/-- Whether two exports repeat each other. -/
def repeats (k e : Export) : Bool := k.isDefault == e.isDefault && k.outerName == e.outerName

/-- An export that is not the default repeats an earlier one exactly if its name was there. -/
theorem any_repeats {kept : List Export} {e : Export} (named : e.isDefault = false) :
    kept.any (repeats · e) = true ↔ e.outerName ∈ outerNamesOf kept := by
  rw [mem_outerNamesOf, List.any_eq_true]
  simp only [repeats, named, Bool.and_eq_true, beq_iff_eq]

theorem outerNamesOf_foldl_keepFirst (es kept : List Export) :
    outerNamesOf (es.foldl (keepFirst repeats) kept) =
      outerNamesOf kept ++
        ((outerNamesOf es).filter fun name => !(outerNamesOf kept).contains name).eraseDups := by
  induction es generalizing kept with
  | nil => simp [outerNamesOf]
  | cons e es ih =>
    rw [List.foldl_cons, ih, ← List.singleton_append, outerNamesOf_append]
    cases isDefault : e.isDefault with
    | true =>
      -- a default has no part in the names, kept or not
      have unchanged : outerNamesOf (keepFirst repeats kept e) = outerNamesOf kept := by
        rw [keepFirst]
        split
        · rfl
        · rw [outerNamesOf_append, outerNamesOf_singleton_default isDefault, List.append_nil]
      rw [unchanged, outerNamesOf_singleton_default isDefault, List.nil_append]
    | false =>
      rw [outerNamesOf_singleton_named isDefault, List.singleton_append]
      by_cases seen : e.outerName ∈ outerNamesOf kept
      · rw [keepFirst, if_pos ((any_repeats isDefault).mpr seen),
          List.filter_cons_of_neg (by simpa using seen)]
      · have new : ¬ kept.any (repeats · e) = true := mt (any_repeats isDefault).mp seen
        rw [keepFirst, if_neg new, List.filter_cons_of_pos (by simpa using seen),
          List.eraseDups_cons, List.filter_filter, outerNamesOf_append,
          outerNamesOf_singleton_named isDefault, List.append_assoc, List.singleton_append]
        congr 3
        refine List.filter_congr fun name _ => ?_
        rw [List.contains_append, List.contains_cons, List.contains_nil, Bool.or_false, Bool.not_or,
          Bool.and_comm]

/-- The names of the exports that stay are the names there were, each where it came first. -/
theorem outerNamesOf_distinctExports (es : List Export) :
    outerNamesOf (distinctExports es) = (outerNamesOf es).eraseDups := by
  have whole : distinctExports es = es.foldl (keepFirst repeats) [] := rfl
  rw [whole, outerNamesOf_foldl_keepFirst]
  simp [outerNamesOf]

/-! ## Slots -/

/-- The names that a slot gives, the default apart: its own, or those of the module that it takes
everything from, if there is one. -/
def namesGiven : Slot → Fetched → List String
  | .entry e, _ => if e.isDefault then [] else [e.outerName]
  | .everything _, f => (f.table.map fun table => table.nonDefault.map (·.outerName)).getD []

/-- Whether a slot gives a default export. -/
def givesDefault : Slot → Fetched → Bool
  | .entry e, _ => e.isDefault
  | .everything _, f => (f.table.bind (·.default?)).isSome

theorem isSome_default? (table : Table) :
    table.default?.isSome = table.exports.any (·.isDefault) :=
  Bool.eq_iff_iff.mpr (List.find?_isSome.trans List.any_eq_true.symm)

theorem outerNamesOf_fill (d : Draft) (slot : Slot) (f : Fetched) :
    outerNamesOf (fill d f.table slot) = namesGiven slot f := by
  cases slot with
  | everything specifier =>
    rw [fill, namesGiven]
    cases f.table <;> rfl
  | entry e =>
    obtain ⟨x, whole, sameDefault, sameName⟩ := exists_fill_entry d f.table e
    rw [whole, namesGiven]
    cases isDefault : e.isDefault with
    | true => exact outerNamesOf_singleton_default (sameDefault.trans isDefault)
    | false =>
      rw [outerNamesOf_singleton_named (sameDefault.trans isDefault), sameName isDefault]
      rfl

theorem any_isDefault_fill (d : Draft) (slot : Slot) (f : Fetched) :
    (fill d f.table slot).any (·.isDefault) = givesDefault slot f := by
  cases slot with
  | everything specifier =>
    rw [fill, givesDefault]
    cases f.table with
    | none => rfl
    | some table => exact (isSome_default? table).symm
  | entry e =>
    obtain ⟨x, whole, sameDefault, -⟩ := exists_fill_entry d f.table e
    rw [whole, List.any_cons, List.any_nil, Bool.or_false, sameDefault]
    rfl

/-- The names that slots give are those of each slot, in order. -/
theorem outerNamesOf_filled (d : Draft) (slots : List Slot) (fs : List Fetched) :
    outerNamesOf (filled d slots fs) = (List.zipWith namesGiven slots fs).flatten := by
  induction slots generalizing fs with
  | nil => rfl
  | cons slot rest ih =>
    cases fs with
    | nil => rfl
    | cons f fs =>
      rw [filled, outerNamesOf_append, outerNamesOf_fill, ih, List.zipWith_cons_cons,
        List.flatten_cons]

theorem any_isDefault_filled (d : Draft) (slots : List Slot) (fs : List Fetched) :
    (filled d slots fs).any (·.isDefault) = (slots.zip fs).any fun (slot, f) =>
      givesDefault slot f := by
  induction slots generalizing fs with
  | nil => rfl
  | cons slot rest ih =>
    cases fs with
    | nil => rfl
    | cons f fs => rw [filled, List.any_append, any_isDefault_fill, ih, List.zip_cons_cons,
        List.any_cons]

theorem any_isDefault_distinctExports (es : List Export) :
    (distinctExports es).any (·.isDefault) = es.any (·.isDefault) := by
  obtain ⟨part, covers, -⟩ := distinctExports_spec es
  rw [Bool.eq_iff_iff, List.any_eq_true, List.any_eq_true]
  constructor
  · rintro ⟨e, member, isDefault⟩
    exact ⟨e, part.subset member, isDefault⟩
  · rintro ⟨e, member, isDefault⟩
    obtain ⟨k, kept, sameDefault, -⟩ := covers e member
    exact ⟨k, kept, sameDefault.trans isDefault⟩

/-- Every slot has its answer. -/
theorem Answered.length_eq {σ : Type} {R : String → Mode → σ → Fetched → σ → Prop}
    {slots : List Slot} {s s' : σ} {fs : List Fetched} (h : Answered R d slots s fs s') :
    fs.length = slots.length := by
  induction h with
  | nil => rfl
  | silent _ _ ih => rw [List.length_cons, List.length_cons, ih]
  | asked _ _ _ ih => rw [List.length_cons, List.length_cons, ih]

/-- Slots give a default if one of the entries is one, or a module has one that everything is taken
from. -/
theorem any_givesDefault {slots : List Slot} {fs : List Fetched}
    (whole : fs.length = slots.length) :
    ((slots.zip fs).any fun (slot, f) => givesDefault slot f) = true ↔
      (∃ e ∈ slots.filterMap Slot.entry?, e.isDefault = true) ∨
      ∃ specifier f table, (.everything specifier, f) ∈ slots.zip fs ∧ f.table = some table ∧
        table.default?.isSome = true := by
  rw [List.any_eq_true]
  constructor
  · rintro ⟨⟨slot, f⟩, member, gives⟩
    cases slot with
    | entry e =>
      have isEntry : e ∈ slots.filterMap Slot.entry? :=
        List.mem_filterMap.mpr ⟨_, (List.of_mem_zip member).1, rfl⟩
      exact .inl ⟨e, isEntry, gives⟩
    | everything specifier =>
      obtain ⟨e, found⟩ := Option.isSome_iff_exists.mp gives
      obtain ⟨table, isTable, has⟩ := Option.bind_eq_some_iff.mp found
      exact .inr ⟨specifier, f, table, member, isTable, Option.isSome_iff_exists.mpr ⟨e, has⟩⟩
  · rintro (⟨e, member, isDefault⟩ | ⟨specifier, f, table, member, isTable, has⟩)
    · rw [← List.map_fst_zip (Nat.le_of_eq whole.symm), List.filterMap_map] at member
      obtain ⟨⟨slot, f⟩, inside, isEntry⟩ := List.mem_filterMap.mp member
      cases slot with
      | entry e' =>
        cases isEntry
        exact ⟨_, inside, isDefault⟩
      | everything specifier => cases isEntry
    · have gives : givesDefault (.everything specifier) f = true := by
        rw [givesDefault, isTable]
        exact has
      exact ⟨_, member, gives⟩

/-! ## Linking -/

theorem loadAnswer_of_fetch {fuel : Nat} {l : Location} {specifier : String} {mode : Mode}
    {s s' : Session} {f : Fetched} (h : (fetch t (load t fuel) l).Gives specifier mode s f s') :
    LoadAnswer t (Loads t) l specifier mode s f s' := by
  unfold Fetch.Gives fetch at h
  split at h
  · next atlas found =>
    cases h
    exact .inl ⟨atlas, found, rfl, rfl⟩
  · next target atlas found =>
    obtain ⟨⟨m, s₁⟩, loading, whole⟩ := Option.map_eq_some_iff.mp h
    cases whole
    exact .inr ⟨target, atlas, m, found, ⟨fuel, loading⟩, rfl⟩

/-- Linking ends, if the fuel is enough for all files. -/
theorem exists_link {s : Session} (kept : KeepsNormal s.atlas) (good : GoodStack t s.nesting.stack)
    (l : Location) (d : Draft) :
    ∃ m s', link (fetch t (load t (t.fileCount + 2)) l) l.path d s = some (m, s') := by
  have inOrder : InOrder t { session := s } := ⟨kept, good, fun _ member => nomatch member⟩
  have ends : ∀ l mode w, InOrder t w → l.path.IsNormal →
      w.session.nesting.stack.length = s.nesting.stack.length →
      ∃ m w', watch t (t.fileCount + 2) l mode w = some (m, w') :=
    fun l mode w inOrder normal _ => exists_watch inOrder (.inr normal) (Nat.le_add_right _ _)
  obtain ⟨fs, w, answered, -⟩ := exists_answered (exists_watchFetch _ ends l) d d.slots
    ⟨inOrder, rfl⟩
  have watched : link (watchFetch t (watch t (t.fileCount + 2)) l) l.path d { session := s } =
      some (linkedWith l.path d fs, w) := link_iff.mpr ⟨fs, answered, rfl⟩
  have unwatched := link_map (session_watchFetch (t := t) (session_watch t (t.fileCount + 2)) l)
    l.path d { session := s }
  rw [watched, Option.map_some] at unwatched
  exact ⟨_, _, unwatched.symm⟩

/-- The names of a linked module, the default apart, are the names of its entries and of the modules
that it takes everything from, in the order of its slots, each where it comes first. It has a
default export exactly if one of its entries is one or one of those modules has one. A module that
is not found, not loaded or cut has no table and gives no names. -/
theorem link_names (t : Tree) (l : Location) (d : Draft) (s : Session) :
    (∀ fuel m s', link (fetch t (load t fuel) l) l.path d s = some (m, s') →
      ∃ fs, Answered (LoadAnswer t (Loads t) l) d d.slots s fs s' ∧
        m.table.nonDefault.map (·.outerName) =
          (List.zipWith namesGiven d.slots fs).flatten.eraseDups ∧
        (m.table.default?.isSome = true ↔
          (∃ e ∈ d.entries, e.isDefault = true) ∨
          ∃ specifier f table, (.everything specifier, f) ∈ d.slots.zip fs ∧
            f.table = some table ∧ table.default?.isSome = true)) ∧
    (KeepsNormal s.atlas → GoodStack t s.nesting.stack →
      ∃ m s', link (fetch t (load t (t.fileCount + 2)) l) l.path d s = some (m, s')) := by
  refine ⟨fun fuel m s' linked => ?_, fun kept good => exists_link kept good l d⟩
  obtain ⟨fs, answered, rfl⟩ := link_iff.mp linked
  refine ⟨fs, answered.mono loadAnswer_of_fetch, ?_, ?_⟩
  · calc outerNamesOf (distinctExports (filled d d.slots fs))
      _ = (outerNamesOf (filled d d.slots fs)).eraseDups := outerNamesOf_distinctExports _
      _ = (List.zipWith namesGiven d.slots fs).flatten.eraseDups := by rw [outerNamesOf_filled]
  · have inTable : (linkedWith l.path d fs).table.default?.isSome =
        (d.slots.zip fs).any fun (slot, f) => givesDefault slot f := by
      rw [isSome_default?, ← any_isDefault_filled d]
      exact any_isDefault_distinctExports _
    rw [inTable]
    exact any_givesDefault answered.length_eq

/-- A module that takes everything from another, has one of its names under a second name and as the
default, and declares the name itself as well. -/
def mixedTree : Tree :=
  (({} : Tree).write ⟨"/p/a.ts"⟩ (.text
      "export * from './b'; export \x7b b as c, b as default \x7d from './b'; export let b;")).write
    ⟨"/p/b.ts"⟩ (.text "export let b;")

/-- What that module says by itself. -/
def mixedDraft : Draft := (Draft.ofTree? mixedTree ⟨"/p/a.ts"⟩).getD {}

/-- The state in which that module begins to be linked. -/
def mixedStart : Session :=
  { atlas := { project := sample }, nesting := { stack := [⟨"/p/a.ts"⟩] } }

theorem link_names_mixed :
    Draft.ofTree? mixedTree ⟨"/p/a.ts"⟩ = some mixedDraft ∧
    ∃ m s' fs, link (fetch mixedTree (load mixedTree 4) ⟨⟨"/p/a.ts"⟩, none⟩) ⟨"/p/a.ts"⟩ mixedDraft
        mixedStart = some (m, s') ∧
      Answered (LoadAnswer mixedTree (Loads mixedTree) ⟨⟨"/p/a.ts"⟩, none⟩) mixedDraft
        mixedDraft.slots mixedStart fs s' ∧
      (List.zipWith namesGiven mixedDraft.slots fs).flatten.eraseDups = ["b", "c"] ∧
      m.table.default?.isSome = true := by
  have kept : KeepsNormal mixedStart.atlas := ⟨by decide, fun _ member => nomatch member⟩
  have good : GoodStack mixedTree mixedStart.nesting.stack :=
    ⟨List.pairwise_singleton _ _, by decide +kernel, fun _ member => nomatch member⟩
  have files : mixedTree.fileCount + 2 = 4 := by decide +kernel
  -- evaluated together, so that the file is read once
  have evaluated : (Draft.ofTree? mixedTree ⟨"/p/a.ts"⟩).isSome = true ∧
      (∃ e ∈ mixedDraft.entries, e.isDefault = true) ∧
      (link (fetch mixedTree (load mixedTree 4) ⟨⟨"/p/a.ts"⟩, none⟩) ⟨"/p/a.ts"⟩ mixedDraft
        mixedStart).map (·.1.table.nonDefault.map (·.outerName)) = some ["b", "c"] := by
    decide +kernel
  obtain ⟨drafted, entry, outer⟩ := evaluated
  have isDraft : Draft.ofTree? mixedTree ⟨"/p/a.ts"⟩ = some mixedDraft := by
    obtain ⟨d, isDraft⟩ := Option.isSome_iff_exists.mp drafted
    rw [mixedDraft, isDraft, Option.getD_some]
  obtain ⟨names, ends⟩ := link_names mixedTree ⟨⟨"/p/a.ts"⟩, none⟩ mixedDraft mixedStart
  obtain ⟨m, s', linked⟩ := ends kept good
  rw [files] at linked
  obtain ⟨fs, answered, given, isDefault⟩ := names 4 m s' linked
  rw [linked, Option.map_some, given] at outer
  exact ⟨isDraft, m, s', fs, linked, answered, Option.some.inj outer, isDefault.mpr (.inl entry)⟩

end ModuleAtlas.Atlas
