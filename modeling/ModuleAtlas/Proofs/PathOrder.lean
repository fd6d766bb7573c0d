import ModuleAtlas.Proofs.Path

/-!
# The order of texts and paths

An order sorts if of two different elements one comes before the other, and not both (`Sorts`).
Texts and lists of components are both ordered by their first difference. `byFirstDifference` is
that order over any elements; it sorts when the order of the elements does. So texts are sorted
(`Text.sorts_before`), and of two paths one comes first unless they are the same
(`Path.before_total`).
-/

namespace ModuleAtlas

/-- An order in which of two different elements one comes before the other, and not both. -/
structure Sorts {α : Type} (before : α → α → Bool) : Prop where
  irrefl : ∀ a, before a a = false
  trans : ∀ {a b c}, before a b = true → before b c = true → before a c = true
  total : ∀ {a b}, a ≠ b → before a b = true ∨ before b a = true

namespace Sorts

variable {α : Type} {before : α → α → Bool}

theorem asymm (h : Sorts before) {a b : α} (forth : before a b = true) : before b a = false := by
  refine Bool.eq_false_iff.mpr fun back => ?_
  have circle := h.trans forth back
  rw [h.irrefl] at circle
  cases circle

/-- Not coming after is the order by which lists are sorted. -/
theorem not_before_trans (h : Sorts before) {a b c : α} (left : before b a = false)
    (right : before c b = false) : before c a = false := by
  refine Bool.eq_false_iff.mpr fun back => ?_
  by_cases same : a = b
  · rw [← same, back] at right
    cases right
  · rcases h.total same with forth | forth
    · rw [h.trans back forth] at right
      cases right
    · rw [forth] at left
      cases left

/-- Sorting by a key puts nothing behind what comes after it. -/
theorem pairwise_mergeSort (h : Sorts before) {β : Type} (key : β → α) (l : List β) :
    (l.mergeSort fun x y => !before (key y) (key x)).Pairwise
      fun x y => before (key y) (key x) = false := by
  have sorted : (l.mergeSort fun x y => !before (key y) (key x)).Pairwise
      fun x y => (!before (key y) (key x)) = true := by
    refine List.pairwise_mergeSort (fun x y z left right => ?_) (fun x y => ?_) l
    · rw [Bool.not_eq_true'] at left right ⊢
      exact h.not_before_trans left right
    · cases back : before (key y) (key x) with
      | false => rfl
      | true => rw [h.asymm back]; rfl
  exact sorted.imp fun h => by rwa [Bool.not_eq_true'] at h

/-- What is found in a sorted list comes before all else that could be. -/
theorem find?_first (h : Sorts before) {l : List α}
    (sorted : l.Pairwise fun a b => before b a = false) {p : α → Bool} {a : α}
    (found : l.find? p = some a) {b : α} (member : b ∈ l) (fits : p b = true) :
    b = a ∨ before a b = true := by
  obtain ⟨-, front, back, rfl, passed⟩ := List.find?_eq_some_iff_append.mp found
  rcases List.mem_append.mp member with earlier | later
  · have misses := passed b earlier
    rw [fits] at misses
    cases misses
  · rcases List.mem_cons.mp later with same | later
    · exact .inl same
    · have order := (List.pairwise_cons.mp (List.pairwise_append.mp sorted).2.1).1 b later
      by_cases same : b = a
      · exact .inl same
      · exact .inr ((h.total same).resolve_left (by simp [order]))

end Sorts

/-- Lists ordered by their first difference, a part before the whole. -/
def byFirstDifference {α : Type} [DecidableEq α] (before : α → α → Bool) :
    List α → List α → Bool
  | _, [] => false
  | [], _ :: _ => true
  | a :: as, b :: bs => if a = b then byFirstDifference before as bs else before a b

section FirstDifference

variable {α : Type} [DecidableEq α] {before : α → α → Bool}

theorem byFirstDifference_irrefl (as : List α) : byFirstDifference before as as = false := by
  induction as with
  | nil => rfl
  | cons a as ih => simp [byFirstDifference, ih]

theorem byFirstDifference_trans (h : Sorts before) {as bs cs : List α}
    (left : byFirstDifference before as bs = true)
    (right : byFirstDifference before bs cs = true) : byFirstDifference before as cs = true := by
  induction as generalizing bs cs with
  | nil =>
    cases bs with
    | nil => cases left
    | cons b bs =>
      cases cs with
      | nil => cases right
      | cons c cs => rfl
  | cons a as ih =>
    cases bs with
    | nil => cases left
    | cons b bs =>
      cases cs with
      | nil => cases right
      | cons c cs =>
        rw [byFirstDifference] at left right ⊢
        by_cases ab : a = b
        · subst ab
          by_cases ac : a = c
          · rw [if_pos ac] at right ⊢
            rw [if_pos rfl] at left
            exact ih left right
          · rwa [if_neg ac] at right ⊢
        · rw [if_neg ab] at left
          by_cases bc : b = c
          · subst bc
            rwa [if_neg ab]
          · rw [if_neg bc] at right
            have through := h.trans left right
            have ac : a ≠ c := by
              rintro rfl
              rw [h.irrefl] at through
              cases through
            rwa [if_neg ac]

theorem byFirstDifference_total (h : Sorts before) {as bs : List α} (different : as ≠ bs) :
    byFirstDifference before as bs = true ∨ byFirstDifference before bs as = true := by
  induction as generalizing bs with
  | nil =>
    cases bs with
    | nil => exact absurd rfl different
    | cons b bs => exact .inl rfl
  | cons a as ih =>
    cases bs with
    | nil => exact .inr rfl
    | cons b bs =>
      rw [byFirstDifference, byFirstDifference]
      by_cases ab : a = b
      · subst ab
        rw [if_pos rfl, if_pos rfl]
        exact ih fun h => different (by rw [h])
      · rw [if_neg ab, if_neg (Ne.symm ab)]
        exact h.total ab

/-- Lists are sorted by their first difference where their elements are sorted. -/
theorem Sorts.byFirstDifference (h : Sorts before) : Sorts (byFirstDifference before) :=
  ⟨byFirstDifference_irrefl, byFirstDifference_trans h, byFirstDifference_total h⟩

/-- A part comes before the whole. -/
theorem byFirstDifference_of_part {as bs : List α} (part : as <+: bs) (proper : as ≠ bs) :
    byFirstDifference before as bs = true := by
  induction as generalizing bs with
  | nil =>
    cases bs with
    | nil => exact absurd rfl proper
    | cons b bs => rfl
  | cons a as ih =>
    cases bs with
    | nil => exact absurd part (by simp)
    | cons b bs =>
      obtain ⟨rfl, rest⟩ := List.cons_prefix_cons.mp part
      rw [byFirstDifference, if_pos rfl]
      exact ih rest fun h => proper (by rw [h])

end FirstDifference

namespace Text

theorem charsBefore_eq (as bs : List Char) :
    charsBefore as bs = byFirstDifference (fun a b => decide (a.toNat < b.toNat)) as bs := by
  induction as generalizing bs with
  | nil => cases bs <;> rfl
  | cons a as ih =>
    cases bs with
    | nil => rfl
    | cons b bs => rw [charsBefore, byFirstDifference, ih]

theorem sorts_chars : Sorts fun a b : Char => decide (a.toNat < b.toNat) where
  irrefl := by simp
  trans := by
    intro a b c left right
    rw [decide_eq_true_eq] at left right ⊢
    omega
  total := by
    intro a b different
    rw [decide_eq_true_eq, decide_eq_true_eq]
    have codes : a.toNat ≠ b.toNat := fun h => different (Char.toNat_inj.mp h)
    omega

theorem sorts_before : Sorts before where
  irrefl a := by
    rw [before, charsBefore_eq]
    exact sorts_chars.byFirstDifference.irrefl _
  trans left right := by
    rw [before, charsBefore_eq] at left right ⊢
    exact sorts_chars.byFirstDifference.trans left right
  total different := by
    rw [before, before, charsBefore_eq, charsBefore_eq]
    exact sorts_chars.byFirstDifference.total fun h => different (String.toList_inj.mp h)

/-- A text comes before all others that it starts. -/
theorem before_of_starts {a b : String} (part : a.toList <+: b.toList) (different : a ≠ b) :
    before a b = true := by
  rw [before, charsBefore_eq]
  exact byFirstDifference_of_part part fun h => different (String.toList_inj.mp h)

end Text

theorem Component.sorts_before : Sorts Component.before where
  irrefl a := by
    cases a with
    | name s => exact Text.sorts_before.irrefl s
    | _ => rfl
  trans := by
    intro a b c left right
    cases a <;> cases b <;> cases c <;> try simp_all [Component.before, Component.rank]
    exact Text.sorts_before.trans left right
  total := by
    intro a b different
    cases a with
    | name s =>
      cases b with
      | name u => exact Text.sorts_before.total fun h => different (by rw [h])
      | _ => simp [Component.before, Component.rank]
    | _ => cases b <;> simp_all [Component.before, Component.rank]

namespace Path

theorem componentsBefore_eq (as bs : List Component) :
    componentsBefore as bs = byFirstDifference Component.before as bs := by
  induction as generalizing bs with
  | nil => cases bs <;> rfl
  | cons a as ih =>
    cases bs with
    | nil => rfl
    | cons b bs => rw [componentsBefore, byFirstDifference, ih]

theorem sorts_componentsBefore : Sorts componentsBefore := by
  have same : componentsBefore = byFirstDifference Component.before :=
    funext fun as => funext (componentsBefore_eq as)
  rw [same]
  exact Component.sorts_before.byFirstDifference

/-- Of two paths one comes first, unless they are the same. -/
theorem before_total {p q : Path} (different : p.same q = false) :
    p.before q = true ∨ q.before p = true := by
  refine sorts_componentsBefore.total fun h => ?_
  rw [same_iff.mpr h] at different
  cases different

theorem not_same_of_before {p q : Path} (h : p.before q = true) : p.same q = false := by
  refine Bool.eq_false_iff.mpr fun same => ?_
  rw [before, same_iff.mp same, sorts_componentsBefore.irrefl] at h
  cases h

end Path

end ModuleAtlas
