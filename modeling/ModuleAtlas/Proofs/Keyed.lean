/-!
# Lists with keys

What is kept is kept in lists: an entry is found by its key, and keys count as one when they are
spelled alike, which for paths is less than being equal. Keeping something for a key renews the
entries that are there for it, or else adds one at the end (`Keyed.put`). So it is found under this
key, and under other keys is found what was found before (`Keyed.find?_put`); and dropping the
entries of a key drops no others (`Keyed.find?_drop`).
-/

namespace ModuleAtlas

/-- What a filter passes is found as in the whole list. -/
theorem find?_filter_of_imp {α : Type} {keep key : α → Bool}
    (h : ∀ a, key a = true → keep a = true) (as : List α) :
    (as.filter keep).find? key = as.find? key := by
  rw [List.find?_filter]
  congr 1
  funext a
  cases found : key a with
  | false => simp
  | true => simp [h a found]

/-- The keys of entries, and when two keys are the same. -/
structure Keyed (α κ : Type) where
  key : α → κ
  same : κ → κ → Bool
  refl : ∀ k, same k k = true
  symm : ∀ {k l}, same k l = true → same l k = true
  trans : ∀ {j k l}, same j k = true → same k l = true → same j l = true

namespace Keyed

variable {α κ : Type} (keyed : Keyed α κ)

/-- Whether an entry is one for a key. -/
def isFor (k : κ) (a : α) : Bool := keyed.same (keyed.key a) k

/-- The first entry for a key. -/
def find? (as : List α) (k : κ) : Option α := as.find? (keyed.isFor k)

/-- Renews the entries for a key, or adds one when there is none. -/
def put (as : List α) (k : κ) (renew : α → α) (new : α) : List α :=
  if (keyed.find? as k).isSome then as.map fun a => if keyed.isFor k a then renew a else a
  else as ++ [new]

variable {keyed} {as : List α} {a new : α} {k l : κ} {renew : α → α}

theorem isFor_congr (same : keyed.same k l = true) : keyed.isFor k = keyed.isFor l := by
  funext a
  rw [Bool.eq_iff_iff]
  exact ⟨fun isFor => keyed.trans isFor same, fun isFor => keyed.trans isFor (keyed.symm same)⟩

theorem find?_congr (same : keyed.same k l = true) (as : List α) :
    keyed.find? as k = keyed.find? as l := by
  rw [find?, isFor_congr same, find?]

theorem same_of_isFor (left : keyed.isFor k a = true) (right : keyed.isFor l a = true) :
    keyed.same k l = true :=
  keyed.trans (keyed.symm left) right

/-- Dropping the entries of a key drops no others. -/
theorem find?_drop (as : List α) (k l : κ) :
    keyed.find? (as.filter fun a => !keyed.isFor k a) l =
      if keyed.same k l = true then none else keyed.find? as l := by
  split
  · next same =>
    rw [find?, List.find?_eq_none]
    intro a member isFor
    have dropped := (List.mem_filter.mp member).2
    rw [isFor_congr same, isFor] at dropped
    cases dropped
  · next different =>
    refine find?_filter_of_imp (fun a found => ?_) as
    rw [Bool.not_eq_true', ← Bool.not_eq_true]
    exact fun isFor => different (same_of_isFor isFor found)

/-- What is put for a key is found under it, and under other keys what was found before. -/
theorem find?_put (renewed : ∀ a, keyed.key (renew a) = keyed.key a) (added : keyed.key new = k)
    (as : List α) (l : κ) :
    keyed.find? (keyed.put as k renew new) l =
      if keyed.same k l = true then some (((keyed.find? as k).map renew).getD new)
      else keyed.find? as l := by
  rw [put]
  split
  · next present =>
    -- Every entry keeps its key, so the same entry is found, renewed or not.
    have keys : keyed.isFor l ∘ (fun a => if keyed.isFor k a then renew a else a) =
        keyed.isFor l := by
      funext a
      rw [Function.comp_apply]
      split
      · rw [isFor, renewed, isFor]
      · rfl
    rw [find?, List.find?_map, keys, ← find?]
    split
    · next same =>
      obtain ⟨a, found⟩ := Option.isSome_iff_exists.mp present
      have isFor := List.find?_some found
      rw [← find?_congr same, found, Option.map_some, if_pos isFor, Option.map_some,
        Option.getD_some]
    · next different =>
      cases found : keyed.find? as l with
      | none => rfl
      | some a =>
        have isFor := List.find?_some found
        have other : ¬ keyed.isFor k a = true := fun own => different (same_of_isFor own isFor)
        rw [Option.map_some, if_neg other]
  · next absent =>
    rw [Bool.not_eq_true, Option.isSome_eq_false_iff, Option.isNone_iff_eq_none] at absent
    have isNew : keyed.isFor l new = keyed.same k l := by rw [isFor, added]
    rw [find?, List.find?_append, List.find?_singleton, isNew, ← find?, absent]
    split
    · next same =>
      rw [← find?_congr same, absent, Option.none_or, Option.map_none, Option.getD_none]
    · rw [Option.or_none]

/-- What is there after something was put for a key: entries of other keys that were there, and for
the key what was put. -/
theorem mem_put (member : a ∈ keyed.put as k renew new)
    (renewed : ∀ a, keyed.key (renew a) = keyed.key a) (added : keyed.key new = k) :
    (a ∈ as ∧ keyed.isFor k a = false) ∨
      (keyed.isFor k a = true ∧ (a = new ∨ ∃ old ∈ as, a = renew old)) := by
  rw [put] at member
  split at member
  · obtain ⟨old, kept, isEntry⟩ := List.mem_map.mp member
    split at isEntry
    · next isFor =>
      refine .inr ⟨?_, .inr ⟨old, kept, isEntry.symm⟩⟩
      rw [← isEntry, Keyed.isFor, renewed]
      exact isFor
    · next other => exact .inl ⟨isEntry ▸ kept, by rw [← isEntry]; simpa using other⟩
  · next absent =>
    rcases List.mem_append.mp member with kept | isNew
    · rw [Bool.not_eq_true, Option.isSome_eq_false_iff, Option.isNone_iff_eq_none, find?,
        List.find?_eq_none] at absent
      exact .inl ⟨kept, by simpa using absent a kept⟩
    · rw [List.mem_singleton] at isNew
      refine .inr ⟨?_, .inl isNew⟩
      rw [isNew, isFor, added]
      exact keyed.refl k

end Keyed

end ModuleAtlas
