import ModuleAtlas.Proofs.Settled

/-!
# Locations are files

Resolving a specifier sets what is kept for the question to the answer and leaves what is kept for
other questions (`find?_resolve`), and every answer is a file of the tree it is asked on
(`resolve_isFile`), also where it was kept from another tree. For each question at most one location
is kept (`OneEach`); so after every run of an atlas, whatever has become of the files meanwhile, it
answers with files, and keeps for a question its last answer and nothing else
(`resolve_answers_files`).
-/

namespace ModuleAtlas.Atlas

open Draft (Mode)
open Resolution (Location)

/-! ## Questions -/

namespace LocationCache

theorem find?_congr {k k' : LocationKey} (same : k.same k' = true) (c : LocationCache) :
    c.find? k = c.find? k' := by
  rw [find?_eq, Keyed.find?_congr same, find?_eq]

theorem find?_get (c : LocationCache) (k k' : LocationKey) : (c.get k).2.find? k' = c.find? k' := by
  unfold get
  split <;> rfl

theorem find?_remove (c : LocationCache) (k k' : LocationKey) :
    (c.remove k).find? k' = if k.same k' = true then none else c.find? k' := by
  have dropped : LocationKey.keyed.find? (c.remove k).entries k' =
      if k.same k' = true then none else LocationKey.keyed.find? c.entries k' :=
    Keyed.find?_drop c.entries k k'
  rw [find?_eq, find?_eq, dropped]
  split <;> rfl

theorem find?_insert (c : LocationCache) (k k' : LocationKey) (l : Location) :
    (c.insert k l).find? k' = if k.same k' = true then some l else c.find? k' := by
  have put : LocationKey.keyed.find? (c.insert k l).entries k' =
      if k.same k' = true then
        some (((LocationKey.keyed.find? c.entries k).map fun e => (e.1, l)).getD (k, l))
      else LocationKey.keyed.find? c.entries k' := by
    rw [entries_insert, Keyed.find?_put]
    · rfl
    · exact fun _ => rfl
    · rfl
  rw [find?_eq, find?_eq, put]
  split
  · cases LocationKey.keyed.find? c.entries k <;> rfl
  · rfl

end LocationCache

/-! ## Resolving -/

section Resolve

variable {t : Tree} {specifier : String} {file : Path} {context : Option Path}
  {atlas atlas' : Atlas} {r : Option Location}

/-- What is kept after a kept location was asked for: that of the question only if it served. -/
theorem find?_keptLocation {k : LocationKey} (h : atlas.keptLocation t k = (r, atlas'))
    (k' : LocationKey) :
    atlas'.locations.find? k' = if k.same k' = true then r else atlas.locations.find? k' := by
  have counted : ∀ served kept, atlas.locations.get k = (served, kept) →
      served = atlas.locations.find? k ∧ kept.find? k' = atlas.locations.find? k' := by
    intro served kept got
    refine ⟨?_, ?_⟩
    · unfold LocationCache.get at got
      split at got <;> cases got <;> simp [*]
    · rw [← LocationCache.find?_get atlas.locations k k', got]
  have here : k.same k' = true → atlas.locations.find? k' = atlas.locations.find? k :=
    fun same => (LocationCache.find?_congr same atlas.locations).symm
  unfold keptLocation at h
  split at h
  · next kept got =>
    obtain ⟨absent, unchanged⟩ := counted _ _ got
    cases h
    dsimp only
    rw [unchanged]
    split
    · next same => rw [here same, ← absent]
    · rfl
  · next l kept got =>
    obtain ⟨present, unchanged⟩ := counted _ _ got
    split at h
    · cases h
      dsimp only
      rw [unchanged]
      split
      · next same => rw [here same, ← present]
      · rfl
    · cases h
      dsimp only
      rw [LocationCache.find?_remove, unchanged]

/-- Resolving keeps its answer for the question, and leaves what is kept for others. -/
theorem find?_resolve (h : atlas.resolve t specifier file context = (r, atlas'))
    (k : LocationKey) :
    atlas'.locations.find? k =
      if (⟨specifier, file, context⟩ : LocationKey).same k = true then r
      else atlas.locations.find? k := by
  unfold resolve at h
  dsimp only at h
  cases kept : atlas.keptLocation t ⟨specifier, file, context⟩ with
  | mk served atlas₁ =>
    have after := find?_keptLocation kept k
    rw [kept] at h
    cases served with
    | some l =>
      cases h
      exact after
    | none =>
      dsimp only at h
      rw [getAliases_eq] at h
      dsimp only at h
      split at h
      · cases h
        dsimp only
        rw [LocationCache.find?_insert, after]
        split <;> rfl
      · cases h
        exact after

/-- Every answer is a file of the tree, whatever tree it was found in. -/
theorem resolve_isFile {l : Location}
    (h : atlas.resolve t specifier file context = (some l, atlas')) : t.isFile l.path = true := by
  obtain ⟨-, -, outcome⟩ := resolve_cases h
  rcases outcome with ⟨k, l', -, -, isFile, served, -, -⟩ | ⟨-, found, -⟩
  · cases served
    exact isFile
  · exact Resolution.resolve_isFile found

/-! ## One location for each question -/

/-- No two locations are kept for one question. -/
def OneEach (atlas : Atlas) : Prop :=
  ∀ e ∈ atlas.locations.entries, ∀ e' ∈ atlas.locations.entries, e.1.same e'.1 = true → e.2 = e'.2

theorem OneEach.mem_keptLocation {k : LocationKey} (one : OneEach atlas)
    (h : atlas.keptLocation t k = (r, atlas')) {e : LocationKey × Location}
    (member : e ∈ atlas'.locations.entries) :
    e ∈ atlas.locations.entries ∧ (e.1.same k = true → r = some e.2) := by
  unfold keptLocation LocationCache.get at h
  cases found : atlas.locations.find? k with
  | none =>
    rw [found] at h
    cases h
    refine ⟨member, fun same => ?_⟩
    rw [LocationCache.find?, Option.map_eq_none_iff, List.find?_eq_none] at found
    exact absurd same (found e member)
  | some l =>
    rw [found] at h
    dsimp only at h
    split at h
    · cases h
      refine ⟨member, fun same => ?_⟩
      obtain ⟨k', kept, same'⟩ := LocationCache.mem_of_find? found
      rw [one e member (k', l) kept (LocationKey.same_trans same (LocationKey.same_symm same'))]
    · cases h
      obtain ⟨member, other⟩ := List.mem_filter.mp member
      refine ⟨member, fun same => ?_⟩
      rw [same] at other
      cases other

/-- After resolving, what is kept for the question is the answer. -/
theorem OneEach.mem_resolve (one : OneEach atlas)
    (h : atlas.resolve t specifier file context = (r, atlas')) {e : LocationKey × Location}
    (member : e ∈ atlas'.locations.entries) :
    (e.1.same ⟨specifier, file, context⟩ = true ∧ r = some e.2) ∨
      (e.1.same ⟨specifier, file, context⟩ = false ∧ e ∈ atlas.locations.entries) := by
  unfold resolve at h
  dsimp only at h
  cases kept : atlas.keptLocation t ⟨specifier, file, context⟩ with
  | mk served atlas₁ =>
    have before : e ∈ atlas₁.locations.entries → (e.1.same ⟨specifier, file, context⟩ = true ∧
        served = some e.2) ∨ (e.1.same ⟨specifier, file, context⟩ = false ∧
          e ∈ atlas.locations.entries) := by
      intro member
      obtain ⟨member, same⟩ := one.mem_keptLocation kept member
      cases isSame : e.1.same ⟨specifier, file, context⟩ with
      | true => exact .inl ⟨rfl, same isSame⟩
      | false => exact .inr ⟨rfl, member⟩
    rw [kept] at h
    cases served with
    | some l =>
      cases h
      exact before member
    | none =>
      dsimp only at h
      rw [getAliases_eq] at h
      dsimp only at h
      split at h
      · cases h
        rcases LocationCache.mem_insert member with ⟨member, other⟩ | ⟨same, rfl⟩
        · rcases before member with ⟨same, -⟩ | outside
          · rw [same] at other
            cases other
          · exact .inr outside
        · exact .inl ⟨same, rfl⟩
      · cases h
        exact before member

theorem OneEach.resolve (one : OneEach atlas)
    (h : atlas.resolve t specifier file context = (r, atlas')) : OneEach atlas' := by
  intro e member e' member' same
  rcases one.mem_resolve h member with ⟨asked, answer⟩ | ⟨other, kept⟩
  · rcases one.mem_resolve h member' with ⟨-, answer'⟩ | ⟨other, -⟩
    · exact Option.some.inj (answer.symm.trans answer')
    · rw [LocationKey.same_trans (LocationKey.same_symm same) asked] at other
      cases other
  · rcases one.mem_resolve h member' with ⟨asked, -⟩ | ⟨-, kept'⟩
    · rw [LocationKey.same_trans same asked] at other
      cases other
    · exact one e kept e' kept' same

end Resolve

theorem OneEach.perform {atlas : Atlas} (one : OneEach atlas) (t : Tree) (operation : Operation) :
    OneEach (perform t operation atlas).2 := by
  refine perform_keeps (fun found one => one.resolve found) ?_ ?_ operation atlas one
  · exact fun loads one => loads.keeps (fun _ one => one) (fun found one => one.resolve found) one
  · exact fun forgets one e member e' member' => one e (forgets.locations member) e'
      (forgets.locations member')

theorem oneEach_run (project : Project) (steps : List (Tree × Operation)) :
    OneEach (run project steps) :=
  run_keeps (fun _ member => nomatch member) fun step _ _ one => one.perform step.1 step.2

/-- Whatever an atlas was asked before, and on whatever trees: what it resolves a specifier to is a
file of the tree it is asked on, and then it keeps for the question this location and no other. If
it finds none, it keeps none for the question. -/
theorem resolve_answers_files (project : Project) (steps : List (Tree × Operation)) (t : Tree)
    (specifier : String) (file : Path) (context : Option Path) :
    (∀ l, ((run project steps).resolve t specifier file context).1 = some l →
      t.isFile l.path = true) ∧
    ((run project steps).resolve t specifier file context).2.locations.find?
      ⟨specifier, file, context⟩ = ((run project steps).resolve t specifier file context).1 ∧
    ∀ e ∈ ((run project steps).resolve t specifier file context).2.locations.entries,
      e.1.same ⟨specifier, file, context⟩ = true →
        ((run project steps).resolve t specifier file context).1 = some e.2 := by
  cases h : (run project steps).resolve t specifier file context with
  | mk r atlas =>
    refine ⟨?_, ?_, fun e member same => ?_⟩
    · rintro l rfl
      exact resolve_isFile h
    · have kept := find?_resolve h ⟨specifier, file, context⟩
      rwa [if_pos (LocationKey.same_refl _)] at kept
    · rcases (oneEach_run project steps).mem_resolve h member with ⟨-, answer⟩ | ⟨other, -⟩
      · exact answer
      · rw [same] at other
        cases other

end ModuleAtlas.Atlas
