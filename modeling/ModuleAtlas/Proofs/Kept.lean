import ModuleAtlas.Atlas.Basic
import ModuleAtlas.Proofs.Keyed
import ModuleAtlas.Proofs.Link

/-!
# What is kept

The entries that the caches hold after each of their operations, and what `Atlas.resolve` may do to
an atlas. Nothing is kept but what was kept before and what was just found (`TableCache.mem_insert`,
`LocationCache.mem_insert`, `resolve_cases`), and dropping a path leaves no table for the path nor
one that was linked against it (`TableCache.mem_invalidate`).
-/

namespace ModuleAtlas.Atlas

open Draft (Mode)
open Resolution (Aliases Finds Location sameContext)

/-! ## Tables -/

theorem KeptTable.isFor_iff {e : KeptTable} {p : Path} {mode : Mode} :
    e.isFor p mode = true ↔ e.path.same p = true ∧ e.mode = mode := by
  rw [KeptTable.isFor, Bool.and_eq_true, beq_iff_eq]

/-- Tables are kept by path and mode. -/
def KeptTable.keyed : Keyed KeptTable (Path × Mode) where
  key e := (e.path, e.mode)
  same k l := k.1.same l.1 && k.2 == l.2
  refl k := by rw [Path.same_refl, beq_self_eq_true]; rfl
  symm := by
    intro k l same
    rw [Bool.and_eq_true, beq_iff_eq] at same ⊢
    exact ⟨Path.same_symm same.1, same.2.symm⟩
  trans := by
    intro j k l left right
    rw [Bool.and_eq_true, beq_iff_eq] at left right ⊢
    exact ⟨Path.same_trans left.1 right.1, left.2.trans right.2⟩

namespace TableCache

variable {c c' : TableCache} {e : KeptTable} {p : Path} {mode : Mode} {content : String}
  {m : Linked}

/-- A table that serves was kept for the path, the mode and the content. -/
theorem get_hit (h : c.get p mode content = (some m, c')) :
    c'.entries = c.entries ∧
      ∃ e ∈ c.entries, e.path.same p = true ∧ e.mode = mode ∧ e.content = content ∧
        e.module = m := by
  unfold get at h
  split at h
  · next e found =>
    split at h
    · next content =>
      cases h
      have isFor := List.find?_some found
      obtain ⟨same, modes⟩ := KeptTable.isFor_iff.mp isFor
      exact ⟨rfl, e, List.mem_of_find?_eq_some found, same, modes, content, rfl⟩
    · cases h
  · cases h

/-- After a miss nothing is kept for the path and the mode. -/
theorem get_miss (h : c.get p mode content = (none, c')) (member : e ∈ c'.entries) :
    e ∈ c.entries ∧ e.isFor p mode = false := by
  unfold get at h
  split at h
  · split at h
    · cases h
    · cases h
      obtain ⟨member, other⟩ := List.mem_filter.mp member
      exact ⟨member, by rwa [Bool.not_eq_true'] at other⟩
  · next absent =>
    cases h
    exact ⟨member, by simpa using List.find?_eq_none.mp absent e member⟩

theorem mem_of_get {r : Option Linked} (h : c.get p mode content = (r, c'))
    (member : e ∈ c'.entries) : e ∈ c.entries := by
  cases r with
  | some m => rwa [(get_hit h).1] at member
  | none => exact (get_miss h member).1

theorem entries_insert (c : TableCache) (p : Path) (mode : Mode) (content : String) (m : Linked) :
    (c.insert p mode content m).entries =
      KeptTable.keyed.put c.entries (p, mode) (fun e => { e with content, module := m })
        ⟨p, mode, content, m⟩ :=
  apply_ite entries _ _ _

/-- Keeping a module replaces what was kept for its path and mode, and nothing else. The entry may
keep an earlier spelling of the path. -/
theorem mem_insert (member : e ∈ (c.insert p mode content m).entries) :
    (e ∈ c.entries ∧ e.isFor p mode = false) ∨
      (e.isFor p mode = true ∧ e.content = content ∧ e.module = m ∧
        (e.path = p ∨ ∃ old ∈ c.entries, e.path = old.path)) := by
  rw [entries_insert] at member
  rcases Keyed.mem_put member (fun _ => rfl) rfl with kept | ⟨isFor, isNew | ⟨old, kept, isNew⟩⟩
  · exact .inl kept
  · exact .inr ⟨isFor, by rw [isNew], by rw [isNew], .inl (by rw [isNew])⟩
  · exact .inr ⟨isFor, by rw [isNew], by rw [isNew], .inr ⟨old, kept, by rw [isNew]⟩⟩

end TableCache

/-! ### Dropping a path -/

theorem addDependent_extends (paths : List Path) (e : KeptTable) :
    paths <+: addDependent paths e := by
  unfold addDependent
  split
  · exact List.prefix_append _ _
  · exact List.prefix_rfl

theorem foldl_addDependent_extends (entries : List KeptTable) (paths : List Path) :
    paths <+: entries.foldl addDependent paths := by
  induction entries generalizing paths with
  | nil => exact List.prefix_rfl
  | cons e entries ih => exact (addDependent_extends paths e).trans (ih _)

theorem dependentsWithin_extends (entries : List KeptTable) (rounds : Nat) (paths : List Path) :
    paths <+: dependentsWithin entries rounds paths := by
  induction rounds generalizing paths with
  | zero => exact List.prefix_rfl
  | succ rounds ih => exact (foldl_addDependent_extends entries paths).trans (ih _)

/-- One round finds every entry that was linked against a path. -/
theorem among_foldl_addDependent {entries : List KeptTable} {e : KeptTable} (member : e ∈ entries)
    {paths : List Path} {p : Path} (dropped : among paths p = true)
    (depends : among e.module.dependencies p = true) :
    among (entries.foldl addDependent paths) e.path = true := by
  induction entries generalizing paths with
  | nil => cases member
  | cons first entries ih =>
    rw [List.foldl_cons]
    rcases List.mem_cons.mp member with rfl | member
    · refine among_mono (foldl_addDependent_extends entries _).subset ?_
      unfold addDependent
      split
      · exact among_iff.mpr ⟨e.path, by simp, Path.same_refl _⟩
      · next known =>
        obtain ⟨q, inDependencies, same⟩ := among_iff.mp depends
        obtain ⟨r, inPaths, same'⟩ := among_iff.mp dropped
        have reached : e.module.dependencies.any (among paths) = true :=
          List.any_eq_true.mpr ⟨q, inDependencies,
            among_iff.mpr ⟨r, inPaths, Path.same_trans same' (Path.same_symm same)⟩⟩
        simpa [reached] using known
    · exact ih member (among_mono (addDependent_extends paths first).subset dropped)

/-- Dropping a path leaves only tables of other paths, which were not linked against it. -/
theorem TableCache.mem_invalidate {c : TableCache} {p : Path} {e : KeptTable}
    (member : e ∈ (c.invalidate p).2.entries) :
    e ∈ c.entries ∧ e.path.same p = false ∧ among e.module.dependencies p = false := by
  obtain ⟨kept, apart⟩ := List.mem_filter.mp member
  rw [Bool.not_eq_true'] at apart
  refine ⟨kept, Bool.eq_false_iff.mpr fun same => ?_, Bool.eq_false_iff.mpr fun depends => ?_⟩
  · have dropped : among (dependentsOf c.entries p) e.path = true :=
      among_mono (dependentsWithin_extends _ _ _).subset
        (among_iff.mpr ⟨p, List.mem_singleton_self p, Path.same_symm same⟩)
    rw [apart] at dropped
    cases dropped
  · have dropped : among (dependentsOf c.entries p) e.path = true := by
      rw [dependentsOf, dependentsWithin]
      exact among_mono (dependentsWithin_extends _ _ _).subset (among_foldl_addDependent kept
        (among_iff.mpr ⟨p, List.mem_singleton_self p, Path.same_refl p⟩) depends)
    rw [apart] at dropped
    cases dropped

/-! ## Locations -/

theorem sameContext_iff {c c' : Option Path} :
    sameContext c c' = true ↔ c.map (·.components) = c'.map (·.components) := by
  cases c with
  | none => cases c' <;> simp [sameContext]
  | some p => cases c' <;> simp [sameContext, Path.same_iff]

theorem sameContext_refl (c : Option Path) : sameContext c c = true :=
  sameContext_iff.mpr rfl

theorem sameContext_trans {a b c : Option Path} (left : sameContext a b = true)
    (right : sameContext b c = true) : sameContext a c = true :=
  sameContext_iff.mpr ((sameContext_iff.mp left).trans (sameContext_iff.mp right))

theorem sameContext_symm {a b : Option Path} (h : sameContext a b = true) :
    sameContext b a = true :=
  sameContext_iff.mpr (sameContext_iff.mp h).symm

theorem LocationKey.same_iff {k l : LocationKey} :
    k.same l = true ↔
      k.specifier = l.specifier ∧ k.file.same l.file = true ∧
        sameContext k.context l.context = true := by
  rw [LocationKey.same, Bool.and_eq_true, Bool.and_eq_true, beq_iff_eq, and_assoc]

theorem LocationKey.same_refl (k : LocationKey) : k.same k = true :=
  LocationKey.same_iff.mpr ⟨rfl, Path.same_refl _, sameContext_refl _⟩

theorem LocationKey.same_symm {k l : LocationKey} (h : k.same l = true) : l.same k = true := by
  obtain ⟨specifiers, files, contexts⟩ := LocationKey.same_iff.mp h
  exact LocationKey.same_iff.mpr ⟨specifiers.symm, Path.same_symm files, sameContext_symm contexts⟩

theorem LocationKey.same_trans {j k l : LocationKey} (left : j.same k = true)
    (right : k.same l = true) : j.same l = true := by
  obtain ⟨specifiers, files, contexts⟩ := LocationKey.same_iff.mp left
  obtain ⟨specifiers', files', contexts'⟩ := LocationKey.same_iff.mp right
  exact LocationKey.same_iff.mpr ⟨specifiers.trans specifiers', Path.same_trans files files',
    sameContext_trans contexts contexts'⟩

/-- Locations are kept by the question. -/
def LocationKey.keyed : Keyed (LocationKey × Location) LocationKey where
  key := Prod.fst
  same := LocationKey.same
  refl := LocationKey.same_refl
  symm := LocationKey.same_symm
  trans := LocationKey.same_trans

namespace LocationCache

variable {c : LocationCache} {k : LocationKey} {l : Location} {e : LocationKey × Location}

theorem find?_eq (c : LocationCache) (k : LocationKey) :
    c.find? k = (LocationKey.keyed.find? c.entries k).map (·.2) :=
  rfl

theorem entries_insert (c : LocationCache) (k : LocationKey) (l : Location) :
    (c.insert k l).entries =
      LocationKey.keyed.put c.entries k (fun e => (e.1, l)) (k, l) := by
  rw [insert, find?_eq, Option.isSome_map]
  exact apply_ite entries _ _ _

theorem mem_of_find? (h : c.find? k = some l) : ∃ k', (k', l) ∈ c.entries ∧ k'.same k = true := by
  obtain ⟨e, found, rfl⟩ := Option.map_eq_some_iff.mp h
  have same := List.find?_some found
  exact ⟨e.1, List.mem_of_find?_eq_some found, same⟩

/-- Keeping a location replaces those kept for the same question, and nothing else. -/
theorem mem_insert (member : e ∈ (c.insert k l).entries) :
    (e ∈ c.entries ∧ e.1.same k = false) ∨ (e.1.same k = true ∧ e.2 = l) := by
  rw [entries_insert] at member
  rcases Keyed.mem_put member (fun _ => rfl) rfl with kept | ⟨same, isNew | ⟨old, -, isNew⟩⟩
  · exact .inl kept
  · exact .inr ⟨same, by rw [isNew]⟩
  · exact .inr ⟨same, by rw [isNew]⟩

end LocationCache

/-- The aliases that an atlas goes by: those it has read, or else those of the tree. -/
def aliasesIn (t : Tree) (atlas : Atlas) : Aliases :=
  atlas.aliases.getD (Resolution.projectAliases t atlas.project.root)

theorem getAliases_eq (t : Tree) (atlas : Atlas) :
    atlas.getAliases t =
      (atlas.aliasesIn t, { atlas with aliases := some (atlas.aliasesIn t) }) := by
  unfold getAliases aliasesIn
  split
  · next a read =>
    obtain ⟨project, aliases, finds, tables, locations⟩ := atlas
    cases read
    rfl
  · next unread =>
    rw [unread]
    rfl

section Resolve

variable {t : Tree} {specifier : String} {file : Path} {context : Option Path}
  {atlas atlas' : Atlas} {r : Option Location}

theorem keptLocation_cases {k : LocationKey} (h : atlas.keptLocation t k = (r, atlas')) :
    (∃ locations, atlas' = { atlas with locations } ∧
      ∀ e ∈ locations.entries, e ∈ atlas.locations.entries) ∧
    ∀ l, r = some l → t.isFile l.path = true ∧ ∃ k', (k', l) ∈ atlas.locations.entries ∧
      k'.same k = true := by
  unfold keptLocation LocationCache.get at h
  cases found : atlas.locations.find? k with
  | none =>
    rw [found] at h
    cases h
    exact ⟨⟨_, rfl, fun e member => member⟩, by simp⟩
  | some l =>
    rw [found] at h
    dsimp only at h
    split at h
    · next file =>
      cases h
      refine ⟨⟨_, rfl, fun e member => member⟩, ?_⟩
      rintro _ ⟨⟩
      exact ⟨file, LocationCache.mem_of_find? found⟩
    · cases h
      exact ⟨⟨_, rfl, fun e member => (List.mem_filter.mp member).1⟩, by simp⟩

/-- Resolving finds what was kept for the same question, if its file is there, or else asks the
tree; it changes nothing but what is kept about resolving. -/
theorem resolve_cases (h : atlas.resolve t specifier file context = (r, atlas')) :
    atlas'.project = atlas.project ∧ atlas'.tables = atlas.tables ∧
    ((∃ k l, (k, l) ∈ atlas.locations.entries ∧ k.same ⟨specifier, file, context⟩ = true ∧
        t.isFile l.path = true ∧ r = some l ∧ atlas'.aliases = atlas.aliases ∧
        ∀ e ∈ atlas'.locations.entries, e ∈ atlas.locations.entries) ∨
      (atlas'.aliases = some (atlas.aliasesIn t) ∧
        (Resolution.resolve t atlas.project (atlas.aliasesIn t) specifier file context
          atlas.finds).1 = r ∧
        ∀ e ∈ atlas'.locations.entries, e ∈ atlas.locations.entries ∨
          (e.1.same ⟨specifier, file, context⟩ = true ∧ r = some e.2))) := by
  unfold resolve at h
  dsimp only at h
  cases kept : atlas.keptLocation t ⟨specifier, file, context⟩ with
  | mk found atlas₁ =>
    obtain ⟨⟨locations, rfl, fewer⟩, isKept⟩ := keptLocation_cases kept
    rw [kept] at h
    cases found with
    | some l =>
      cases h
      obtain ⟨isFile, k, member, same⟩ := isKept l rfl
      exact ⟨rfl, rfl, .inl ⟨k, l, member, same, isFile, rfl, rfl, fewer⟩⟩
    | none =>
      dsimp only at h
      rw [getAliases_eq] at h
      dsimp only at h
      have aliases : { atlas with locations }.aliasesIn t = atlas.aliasesIn t := rfl
      rw [aliases] at h
      split at h
      · next l found =>
        cases h
        refine ⟨rfl, rfl, .inr ⟨rfl, found, fun e member => ?_⟩⟩
        rcases LocationCache.mem_insert member with ⟨member, -⟩ | ⟨same, rfl⟩
        · exact .inl (fewer e member)
        · exact .inr ⟨same, rfl⟩
      · next found =>
        cases h
        exact ⟨rfl, rfl, .inr ⟨rfl, found, fun e member => .inl (fewer e member)⟩⟩

end Resolve

/-! ## Keeping a module -/

section Keep

variable {l : Location} {mode : Mode} {content : String} {complete : Bool} {m : Option Linked}
  {s : Session}

theorem nesting_keep : (keep l mode content complete m s).nesting = s.nesting := by
  unfold keep
  split
  · split <;> rfl
  · rfl

/-- Keeping a module changes only the tables. -/
theorem atlas_keep (l : Location) (mode : Mode) (content : String) (complete : Bool)
    (m : Option Linked) (s : Session) :
    ∃ tables, (keep l mode content complete m s).atlas = { s.atlas with tables } := by
  unfold keep
  split
  · split
    · exact ⟨_, rfl⟩
    · exact ⟨_, rfl⟩
  · exact ⟨_, rfl⟩

/-- Only a complete module is kept. -/
theorem mem_keep {e : KeptTable}
    (member : e ∈ (keep l mode content complete m s).atlas.tables.entries) :
    (e ∈ s.atlas.tables.entries ∧
        (complete = true → m.isSome = true → e.isFor l.path mode = false)) ∨
      (complete = true ∧ e.isFor l.path mode = true ∧ e.content = content ∧ m = some e.module ∧
        (e.path = l.path ∨ ∃ old ∈ s.atlas.tables.entries, e.path = old.path)) := by
  unfold keep at member
  split at member
  · split at member
    · next complete =>
      rcases TableCache.mem_insert member with ⟨kept, other⟩ | ⟨isFor, content, rfl, spelled⟩
      · exact .inl ⟨kept, fun _ _ => other⟩
      · exact .inr ⟨complete, isFor, content, rfl, spelled⟩
    · next incomplete => exact .inl ⟨member, fun complete => absurd complete incomplete⟩
  · exact .inl ⟨member, fun _ h => nomatch h⟩

end Keep

end ModuleAtlas.Atlas
