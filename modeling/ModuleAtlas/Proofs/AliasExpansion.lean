import Mathlib.Data.List.Basic
import ModuleAtlas.Proofs.Resolution

/-!
# Expanding aliases

Aliases are made by giving pairs of a key and a target, one after the other, or by reading a
configuration, which gives the pairs of its `paths` (`Made`). Whatever pairs were given, each key
stands once, where it was first given, with the target it was last given (`Keeps`).

Two ways of looking at a specifier have to agree. Whether some key matches is asked of the specifier
as it stands. Expanding rewrites it by one key after the other, and later keys meet what earlier
ones made of it. But up to the first key that matches there is nothing but the specifier itself,
and from there on something was rewritten (`Aliases.expand_isSome`). So an alias makes a specifier
relative exactly when expanding rewrites it, and no specifier of a package is ever rewritten
(`expansion_exact`).
-/

namespace ModuleAtlas.Resolution

open Json (Value)

/-! ## Keys and targets -/

/-- A key starts a specifier and ends at a segment boundary: behind a slash of its own, at the end
of the specifier or in front of a slash. -/
def Begins (key specifier : String) : Prop :=
  key ≠ "" ∧ ∃ rest, specifier.toList = key.toList ++ rest ∧
    (key.toList.getLast? = some '/' ∨ rest = [] ∨ rest.head? = some '/')

/-- A target and a rest put together: either alone when the other is empty, else with one slash in
the place of all that the target ends in. -/
inductive Joined : (target rest joined : List Char) → Prop
  | rest (rest : List Char) : Joined [] rest rest
  | target (target : List Char) : Joined target [] target
  | both {stem rest : List Char} (slashes : Nat) (stripped : stem.getLast? ≠ some '/')
    (nonempty : stem ++ List.replicate slashes '/' ≠ []) (more : rest ≠ []) :
    Joined (stem ++ List.replicate slashes '/') rest (stem ++ '/' :: rest)

/-- An alias rewrites a specifier: its key, with the slashes behind it, gives way to its target. -/
def Rewrites (key target specifier expanded : String) : Prop :=
  Begins key specifier ∧ ∃ (slashes : Nat) (rest : List Char),
    specifier.toList = key.toList ++ (List.replicate slashes '/' ++ rest) ∧
      rest.head? ≠ some '/' ∧ Joined target.toList rest expanded.toList

theorem afterKey?_eq_some_iff {key specifier : String} {rest : List Char} :
    afterKey? key specifier = some rest ↔
      key ≠ "" ∧ specifier.toList = key.toList ++ rest ∧
        (key.toList.getLast? = some '/' ∨ rest = [] ∨ rest.head? = some '/') := by
  have passed : (key.toList.isEmpty || !key.toList.isPrefixOf specifier.toList) = true ↔
      ¬ (key ≠ "" ∧ key.toList <+: specifier.toList) := by
    simp only [Bool.or_eq_true, List.isEmpty_iff, String.toList_eq_nil_iff, Bool.not_eq_true',
      ← Bool.not_eq_true, List.isPrefixOf_iff_prefix]
    tauto
  rw [afterKey?]
  dsimp only
  rw [if_congr passed rfl rfl]
  by_cases starts : key ≠ "" ∧ key.toList <+: specifier.toList
  · rw [if_neg (not_not_intro starts)]
    obtain ⟨nonempty, tail, split⟩ := starts
    rw [← split, List.drop_left, Option.ite_none_right_eq_some, Option.some.injEq,
      List.append_cancel_left_eq]
    constructor
    · rintro ⟨boundary, rfl⟩
      exact ⟨nonempty, rfl, boundary⟩
    · rintro ⟨-, rfl, boundary⟩
      exact ⟨boundary, rfl⟩
  · rw [if_pos starts]
    constructor
    · exact fun h => by cases h
    · exact fun h => absurd ⟨h.1, rest, h.2.1.symm⟩ starts

theorem begins_iff {key specifier : String} :
    Begins key specifier ↔ ∃ rest, afterKey? key specifier = some rest := by
  simp only [afterKey?_eq_some_iff, Begins, exists_and_left]

instance (key specifier : String) : Decidable (Begins key specifier) :=
  decidable_of_iff ((afterKey? key specifier).isSome = true)
    (Option.isSome_iff_exists.trans begins_iff.symm)

theorem not_begins_iff {key specifier : String} :
    ¬ Begins key specifier ↔ afterKey? key specifier = none := by
  rw [begins_iff, Option.eq_none_iff_forall_ne_some, not_exists]

theorem dropWhile_slashes (slashes : Nat) {rest : List Char} (unslashed : rest.head? ≠ some '/') :
    (List.replicate slashes '/' ++ rest).dropWhile (· == '/') = rest := by
  rw [List.dropWhile_append_of_pos (by simp)]
  cases rest with
  | nil => rfl
  | cons c rest => exact List.dropWhile_cons_of_neg (by simpa using unslashed)

/-- A text is the slashes it starts with and what is left without them. -/
theorem exists_slashes (text : List Char) :
    ∃ slashes, text = List.replicate slashes '/' ++ text.dropWhile (· == '/') ∧
      (text.dropWhile (· == '/')).head? ≠ some '/' := by
  have leading : ∀ c ∈ text.takeWhile (· == '/'), c = '/' := by
    intro c inside
    simpa using List.all_eq_true.mp List.all_takeWhile c inside
  refine ⟨(text.takeWhile (· == '/')).length, ?_, ?_⟩
  · rw [← List.eq_replicate_of_mem leading, List.takeWhile_append_dropWhile]
  · intro first
    have other := List.head?_dropWhile_not (· == '/') text
    rw [first] at other
    cases other

theorem strip_slashes (slashes : Nat) {stem : List Char} (stripped : stem.getLast? ≠ some '/') :
    ((stem ++ List.replicate slashes '/').reverse.dropWhile (· == '/')).reverse = stem := by
  rw [List.reverse_append, List.reverse_replicate,
    dropWhile_slashes slashes (by rwa [List.head?_reverse]), List.reverse_reverse]

theorem joined_joinTarget (target : String) (rest : List Char) :
    Joined target.toList (rest.dropWhile (· == '/')) (joinTarget target rest).toList := by
  rw [joinTarget]
  split_ifs with noTarget noRest
  · rw [String.isEmpty_iff.mp noTarget, String.toList_empty, String.toList_ofList]
    exact .rest _
  · rw [List.isEmpty_iff.mp noRest]
    exact .target _
  · obtain ⟨slashes, split, stripped⟩ := exists_slashes target.toList.reverse
    rw [List.head?_eq_getLast?_reverse] at stripped
    have whole : target.toList =
        (target.toList.reverse.dropWhile (· == '/')).reverse ++ List.replicate slashes '/' := by
      rw [← List.reverse_replicate, ← List.reverse_append, ← split, List.reverse_reverse]
    rw [String.toList_ofList]
    have more : rest.dropWhile (· == '/') ≠ [] := by simpa using noRest
    have joined := Joined.both slashes stripped (by rw [← whole]; simpa using noTarget) more
    rwa [← whole] at joined

theorem Joined.eq_joinTarget {target joined : String} {rest : List Char}
    (h : Joined target.toList rest joined.toList) (unslashed : rest.head? ≠ some '/')
    (slashes : Nat) : joined = joinTarget target (List.replicate slashes '/' ++ rest) := by
  rw [joinTarget, dropWhile_slashes slashes unslashed, ← String.toList_inj]
  generalize isTarget : target.toList = text at h
  generalize joined.toList = out at h
  cases h with
  | rest => rw [if_pos (by simpa using isTarget), String.toList_ofList]
  | target =>
    -- The target may be empty as well; then the answer is the rest, which is empty too.
    by_cases noTarget : target.isEmpty
    · rw [if_pos noTarget, String.toList_ofList, ← isTarget, String.isEmpty_iff.mp noTarget,
        String.toList_empty]
    · rw [if_neg noTarget, List.isEmpty_nil, if_pos rfl, isTarget]
  | both slashes stripped nonempty more =>
    rw [if_neg (by simpa [← isTarget] using nonempty), if_neg (by simpa using more),
      strip_slashes slashes stripped, String.toList_ofList]

/-- An alias rewrites a specifier in one way, if its key matches. -/
theorem rewrites_iff {key target specifier expanded : String} :
    Rewrites key target specifier expanded ↔
      ∃ rest, afterKey? key specifier = some rest ∧ joinTarget target rest = expanded := by
  constructor
  · rintro ⟨begins, slashes, rest, split, unslashed, joined⟩
    obtain ⟨tail, found⟩ := begins_iff.mp begins
    obtain ⟨-, split', -⟩ := afterKey?_eq_some_iff.mp found
    rw [split, List.append_cancel_left_eq] at split'
    exact ⟨tail, found, split' ▸ (joined.eq_joinTarget unslashed slashes).symm⟩
  · rintro ⟨rest, found, rfl⟩
    obtain ⟨slashes, whole, unslashed⟩ := exists_slashes rest
    refine ⟨begins_iff.mpr ⟨rest, found⟩, slashes, _, ?_, unslashed, joined_joinTarget target rest⟩
    rw [← whole]
    exact (afterKey?_eq_some_iff.mp found).2.1

instance (key target specifier expanded : String) :
    Decidable (Rewrites key target specifier expanded) :=
  decidable_of_iff ((afterKey? key specifier).map (joinTarget target) = some expanded)
    (Option.map_eq_some_iff.trans rewrites_iff.symm)

/-! ## Expanding -/

namespace Aliases

variable {specifier : String}

/-- Aliases whose keys do not match what there is leave it as it is. -/
theorem foldl_expandStep_skip {entries : List (String × String)} {acc : Option String}
    (skipped : ∀ e ∈ entries, ¬ Begins e.1 (acc.getD specifier)) :
    entries.foldl (expandStep specifier) acc = acc := by
  induction entries with
  | nil => rfl
  | cons e entries ih =>
    have skip : expandStep specifier acc e = acc := by
      rw [expandStep, not_begins_iff.mp (skipped e List.mem_cons_self)]
    rw [List.foldl_cons, skip, ih fun e inside => skipped e (List.mem_cons_of_mem _ inside)]

/-- What was rewritten once stays rewritten. -/
theorem isSome_foldl_expandStep (entries : List (String × String)) (expanded : String) :
    (entries.foldl (expandStep specifier) (some expanded)).isSome = true := by
  induction entries generalizing expanded with
  | nil => rfl
  | cons e entries ih =>
    rw [List.foldl_cons, expandStep]
    cases afterKey? e.1 ((some expanded).getD specifier) <;> exact ih _

/-- Up to the first key that matches there is only the specifier itself. -/
theorem expand_of_first {a : Aliases} {earlier later : List (String × String)}
    {key target expanded : String} (entries : a.entries = earlier ++ (key, target) :: later)
    (first : ∀ e ∈ earlier, ¬ Begins e.1 specifier)
    (rewrites : Rewrites key target specifier expanded) :
    a.expand specifier = later.foldl (expandStep specifier) (some expanded) := by
  have step : expandStep specifier none (key, target) = some expanded := by
    obtain ⟨rest, found, joined⟩ := rewrites_iff.mp rewrites
    simp only [expandStep, Option.getD_none, found, joined]
  have skip : earlier.foldl (expandStep specifier) none = none := foldl_expandStep_skip first
  rw [expand, entries, List.foldl_append, skip, List.foldl_cons, step]

theorem isMatch_iff {a : Aliases} :
    a.isMatch specifier = true ↔ ∃ e ∈ a.entries, Begins e.1 specifier := by
  simp only [isMatch, List.any_eq_true, begins_iff, Option.isSome_iff_exists]

/-- A specifier is rewritten exactly when some key matches it. -/
theorem expand_isSome (a : Aliases) (specifier : String) :
    (a.expand specifier).isSome = a.isMatch specifier := by
  -- Whether anything is rewritten is settled at the first key that matches the specifier itself.
  cases first : a.entries.find? fun e => (afterKey? e.1 specifier).isSome with
  | none =>
    have unmatched := List.find?_eq_none.mp first
    rw [isMatch, List.any_eq_false.mpr unmatched, expand,
      foldl_expandStep_skip fun e inside => not_begins_iff.mpr (by simpa using unmatched e inside)]
    rfl
  | some entry =>
    obtain ⟨found, earlier, later, entries, unmatched⟩ := List.find?_eq_some_iff_append.mp first
    obtain ⟨rest, found⟩ := Option.isSome_iff_exists.mp found
    have matched : a.isMatch specifier = true :=
      isMatch_iff.mpr ⟨entry, by simp [entries], begins_iff.mpr ⟨rest, found⟩⟩
    rw [matched, expand_of_first entries
      (fun e inside => not_begins_iff.mpr (by simpa using unmatched e inside))
      (rewrites_iff.mpr ⟨rest, found, rfl⟩)]
    exact isSome_foldl_expandStep later _

end Aliases

/-- A specifier is relative by itself or because some key matches it. -/
theorem LookupKind.of_eq_relative_iff {a : Aliases} {specifier : String} :
    LookupKind.of a specifier = .relative ↔
      LookupKind.of { base := a.base } specifier = .relative ∨ a.isMatch specifier = true := by
  have ite_relative (p : Prop) [Decidable p] :
      (if p then relative else package) = relative ↔ p := by
    split <;> simp_all
  have noKeys : Aliases.isMatch { base := a.base } specifier = false := rfl
  rw [LookupKind.of, LookupKind.of, ite_relative, ite_relative, noKeys]
  tauto

/-- A specifier that an alias rewrites is looked up as a path from the directory of the targets, in
whatever file it stands. -/
theorem resolve_of_expand {a : Aliases} {specifier expanded : String}
    (rewritten : a.expand specifier = some expanded) (t : Tree) (project : Project) (file : Path)
    (context : Option Path) (m : Finds) :
    resolve t project a specifier file context m =
      ((fileFor t project.extensions (a.base / expanded).normalize).map (⟨·, context⟩), m) := by
  have matched : a.isMatch specifier = true := by rw [← a.expand_isSome, rewritten]; rfl
  have path : relativePath a file specifier = some (a.base / expanded) := by
    rw [relativePath, rewritten]
  rw [resolve_of_relative (LookupKind.of_eq_relative_iff.mpr (.inr matched)), relativeFile, path,
    Option.bind_some]

/-! ## Giving pairs -/

namespace Aliases

variable (a : Aliases) (key target : String)

theorem keys_insert :
    (a.insert key target).entries.map Prod.fst =
      if key ∈ a.entries.map Prod.fst then a.entries.map Prod.fst
      else a.entries.map Prod.fst ++ [key] := by
  have held : (a.entries.any (·.1 == key)) = true ↔ key ∈ a.entries.map Prod.fst := by simp
  rw [insert]
  by_cases old : key ∈ a.entries.map Prod.fst
  · rw [if_pos (held.mpr old), if_pos old, List.map_map]
    refine List.map_congr_left fun e _ => ?_
    by_cases same : e.1 = key <;> simp [same]
  · rw [if_neg (mt held.mp old), if_neg old, List.map_append]
    rfl

theorem mem_insert {key' target' : String} :
    (key', target') ∈ (a.insert key target).entries ↔
      if key' = key then target' = target else (key', target') ∈ a.entries := by
  by_cases old : a.entries.any (·.1 == key) = true
  · -- The target is replaced wherever the key stands, and it stands somewhere.
    have replaced : (key', target') ∈ (a.insert key target).entries ↔
        ∃ e ∈ a.entries, (if e.1 = key then (key, target) else e) = (key', target') := by
      simp [insert, if_pos old]
    rw [replaced]
    obtain ⟨e, inside, isKey⟩ := List.any_eq_true.mp old
    grind
  · have fresh : ∀ target, (key, target) ∉ a.entries := by simpa using old
    rw [insert, if_neg old, List.mem_append, List.mem_singleton]
    grind

end Aliases

/-- Entries that a list of given pairs leaves: each key once, in the order in which keys were first
given, with the target it was given last. -/
structure Keeps (given entries : List (String × String)) : Prop where
  inOrder : (entries.map Prod.fst).Pairwise fun key later =>
    (given.map Prod.fst).idxOf key < (given.map Prod.fst).idxOf later
  lastGiven : ∀ key target, (key, target) ∈ entries ↔ given.reverse.lookup key = some target

namespace Keeps

variable {given entries : List (String × String)}

theorem empty (base : Path) : Keeps [] ({ base := base } : Aliases).entries :=
  ⟨.nil, by simp⟩

theorem nodup (h : Keeps given entries) : (entries.map Prod.fst).Nodup := by
  refine h.inOrder.imp ?_
  rintro key _ before rfl
  exact Nat.lt_irrefl _ before

theorem mem_keys (h : Keeps given entries) {key : String} :
    key ∈ entries.map Prod.fst ↔ key ∈ given.map Prod.fst := by
  calc key ∈ entries.map Prod.fst
      ↔ ∃ target, (key, target) ∈ entries := by simp
    _ ↔ ∃ target, given.reverse.lookup key = some target := by simp only [h.lastGiven]
    _ ↔ key ∈ given.map Prod.fst := by
      rw [← Option.isSome_iff_exists, List.lookup_isSome_iff]
      simp

/-- Giving one more pair. -/
theorem insert {a : Aliases} (h : Keeps given a.entries) (key target : String) :
    Keeps (given ++ [(key, target)]) (a.insert key target).entries where
  inOrder := by
    -- Where a key was first given does not change when more is given behind it.
    have kept : (a.entries.map Prod.fst).Pairwise fun k l =>
        ((given ++ [(key, target)]).map Prod.fst).idxOf k <
          ((given ++ [(key, target)]).map Prod.fst).idxOf l := by
      refine h.inOrder.imp_of_mem ?_
      intro k l isKey isKey' before
      rw [List.map_append, List.idxOf_append_of_mem (h.mem_keys.mp isKey),
        List.idxOf_append_of_mem (h.mem_keys.mp isKey')]
      exact before
    rw [Aliases.keys_insert]
    split_ifs with old
    · exact kept
    · refine List.pairwise_append.mpr ⟨kept, List.pairwise_singleton _ _, ?_⟩
      intro k isKey l isNew
      rw [List.mem_singleton.mp isNew, List.map_append,
        List.idxOf_append_of_mem (h.mem_keys.mp isKey),
        List.idxOf_append_of_notMem (mt h.mem_keys.mpr old)]
      exact Nat.lt_add_right _ (List.idxOf_lt_length_of_mem (h.mem_keys.mp isKey))
  lastGiven := by
    intro key' target'
    rw [Aliases.mem_insert, List.reverse_append, List.reverse_singleton, List.singleton_append,
      List.lookup_cons]
    by_cases same : key' = key
    · simp [same, eq_comm]
    · simp [same, beq_eq_false_iff_ne.mpr same, h.lastGiven]

/-- Giving pairs one after the other. -/
theorem foldl_insert {a : Aliases} (h : Keeps given a.entries) (pairs : List (String × String)) :
    Keeps (given ++ pairs) (pairs.foldl (fun a p => a.insert p.1 p.2) a).entries := by
  induction pairs generalizing given a with
  | nil => simpa using h
  | cons p pairs ih => simpa using ih (h.insert p.1 p.2)

end Keeps

/-- The pair that a field of `paths` gives: none if it has no target, or a key that is only a
wildcard. -/
def pairOf? (field : String × Value) : Option (String × String) :=
  (targetOf field.2).bind fun target =>
    if literalPart field.1 = "" then none else some (literalPart field.1, literalPart target)

/-- The pairs that the text of a configuration gives, in order. -/
def pairsIn (content : String) : List (String × String) :=
  let options := (Json.parse? (Json.plainJson content)).bind (·.get? "compilerOptions")
  let paths := (options.bind (·.get? "paths")).bind Value.object?
  (paths.getD []).filterMap pairOf?

namespace Aliases

theorem addField_eq (a : Aliases) (field : String × Value) :
    a.addField field = (pairOf? field).elim a fun p => a.insert p.1 p.2 := by
  rw [addField, pairOf?]
  cases targetOf field.2 with
  | none => rfl
  | some target =>
    by_cases wild : literalPart field.1 = "" <;> simp [wild]

theorem foldl_addField (fields : List (String × Value)) (a : Aliases) :
    fields.foldl addField a =
      (fields.filterMap pairOf?).foldl (fun a p => a.insert p.1 p.2) a := by
  induction fields generalizing a with
  | nil => rfl
  | cons field fields ih =>
    rw [List.foldl_cons, ih, addField_eq]
    cases pair : pairOf? field with
    | none => rw [List.filterMap_cons_none pair, Option.elim_none]
    | some p => rw [List.filterMap_cons_some pair, Option.elim_some, List.foldl_cons]

/-- Reading a configuration is giving the pairs it gives. -/
theorem keeps_of_parse? {content : String} {root : Path} {a : Aliases}
    (reads : parse? content root = some a) : Keeps (pairsIn content) a.entries := by
  obtain ⟨v, isValue, rfl⟩ := Option.map_eq_some_iff.mp reads
  rw [pairsIn, isValue]
  dsimp only
  rw [foldl_addField]
  exact (Keeps.empty _).foldl_insert _

end Aliases

/-- How aliases are made, and the pairs that were given for them: with none, from a configuration,
or by giving one more pair. -/
inductive Made : List (String × String) → Aliases → Prop
  | empty (base : Path) : Made [] { base := base }
  | parsed {content : String} {root : Path} {a : Aliases}
    (reads : Aliases.parse? content root = some a) : Made (pairsIn content) a
  | insert {given : List (String × String)} {a : Aliases} (made : Made given a)
    (key target : String) : Made (given ++ [(key, target)]) (a.insert key target)

theorem Made.keeps {given : List (String × String)} {a : Aliases} (made : Made given a) :
    Keeps given a.entries := by
  induction made with
  | empty base => exact Keeps.empty base
  | parsed reads => exact Aliases.keeps_of_parse? reads
  | insert made key target ih => exact ih.insert key target

/-- Aliases hold each key once, where it was first given, with the target it was last given. A
specifier is rewritten if and only if some key matches it, which means that the key starts it up to
a segment boundary; so it is relative only by itself or because it is rewritten, then from the
directory of the targets, and one of a package is not rewritten. The first key that matches rewrites
it in one way, and if no later key matches what came out, that is the answer. -/
theorem expansion_exact {given : List (String × String)} {a : Aliases} (made : Made given a) :
    (a.entries.map Prod.fst).Nodup ∧ Keeps given a.entries ∧
    ∀ specifier : String,
      (a.isMatch specifier = true ↔ (a.expand specifier).isSome = true) ∧
      (a.isMatch specifier = true ↔ ∃ e ∈ a.entries, Begins e.1 specifier) ∧
      (LookupKind.of a specifier = .relative ↔
        LookupKind.of { base := a.base } specifier = .relative ∨
          (a.expand specifier).isSome = true) ∧
      (LookupKind.of a specifier = .package → a.expand specifier = none) ∧
      (∀ expanded, a.expand specifier = some expanded → ∀ t project file context m,
        resolve t project a specifier file context m =
          ((fileFor t project.extensions (a.base / expanded).normalize).map (⟨·, context⟩), m)) ∧
      ∀ earlier key target later, a.entries = earlier ++ (key, target) :: later →
        (∀ e ∈ earlier, ¬ Begins e.1 specifier) → Begins key specifier →
        ∃ expanded, (∀ other, Rewrites key target specifier other ↔ other = expanded) ∧
          ((∀ e ∈ later, ¬ Begins e.1 expanded) → a.expand specifier = some expanded) := by
  refine ⟨made.keeps.nodup, made.keeps, fun specifier => ⟨?_, Aliases.isMatch_iff, ?_, ?_, ?_, ?_⟩⟩
  · rw [a.expand_isSome]
  · rw [a.expand_isSome, LookupKind.of_eq_relative_iff]
  · intro isPackage
    have unmatched : ¬ a.isMatch specifier = true := by
      intro matched
      rw [LookupKind.of_eq_relative_iff.mpr (.inr matched)] at isPackage
      cases isPackage
    rwa [← a.expand_isSome, Option.not_isSome_iff_eq_none] at unmatched
  · intro expanded rewritten
    exact resolve_of_expand rewritten
  · intro earlier key target later entries first begins
    obtain ⟨rest, found⟩ := begins_iff.mp begins
    have one : ∀ other, Rewrites key target specifier other ↔ other = joinTarget target rest := by
      simp [rewrites_iff, found, eq_comm]
    refine ⟨joinTarget target rest, one, fun last => ?_⟩
    rw [Aliases.expand_of_first entries first ((one _).mpr rfl)]
    exact Aliases.foldl_expandStep_skip last

/-- A configuration that gives one key twice, and one that is only a wildcard. -/
def sampleConfiguration : String :=
  "\x7b\"compilerOptions\":\x7b\"baseUrl\":\"app\",\"paths\":\x7b\"#/*\":[\"src/*\"]," ++
    "\"~ui\":\"ui\",\"*\":\"any\",\"#\":[\"core//\"]\x7d\x7d\x7d"

/-- Its aliases and one with an empty key. -/
def sampleAliases : Aliases :=
  { entries := [("#", "core//"), ("~ui", "ui"), ("", "lib")], base := ⟨"/p/app"⟩ }

theorem made_sampleAliases :
    Made [("#", "src"), ("~ui", "ui"), ("#", "core//"), ("", "lib")] sampleAliases := by
  have reads : Aliases.parse? sampleConfiguration ⟨"/p"⟩ =
        some { entries := [("#", "core//"), ("~ui", "ui")], base := ⟨"/p/app"⟩ } ∧
      pairsIn sampleConfiguration = [("#", "src"), ("~ui", "ui"), ("#", "core//")] := by
    decide +kernel
  have made := (Made.parsed reads.1).insert "" "lib"
  rw [reads.2] at made
  exact made

/-- A specifier that only an alias makes relative is rewritten with one slash; one whose first
segment only starts with a key is left to the packages. -/
theorem expansion_exact_slashes :
    Made [("#", "src"), ("~ui", "ui"), ("#", "core//"), ("", "lib")] sampleAliases ∧
      LookupKind.of { base := sampleAliases.base } "#//x" = .package ∧
      LookupKind.of sampleAliases "#//x" = .relative ∧
      sampleAliases.expand "#//x" = some "core/x" ∧
      LookupKind.of sampleAliases "#x" = .package ∧ sampleAliases.expand "#x" = none := by
  obtain ⟨-, -, agrees⟩ := expansion_exact made_sampleAliases
  obtain ⟨-, -, kind, -, -, first⟩ := agrees "#//x"
  obtain ⟨expanded, one, last⟩ := first [] "#" "core//" [("~ui", "ui"), ("", "lib")] rfl (by simp)
    (by decide)
  obtain rfl := (one "core/x").mp (by decide)
  have answer := last (by decide)
  obtain ⟨-, -, -, package, -, -⟩ := agrees "#x"
  have isPackage : LookupKind.of sampleAliases "#x" = .package := by decide
  exact ⟨made_sampleAliases, by decide, kind.mpr (.inr (by rw [answer]; rfl)), answer, isPackage,
    package isPackage⟩

end ModuleAtlas.Resolution
