import ModuleAtlas.Proofs.Watch

/-!
# Which modules are complete

A nesting keeps one cut only, the outermost since the innermost module began. Each level keeps the
one that stood there before it, and ending a module puts the two together. Here a nesting is taken
through any list of calls: no module is ever inside one of the same path, and where each module ends
after those begun inside it, it is found complete exactly if no reference was cut, between its
beginning and its end, at a module around it (`ended_complete_iff`).

For a module that has begun, the cuts kept on the levels still open inside it count like the one
noted last. `Noted` says that one of them is at a module around it; each call up to its end adds to
that just the cut that the call makes (`Inside.noted_step`).
-/

namespace ModuleAtlas.Atlas

/-! ## Calls -/

/-- What can be asked of a nesting: to begin a module, or to end the one that the call of the given
number began. -/
inductive Call where
  | push (p : Path)
  | pop (n : Nat)
deriving DecidableEq, Repr

/-- What a nesting answers to a call. -/
inductive Reply where
  | begun
  | cut (p : Path)
  | ended (complete : Bool)
  /-- There was no module to end. -/
  | idle
deriving DecidableEq, Repr

/-- A nesting after some calls, and the levels that these were given and have not handed back. -/
structure History where
  nesting : Nesting := {}
  levels : List (Option Level) := []
deriving DecidableEq, Repr

namespace History

/-- The level that a call was given, if its module has not ended. -/
def level? (h : History) (n : Nat) : Option Level := h.levels[n]?.join

def step (h : History) : Call → Reply × History
  | .push p =>
    match h.nesting.push p with
    | (some level, nesting) => (.begun, ⟨nesting, h.levels ++ [some level]⟩)
    | (none, nesting) => (.cut p, ⟨nesting, h.levels ++ [none]⟩)
  | .pop n =>
    match h.level? n with
    | some level =>
      (.ended (h.nesting.pop level).1, ⟨(h.nesting.pop level).2, h.levels.set n none ++ [none]⟩)
    | none => (.idle, { h with levels := h.levels ++ [none] })

def after (h : History) : List Call → History
  | [] => h
  | c :: calls => (h.step c).2.after calls

def replies (h : History) : List Call → List Reply
  | [] => []
  | c :: calls => (h.step c).1 :: (h.step c).2.replies calls

/-- The module that a call ends, if any, has no module inside it that was begun and not ended. -/
def Orderly (h : History) : Call → Prop
  | .push _ => True
  | .pop n => (h.level? n).isSome → ∀ m < h.levels.length, n < m → h.level? m = none

instance (h : History) (c : Call) : Decidable (h.Orderly c) :=
  match c with
  | .push _ => inferInstanceAs (Decidable True)
  | .pop n => inferInstanceAs
    (Decidable ((h.level? n).isSome → ∀ m < h.levels.length, n < m → h.level? m = none))

/-- Each module ends after all that were begun inside it. -/
def WellNested (h : History) : List Call → Prop
  | [] => True
  | c :: calls => h.Orderly c ∧ (h.step c).2.WellNested calls

def decidableWellNested (h : History) : (calls : List Call) → Decidable (h.WellNested calls)
  | [] => inferInstanceAs (Decidable True)
  | c :: calls =>
    have := decidableWellNested (h.step c).2 calls
    inferInstanceAs (Decidable (h.Orderly c ∧ (h.step c).2.WellNested calls))

instance (h : History) (calls : List Call) : Decidable (h.WellNested calls) :=
  h.decidableWellNested calls

variable {h : History}

theorem after_append (h : History) (calls more : List Call) :
    h.after (calls ++ more) = (h.after calls).after more := by
  induction calls generalizing h with
  | nil => rfl
  | cons c calls ih => exact ih (h.step c).2

theorem WellNested.of_append {calls more : List Call} (nested : h.WellNested (calls ++ more)) :
    h.WellNested calls ∧ (h.after calls).WellNested more := by
  induction calls generalizing h with
  | nil => exact ⟨trivial, nested⟩
  | cons c calls ih =>
    obtain ⟨first, rest⟩ := nested
    obtain ⟨inner, outer⟩ := ih rest
    exact ⟨⟨first, inner⟩, outer⟩

/-- The three things that a call can do, and the one where it does nothing. -/
theorem step_cases (h : History) (c : Call) :
    (∃ p level nesting, c = .push p ∧ h.nesting.push p = (some level, nesting) ∧
      h.step c = (.begun, ⟨nesting, h.levels ++ [some level]⟩)) ∨
    (∃ p nesting, c = .push p ∧ h.nesting.push p = (none, nesting) ∧
      h.step c = (.cut p, ⟨nesting, h.levels ++ [none]⟩)) ∨
    (∃ n level, c = .pop n ∧ h.level? n = some level ∧
      h.step c = (.ended (h.nesting.pop level).1,
        ⟨(h.nesting.pop level).2, h.levels.set n none ++ [none]⟩)) ∨
    (∃ n, c = .pop n ∧ h.level? n = none ∧
      h.step c = (.idle, { h with levels := h.levels ++ [none] })) := by
  cases c with
  | push p =>
    rcases pushed : h.nesting.push p with ⟨level | level, nesting⟩
    · exact .inr (.inl ⟨p, nesting, rfl, pushed, by simp [step, pushed]⟩)
    · exact .inl ⟨p, level, nesting, rfl, pushed, by simp [step, pushed]⟩
  | pop n =>
    rcases opened : h.level? n with level | level
    · exact .inr (.inr (.inr ⟨n, rfl, opened, by simp [step, opened]⟩))
    · exact .inr (.inr (.inl ⟨n, level, rfl, opened, by simp [step, opened]⟩))

theorem length_step (h : History) (c : Call) :
    (h.step c).2.levels.length = h.levels.length + 1 := by
  rcases h.step_cases c with ⟨p, level, nesting, -, -, eq⟩ | ⟨p, nesting, -, -, eq⟩ |
    ⟨n, level, -, -, eq⟩ | ⟨n, -, -, eq⟩ <;> simp [eq]

theorem length_after (h : History) (calls : List Call) :
    (h.after calls).levels.length = h.levels.length + calls.length := by
  induction calls generalizing h with
  | nil => rfl
  | cons c calls ih =>
    rw [after, ih, length_step, List.length_cons]
    omega

theorem lt_of_level? {m : Nat} {level : Level} (found : h.level? m = some level) :
    m < h.levels.length := by
  apply Nat.lt_of_not_le
  intro beyond
  simp [level?, List.getElem?_eq_none beyond] at found

/-- A level is added at the end. -/
theorem level?_concat {nesting : Nesting} {levels : List (Option Level)} {last : Option Level}
    {m : Nat} {level : Level} :
    (⟨nesting, levels ++ [last]⟩ : History).level? m = some level ↔
      (levels[m]?.join = some level) ∨ (m = levels.length ∧ last = some level) := by
  rcases Nat.lt_trichotomy m levels.length with less | equal | more
  · simp [level?, List.getElem?_append_left less, Nat.ne_of_lt less]
  · subst equal
    simp [level?]
  · have beyond : levels.length ≤ m := Nat.le_of_lt more
    have last' : [last].length ≤ m - levels.length := by
      rw [List.length_singleton]
      omega
    simp [level?, List.getElem?_append_right beyond, List.getElem?_eq_none beyond,
      List.getElem?_eq_none last', Nat.ne_of_gt more]

theorem level?_concat_none {nesting : Nesting} {m : Nat} :
    (⟨nesting, h.levels ++ [none]⟩ : History).level? m = h.level? m := by
  apply Option.ext
  intro level
  rw [level?_concat]
  simp [level?]

/-- A level is handed back. -/
theorem level?_handBack {nesting : Nesting} {n m : Nat} {level : Level} :
    (⟨nesting, h.levels.set n none ++ [none]⟩ : History).level? m = some level ↔
      m ≠ n ∧ h.level? m = some level := by
  rw [level?_concat, List.getElem?_set]
  by_cases equal : n = m
  · subst equal
    by_cases inside : n < h.levels.length <;> simp [inside]
  · simp [equal, Ne.symm equal, level?]

end History

/-! ## No module inside itself -/

/-- No two modules of a nesting are of the same path. -/
def Nesting.Distinct (nesting : Nesting) : Prop :=
  nesting.stack.Pairwise fun p q => p.same q = false

theorem Nesting.Distinct.push {nesting : Nesting} (distinct : nesting.Distinct) (p : Path) :
    (nesting.push p).2.Distinct := by
  rcases pushed : nesting.push p with ⟨level | level, nesting'⟩
  · obtain ⟨i, q, -, -, rfl⟩ := Nesting.push_none pushed
    exact distinct
  · obtain ⟨absent, -, rfl⟩ := Nesting.push_some pushed
    apply List.pairwise_append.mpr
    refine ⟨distinct, List.pairwise_singleton _ _, ?_⟩
    intro q member r isLast
    rw [List.mem_singleton.mp isLast]
    exact absent q member

theorem Nesting.Distinct.pop {nesting : Nesting} (distinct : nesting.Distinct) (level : Level) :
    (nesting.pop level).2.Distinct :=
  distinct.sublist (List.take_sublist _ _)

theorem History.distinct_step {h : History} (distinct : h.nesting.Distinct) (c : Call) :
    (h.step c).2.nesting.Distinct := by
  rcases h.step_cases c with ⟨p, level, nesting, -, pushed, eq⟩ | ⟨p, nesting, -, pushed, eq⟩ |
    ⟨n, level, -, -, eq⟩ | ⟨n, -, -, eq⟩
  · have next := distinct.push p
    rw [pushed] at next
    rw [eq]
    exact next
  · have next := distinct.push p
    rw [pushed] at next
    rw [eq]
    exact next
  · rw [eq]
    exact distinct.pop level
  · rw [eq]
    exact distinct

theorem History.distinct_after {h : History} (distinct : h.nesting.Distinct) (calls : List Call) :
    (h.after calls).nesting.Distinct := by
  induction calls generalizing h with
  | nil => exact distinct
  | cons c calls ih => exact ih (distinct_step distinct c)

/-! ## Cuts at the modules around -/

/-- A cut at one of the outermost `d` modules. -/
def Below (d : Nat) (cut : Option Nat) : Prop := ∃ i, cut = some i ∧ i < d

theorem not_below_none (d : Nat) : ¬ Below d none := by
  simp [Below]

theorem below_some {d i : Nat} : Below d (some i) ↔ i < d := by
  simp [Below]

theorem below_lowerCut {d : Nat} {a b : Option Nat} :
    Below d (lowerCut a b) ↔ Below d a ∨ Below d b := by
  cases a with
  | none => simp [lowerCut, not_below_none]
  | some i =>
    cases b with
    | none => simp [lowerCut, not_below_none]
    | some j =>
      simp only [lowerCut, below_some]
      omega

theorem Nesting.isComplete_iff {nesting : Nesting} {level : Level} :
    nesting.isComplete level = true ↔ ¬ Below level.depth nesting.outermostCut := by
  unfold isComplete
  split
  · next i noted => simp [noted, below_some]
  · next noted => simp [noted, not_below_none]

/-- A reference is cut at the first module of its path, so at one of those around exactly if its
path is among theirs. -/
theorem Nesting.push_cut {nesting nesting' : Nesting} {q : Path} {around : List Path}
    (outer : around <+: nesting.stack) (pushed : nesting.push q = (none, nesting')) :
    nesting'.stack = nesting.stack ∧
      (Below around.length nesting'.outermostCut ↔
        Below around.length nesting.outermostCut ∨ among around q = true) := by
  unfold push at pushed
  split at pushed
  · next i found =>
    cases pushed
    obtain ⟨inside, same, first⟩ := List.findIdx?_eq_some_iff_getElem.mp found
    refine ⟨rfl, ?_⟩
    rw [below_lowerCut, below_some, among, List.any_eq_true]
    apply or_congr_right
    constructor
    · intro less
      refine ⟨around[i], List.getElem_mem less, ?_⟩
      rwa [outer.getElem less]
    · intro isAround
      obtain ⟨p, member, isSame⟩ := isAround
      obtain ⟨j, less, rfl⟩ := List.getElem_of_mem member
      apply Nat.lt_of_not_le
      intro beyond
      rw [outer.getElem less] at isSame
      exact first j (by omega) isSame
  · cases pushed

/-! ## Between beginning and end -/

section Inside

/-- A history between the beginning of a module, by call `n` on the nesting `outer`, and its
end. -/
structure Inside (outer : Nesting) (p : Path) (n : Nat) (h : History) : Prop where
  own : h.level? n = some ⟨outer.stack.length, outer.outermostCut⟩
  around : outer.stack ++ [p] <+: h.nesting.stack
  deeper : ∀ m level, n < m → h.level? m = some level → outer.stack.length < level.depth

/-- A cut at one of the outermost `d` modules is noted: last, or on a level given after call `n`. -/
def Noted (d n : Nat) (h : History) : Prop :=
  Below d h.nesting.outermostCut ∨
    ∃ m level, n < m ∧ h.level? m = some level ∧ Below d level.earlierCut

variable {outer : Nesting} {p : Path} {n : Nat} {h : History}

theorem Inside.shorter (inside : Inside outer p n h) :
    outer.stack.length < h.nesting.stack.length := by
  have length := inside.around.length_le
  simp only [List.length_append, List.length_singleton] at length
  omega

/-- A module that a call ends inside another was begun inside it. -/
theorem Inside.begun_later (inside : Inside outer p n h) {m : Nat} {level : Level}
    (found : h.level? m = some level) (orderly : h.Orderly (.pop m)) (other : m ≠ n) : n < m := by
  apply Nat.lt_of_not_le
  intro earlier
  have ended := orderly (by simp [found]) n (History.lt_of_level? inside.own) (by omega)
  rw [inside.own] at ended
  cases ended

theorem Inside.step (inside : Inside outer p n h) {c : Call} (orderly : h.Orderly c)
    (other : c ≠ .pop n) : Inside outer p n (h.step c).2 := by
  rcases h.step_cases c with ⟨q, level, nesting, rfl, pushed, eq⟩ |
    ⟨q, nesting, rfl, pushed, eq⟩ | ⟨m, level, rfl, found, eq⟩ | ⟨m, rfl, found, eq⟩ <;> rw [eq]
  · obtain ⟨-, rfl, rfl⟩ := Nesting.push_some pushed
    refine ⟨History.level?_concat.mpr (.inl inside.own),
      inside.around.trans (List.prefix_append _ _), ?_⟩
    intro m level later found
    rcases History.level?_concat.mp found with found | ⟨-, isNew⟩
    · exact inside.deeper m level later found
    · cases isNew
      exact inside.shorter
  · have around := (List.prefix_append _ _).trans inside.around
    obtain ⟨stack, -⟩ := Nesting.push_cut around pushed
    refine ⟨History.level?_concat_none.trans inside.own, stack ▸ inside.around, ?_⟩
    intro m level later found
    exact inside.deeper m level later (History.level?_concat_none.symm.trans found)
  · have other : m ≠ n := fun equal => other (by rw [equal])
    have later := inside.begun_later found orderly other
    refine ⟨History.level?_handBack.mpr ⟨other.symm, inside.own⟩, ?_, ?_⟩
    · apply List.prefix_take_iff.mpr
      refine ⟨inside.around, ?_⟩
      have deeper := inside.deeper m level later found
      simp only [List.length_append, List.length_singleton]
      omega
    · intro m' level' later' found'
      exact inside.deeper m' level' later' (History.level?_handBack.mp found').2
  · refine ⟨History.level?_concat_none.trans inside.own, inside.around, ?_⟩
    intro m' level' later' found'
    exact inside.deeper m' level' later' (History.level?_concat_none.symm.trans found')

/-- A call inside a module notes the cut that it makes at a module around, and keeps what was
noted: beginning a module puts the cut noted last on its level, and ending it takes it back. -/
theorem Inside.noted_step (inside : Inside outer p n h) {c : Call} (orderly : h.Orderly c)
    (other : c ≠ .pop n) :
    Noted outer.stack.length n (h.step c).2 ↔
      Noted outer.stack.length n h ∨
        ∃ q, (h.step c).1 = .cut q ∧ among outer.stack q = true := by
  have length := History.lt_of_level? inside.own
  rcases h.step_cases c with ⟨q, level, nesting, rfl, pushed, eq⟩ |
    ⟨q, nesting, rfl, pushed, eq⟩ | ⟨m, level, rfl, found, eq⟩ | ⟨m, rfl, found, eq⟩ <;> rw [eq]
  · obtain ⟨-, rfl, rfl⟩ := Nesting.push_some pushed
    constructor
    · intro noted
      rcases noted with noted | ⟨m, level, later, found, noted⟩
      · exact absurd noted (not_below_none _)
      · rcases History.level?_concat.mp found with found | ⟨-, isNew⟩
        · exact .inl (.inr ⟨m, level, later, found, noted⟩)
        · cases isNew
          exact .inl (.inl noted)
    · intro noted
      rcases noted with (noted | ⟨m, level, later, found, noted⟩) | ⟨q, isCut, -⟩
      · exact .inr ⟨_, _, length, History.level?_concat.mpr (.inr ⟨rfl, rfl⟩), noted⟩
      · exact .inr ⟨m, level, later, History.level?_concat.mpr (.inl found), noted⟩
      · cases isCut
  · have around := (List.prefix_append _ _).trans inside.around
    obtain ⟨-, noted⟩ := Nesting.push_cut around pushed
    simp only [Noted, History.level?_concat_none, noted, Reply.cut.injEq, exists_eq_left']
    exact or_right_comm
  · have other : m ≠ n := fun equal => other (by rw [equal])
    have later := inside.begun_later found orderly other
    simp only [Noted, History.level?_handBack, Nesting.pop, below_lowerCut]
    constructor
    · intro noted
      rcases noted with (noted | noted) | ⟨m', level', later', ⟨-, found'⟩, noted⟩
      · exact .inl (.inl noted)
      · exact .inl (.inr ⟨m, level, later, found, noted⟩)
      · exact .inl (.inr ⟨m', level', later', found', noted⟩)
    · intro noted
      rcases noted with (noted | ⟨m', level', later', found', noted⟩) | ⟨q, isCut, -⟩
      · exact .inl (.inl noted)
      · by_cases equal : m' = m
        · subst equal
          rw [found] at found'
          cases found'
          exact .inl (.inr noted)
        · exact .inr ⟨m', level', later', ⟨equal, found'⟩, noted⟩
      · cases isCut
  · simp [Noted, History.level?_concat_none]

/-- Through all that happens inside a module, the cuts noted are those made at modules around. -/
theorem Inside.noted_after (inside : Inside outer p n h) {calls : List Call}
    (nested : h.WellNested calls) (unended : .pop n ∉ calls) :
    Inside outer p n (h.after calls) ∧
      (Noted outer.stack.length n (h.after calls) ↔
        Noted outer.stack.length n h ∨
          ∃ q, .cut q ∈ h.replies calls ∧ among outer.stack q = true) := by
  induction calls generalizing h with
  | nil => exact ⟨inside, by simp [History.after, History.replies]⟩
  | cons c calls ih =>
    obtain ⟨other, rest⟩ := List.ne_and_not_mem_of_not_mem_cons unended
    obtain ⟨still, noted⟩ := ih (inside.step nested.1 other.symm) nested.2 rest
    refine ⟨still, noted.trans ?_⟩
    rw [inside.noted_step nested.1 other.symm, or_assoc, ← exists_or]
    simp only [History.replies, List.mem_cons, ← or_and_right, eq_comm]

theorem Inside.begin {level : Level} {nesting : Nesting} {h : History}
    (pushed : h.nesting.push p = (some level, nesting)) :
    Inside h.nesting p h.levels.length ⟨nesting, h.levels ++ [some level]⟩ ∧
      ¬ Noted h.nesting.stack.length h.levels.length ⟨nesting, h.levels ++ [some level]⟩ := by
  obtain ⟨-, rfl, rfl⟩ := Nesting.push_some pushed
  have last : ∀ m level', h.levels.length < m →
      (⟨{ stack := h.nesting.stack ++ [p] },
        h.levels ++ [some ⟨h.nesting.stack.length, h.nesting.outermostCut⟩]⟩ : History).level? m ≠
          some level' := by
    intro m level' later found
    have length := History.lt_of_level? found
    simp only [List.length_append, List.length_singleton] at length
    omega
  refine ⟨⟨History.level?_concat.mpr (.inr ⟨rfl, rfl⟩), List.prefix_rfl, ?_⟩, ?_⟩
  · intro m level' later found
    exact absurd found (last m level' later)
  · intro noted
    rcases noted with noted | ⟨m, level', later, found, -⟩
    · exact not_below_none _ noted
    · exact last m level' later found

/-- Where nothing begun inside a module is left open, it ends complete unless a cut is noted. -/
theorem Inside.pop (inside : Inside outer p n h) (orderly : h.Orderly (.pop n)) :
    ∃ complete, (h.step (.pop n)).1 = .ended complete ∧
      (complete = true ↔ ¬ Noted outer.stack.length n h) := by
  refine ⟨h.nesting.isComplete ⟨outer.stack.length, outer.outermostCut⟩, ?_, ?_⟩
  · simp [History.step, inside.own, Nesting.pop]
  · rw [Nesting.isComplete_iff, Noted, or_iff_left]
    intro noted
    obtain ⟨m, level, later, found, -⟩ := noted
    rw [orderly (by simp [inside.own]) m (History.lt_of_level? found) later] at found
    cases found

end Inside

/-- No module is ever inside one of the same path, whatever the calls. Where each module ends after
all that were begun inside it, ending one finds it complete exactly if no reference made in between
was cut at a module that was around it when it began. -/
theorem ended_complete_iff (calls : List Call) :
    (({} : History).after calls).nesting.Distinct ∧
    ∀ (before inside after : List Call) (p : Path),
      calls = before ++ .push p :: (inside ++ .pop before.length :: after) →
      ({} : History).WellNested calls →
      ((({} : History).after before).step (.push p)).1 = .begun →
      .pop before.length ∉ inside →
      ∃ complete,
        ((({} : History).after (before ++ .push p :: inside)).step (.pop before.length)).1 =
          .ended complete ∧
        (complete = true ↔
          ∀ q, .cut q ∈ (({} : History).after (before ++ [.push p])).replies inside →
            among (({} : History).after before).nesting.stack q = false) := by
  have empty : ({} : History).nesting.Distinct := List.Pairwise.nil
  refine ⟨History.distinct_after empty calls, ?_⟩
  intro before inside after p split nested begun unended
  subst split
  have length : (({} : History).after before).levels.length = before.length := by
    simp [History.length_after]
  obtain ⟨-, nested⟩ := nested.of_append
  rw [History.after_append, History.after_append]
  generalize ({} : History).after before = h at *
  obtain ⟨-, nested⟩ := nested
  obtain ⟨within, rest⟩ := nested.of_append
  rcases pushed : h.nesting.push p with ⟨level | level, nesting⟩
  · simp [History.step, pushed] at begun
  · have first : (h.step (.push p)).2 = ⟨nesting, h.levels ++ [some level]⟩ := by
      simp [History.step, pushed]
    simp only [History.after, first] at within rest ⊢
    obtain ⟨started, clean⟩ := Inside.begin pushed
    rw [length] at started clean
    obtain ⟨still, noted⟩ := started.noted_after within unended
    obtain ⟨complete, ended, agrees⟩ := still.pop rest.1
    refine ⟨complete, ended, agrees.trans ?_⟩
    rw [noted, or_iff_right clean]
    simp only [not_exists, not_and, Bool.not_eq_true]

/-- In `a` and `b` a module `c` refers to `a`; then, still in `b`, it refers to itself; then `b` is
met again without it. -/
def nestedCalls : List Call :=
  let a : Path := ⟨"/p/a.ts"⟩
  let b : Path := ⟨"/p/b.ts"⟩
  let c : Path := ⟨"/p/c.ts"⟩
  [.push a, .push b, .push c, .push a, .pop 2, .push c, .push c, .pop 5, .pop 1, .push b, .pop 9,
    .pop 0]

theorem ended_complete_iff_nested :
    ({} : History).WellNested nestedCalls ∧
    ({} : History).replies nestedCalls =
      [.begun, .begun, .begun, .cut ⟨"/p/a.ts"⟩, .ended false, .begun, .cut ⟨"/p/c.ts"⟩,
        .ended true, .ended false, .begun, .ended true, .ended true] ∧
    ∃ complete,
      ((({} : History).after (nestedCalls.take 8)).step (.pop 1)).1 = .ended complete ∧
      (complete = true ↔
        ∀ q, .cut q ∈ (({} : History).after (nestedCalls.take 2)).replies
            ((nestedCalls.drop 2).take 6) →
          among (({} : History).after (nestedCalls.take 1)).nesting.stack q = false) :=
  ⟨by decide +kernel, by decide +kernel,
    (ended_complete_iff nestedCalls).2 (nestedCalls.take 1) ((nestedCalls.drop 2).take 6)
      (nestedCalls.drop 9) ⟨"/p/b.ts"⟩ rfl (by decide +kernel) (by decide +kernel)
      (by decide +kernel)⟩

end ModuleAtlas.Atlas
