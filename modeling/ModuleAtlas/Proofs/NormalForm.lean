import ModuleAtlas.Proofs.Tree

/-!
# The normal form of a path

Working out a path keeps a stack of components. `WorkedOut` says what the stack can be: names above
the root, or names above steps back when the path is relative. Every component keeps it so
(`WorkedOut.step`), hence a whole path does (`workedOut_components`). The text written from such a
stack has the stack for its components (`components_normalize`), so the stack can be read back from
it: a second look changes nothing, and a path may be worked out before something is put behind it
(`normalize_join`).
-/

namespace ModuleAtlas.Path

/-! ## The stack -/

/-- A stack of components in normal form, innermost first: names above the root, or above steps
back. -/
inductive WorkedOut : (absolute : Bool) → List Component → Prop
  | root : WorkedOut true [.root]
  | back (k : Nat) : WorkedOut false (List.replicate k .parent)
  | name {absolute : Bool} {n : List Char} {stack : List Component} :
    IsName n → WorkedOut absolute stack → WorkedOut absolute (nameOf n :: stack)

/-- A component behind the first leaves a stack in normal form. -/
theorem WorkedOut.step {absolute : Bool} {stack : List Component} {c : Component}
    (workedOut : WorkedOut absolute stack) (isStep : c = .here ∨ IsStep c) :
    WorkedOut absolute (normalStep stack c) := by
  rcases isStep with rfl | rfl | ⟨n, isName, rfl⟩
  · exact workedOut
  · cases workedOut with
    | root => exact .root
    | back k =>
      cases k with
      | zero => exact .back 1
      | succ k => exact .back (k + 2)
    | name _ outer => exact outer
  · exact .name isName workedOut

theorem WorkedOut.steps {absolute : Bool} {stack cs : List Component}
    (workedOut : WorkedOut absolute stack) (areSteps : ∀ c ∈ cs, c = .here ∨ IsStep c) :
    WorkedOut absolute (cs.foldl normalStep stack) := by
  induction cs generalizing stack with
  | nil => exact workedOut
  | cons c cs ih =>
    refine ih (workedOut.step (areSteps c List.mem_cons_self)) fun d member => ?_
    exact areSteps d (List.mem_cons_of_mem _ member)

/-- Working out a path ends with a stack in normal form. -/
theorem workedOut_components (p : Path) :
    WorkedOut p.isAbsolute (p.components.foldl normalStep []) := by
  cases absolute : p.isAbsolute with
  | false => exact (WorkedOut.back 0).steps (isStep_of_relative absolute)
  | true =>
    obtain ⟨cs, chars⟩ := isAbsolute_iff.mp absolute
    rw [components_of_absolute chars, List.foldl_cons]
    refine WorkedOut.root.steps fun c member => .inr ?_
    exact isStep_of_mem_filterMap (fun s => slashless_of_mem_segmentsOf) member

/-- Read from the outside, a stack in normal form is the root or some steps back, and names. -/
theorem WorkedOut.exists_reverse {absolute : Bool} {stack : List Component}
    (workedOut : WorkedOut absolute stack) :
    ∃ (ups : Nat) (names : List (List Char)), (∀ n ∈ names, IsName n) ∧
      stack.reverse =
        (if absolute then [.root] else List.replicate ups .parent) ++ names.map nameOf := by
  induction workedOut with
  | root => exact ⟨0, [], by simp, rfl⟩
  | back k => exact ⟨k, [], by simp, by simp⟩
  | @name absolute n stack isName outer ih =>
    obtain ⟨ups, names, areNames, shape⟩ := ih
    refine ⟨ups, names ++ [n], fun m member => ?_, ?_⟩
    · rcases List.mem_append.mp member with inside | isLast
      · exact areNames m inside
      · exact List.mem_singleton.mp isLast ▸ isName
    · rw [List.reverse_cons, shape, List.append_assoc, List.map_append, List.map_singleton]

/-- Working out what is worked out puts the same components on the stack again. -/
theorem WorkedOut.foldl_reverse {absolute : Bool} {stack : List Component}
    (workedOut : WorkedOut absolute stack) : stack.reverse.foldl normalStep [] = stack := by
  induction workedOut with
  | root => rfl
  | back k =>
    rw [List.reverse_replicate]
    induction k with
    | zero => rfl
    | succ k ih =>
      rw [List.replicate_succ', List.foldl_concat, ih, ← List.replicate_succ', List.replicate_succ]
      cases k <;> rfl
  | name isName outer ih =>
    rw [List.reverse_cons, List.foldl_concat, ih]
    rfl

/-! ## Reading the text back -/

theorem IsStep.componentOf_text {c : Component} (h : IsStep c) :
    componentOf c.text.toList = some c ∧ '/' ∉ c.text.toList := by
  rcases h with rfl | ⟨n, isName, rfl⟩
  · exact ⟨rfl, by decide⟩
  · rw [nameOf, Component.text, String.toList_ofList]
    exact ⟨componentOf_of_isName isName, isName.2.2.2⟩

theorem filterMap_texts {cs : List Component} (areSteps : ∀ c ∈ cs, IsStep c) :
    (cs.map fun c => c.text.toList).filterMap componentOf = cs := by
  rw [List.filterMap_map]
  refine (List.filterMap_congr fun c member => ?_).trans List.filterMap_some
  exact (areSteps c member).componentOf_text.1

/-- The text of steps is a relative path with these steps. -/
theorem components_ofComponents_of_steps {cs : List Component} (areSteps : ∀ c ∈ cs, IsStep c) :
    (ofComponents cs).components = cs := by
  cases cs with
  | nil => rfl
  | cons c cs =>
    have isStep := areSteps c List.mem_cons_self
    have rendered : render (c :: cs) = String.intercalate "/" ((c :: cs).map Component.text) := by
      rcases isStep with rfl | ⟨n, -, rfl⟩ <;> rfl
    have pieces : (ofComponents (c :: cs)).segments =
        c.text.toList :: cs.map fun c => c.text.toList := by
      rw [segments, ofComponents, rendered, String.toList_intercalate, List.map_map]
      refine segmentsOf_intercalate (by simp) fun s member => ?_
      obtain ⟨d, inside, rfl⟩ := List.mem_map.mp member
      exact (areSteps d inside).componentOf_text.2
    have first := isStep.componentOf_text.1
    have relative : (ofComponents (c :: cs)).isAbsolute = false := by
      refine Bool.eq_false_iff.mpr fun absolute => ?_
      obtain ⟨chars, text⟩ := isAbsolute_iff.mp absolute
      rw [segments, text, segmentsOf_slash_cons] at pieces
      rw [← (List.cons.inj pieces).1] at first
      cases first
    have notDot : c.text.toList ≠ ['.'] := by
      intro dot
      rw [dot] at first
      cases first
    rw [components_eq_lead pieces, lead, relative, if_neg (by simp), if_neg notDot, first,
      filterMap_texts fun d member => areSteps d (List.mem_cons_of_mem _ member)]
    rfl

/-- The text written from a stack in normal form has the stack for its components. -/
theorem WorkedOut.components_ofComponents {absolute : Bool} {stack : List Component}
    (workedOut : WorkedOut absolute stack) :
    (ofComponents stack.reverse).components = stack.reverse := by
  obtain ⟨ups, names, areNames, shape⟩ := workedOut.exists_reverse
  rw [shape]
  cases absolute with
  | true => exact (ofComponents_names names).symm ▸ components_ofNames areNames
  | false =>
    refine components_ofComponents_of_steps fun c member => ?_
    rcases List.mem_append.mp member with isBack | isName
    · exact .inl (List.eq_of_mem_replicate isBack)
    · obtain ⟨n, inside, rfl⟩ := List.mem_map.mp isName
      exact .inr ⟨n, areNames n inside, rfl⟩

theorem components_normalize (p : Path) : p.normalize.components = normalComponents p.components :=
  (workedOut_components p).components_ofComponents

theorem foldl_components_normalize (p : Path) :
    p.normalize.components.foldl normalStep [] = p.components.foldl normalStep [] := by
  rw [components_normalize]
  exact (workedOut_components p).foldl_reverse

/-- A path that is worked out stays as it is. -/
theorem normalize_normalize (p : Path) : p.normalize.normalize = p.normalize := by
  rw [normalize, normalComponents, foldl_components_normalize]
  rfl

/-! ## Joining -/

/-- Working out a relative path goes through the pieces of its text: a dot in front counts for
nothing. -/
theorem foldl_segments {q : String} (relative : (⟨q⟩ : Path).isAbsolute = false)
    (stack : List Component) :
    ((segmentsOf q.toList).filterMap componentOf).foldl normalStep stack =
      (⟨q⟩ : Path).components.foldl normalStep stack := by
  obtain ⟨first, rest, pieces⟩ := (⟨q⟩ : Path).exists_segments
  have cut : segmentsOf q.toList = first :: rest := pieces
  rw [cut, components_eq_lead pieces, lead, relative, if_neg (by simp)]
  by_cases dot : first = ['.']
  · rw [if_pos dot, dot]
    rfl
  · rw [if_neg dot]
    cases component : componentOf first with
    | none => rw [List.filterMap_cons_none component]; rfl
    | some c => rw [List.filterMap_cons_some component]; rfl

/-- A relative path behind another is worked out from where the other leads. -/
theorem foldl_join {p : Path} {q : String} (relative : (⟨q⟩ : Path).isAbsolute = false) :
    (p / q).components.foldl normalStep [] =
      (⟨q⟩ : Path).components.foldl normalStep (p.components.foldl normalStep []) := by
  by_cases text : p.text = ""
  · rw [join_of_empty text, components_eq_nil_iff.mpr text]
    rfl
  · rw [components_join text relative, List.foldl_append, foldl_segments relative]

/-- A path may be worked out before a relative one is put behind it. -/
theorem normalize_join {p : Path} {q : String} (relative : (⟨q⟩ : Path).isAbsolute = false) :
    (p / q).normalize = (p.normalize / q).normalize := by
  rw [normalize, normalize, normalComponents, normalComponents, foldl_join relative,
    foldl_join relative, foldl_components_normalize]

/-! ## The normal form -/

/-- No dots, and steps back only in front of a relative path. -/
theorem components_normalize_shape (p : Path) :
    .here ∉ p.normalize.components ∧
      ∃ ups rest, p.normalize.components = List.replicate ups .parent ++ rest ∧ .parent ∉ rest ∧
        (p.isAbsolute = true → ups = 0) := by
  obtain ⟨ups, names, -, shape⟩ := (workedOut_components p).exists_reverse
  rw [components_normalize, normalComponents, shape]
  cases p.isAbsolute with
  | true => exact ⟨by simp [nameOf], 0, _, rfl, by simp [nameOf], fun _ => rfl⟩
  | false => exact ⟨by simp [nameOf, List.mem_replicate], ups, _, rfl, by simp [nameOf], by simp⟩

/-- The normal form of a path has no dots, steps back only in front and only if the path is
relative, starts where the path starts, and is its own normal form. It may be taken before a
relative path is put behind it. What an absolute path names in a tree, its normal form names. -/
theorem normalize_is_normal_form :
    (∀ p : Path, .here ∉ p.normalize.components ∧
      (∃ ups rest, p.normalize.components = List.replicate ups .parent ++ rest ∧
        .parent ∉ rest ∧ (p.isAbsolute = true → ups = 0)) ∧
      p.normalize.isAbsolute = p.isAbsolute ∧ p.normalize.normalize = p.normalize) ∧
    (∀ a b : Path, b.isAbsolute = false →
      (a / b.text).normalize = (a.normalize / b.text).normalize) ∧
    ∀ (t : Tree) (p : Path) (n : Node), t.get? p = some n →
      t.get? p.normalize = some n ∧ t.locate? p.normalize = t.locate? p := by
  refine ⟨fun p => ?_, fun a b relative => normalize_join relative, fun t p n found => ?_⟩
  · obtain ⟨noDot, back⟩ := components_normalize_shape p
    exact ⟨noDot, back, isAbsolute_normalize p, normalize_normalize p⟩
  · obtain ⟨place, located, node⟩ := Tree.get?_eq_some found
    have located' := Tree.locate?_normalize located
    exact ⟨by rw [Tree.get?, located', Option.bind_some, node], located'.trans located.symm⟩

/-- A directory with a file beside another directory. -/
def windingTree : Tree :=
  ⟨[(["p"], .directory), (["p", "a.ts"], .file (.text "")), (["p", "lib"], .directory)]⟩

/-- A relative path that climbs above its start keeps the steps back, and only those that are left
over; the normal form of a winding path names the same file. -/
theorem normalize_is_normal_form_winding :
    (⟨"x/./../../b//c/.."⟩ : Path).normalize = ⟨"../b"⟩ ∧
    ((⟨"x/./../../b//c/.."⟩ : Path) / "../../d").normalize = ⟨"../../d"⟩ ∧
    windingTree.get? ⟨"/../p/lib/.././a.ts"⟩ = some (.file (.text "")) ∧
    windingTree.get? ⟨"/p/a.ts"⟩ = some (.file (.text "")) := by
  obtain ⟨-, joined, named⟩ := normalize_is_normal_form
  have worked : (⟨"x/./../../b//c/.."⟩ : Path).normalize = ⟨"../b"⟩ := by decide +kernel
  have relative : (⟨"../../d"⟩ : Path).isAbsolute = false := by decide
  have behind : ((⟨"../b"⟩ : Path) / "../../d").normalize = ⟨"../../d"⟩ := by decide +kernel
  have there : windingTree.get? ⟨"/../p/lib/.././a.ts"⟩ = some (.file (.text "")) := by
    decide +kernel
  have plain : (⟨"/../p/lib/.././a.ts"⟩ : Path).normalize = ⟨"/p/a.ts"⟩ := by decide +kernel
  refine ⟨worked, ?_, there, plain ▸ (named _ _ _ there).1⟩
  exact (joined ⟨"x/./../../b//c/.."⟩ ⟨"../../d"⟩ relative).trans (worked ▸ behind)

end ModuleAtlas.Path
