import ModuleAtlas.Proofs.Overloads

/-!
# Members of namespaces

A namespace gives its module the exported declarations of its body. A namespace that is exported
there is a declaration like the others, and gives those of its own body as well: what counts is that
each namespace on the way is exported in the one around it, not how many there are. So the slots of
a namespace are those of all declarations exported within it (`innerOf`), and a module is the same
with these declarations written out behind the namespace (`lifts_every_level`). Only where no
declaration exported two levels deep has a slot, the first level is all there is.
-/

namespace ModuleAtlas.Draft

open Symbols Syntax
open Text (withoutQuotes)

/-! ## Bodies -/

/-- The members of a namespace, behind any number of `declare`. Other declarations have none. -/
def bodyOf : Decl → List Stmt
  | .namespaceDecl _ _ _ members => members
  | .ambient _ (some d) => bodyOf d
  | _ => []

/-- A declaration without the members of its body. -/
def hollow : Decl → Decl
  | .namespaceDecl code keyword name _ => .namespaceDecl code keyword name []
  | .ambient code (some d) => .ambient code (some (hollow d))
  | d => d

/-- The text and the name of a namespace, behind any number of `declare`. -/
def namespaceOf? : Decl → Option (Fragment × String)
  | .namespaceDecl code _ name _ => some (code, name)
  | .ambient _ (some d) => namespaceOf? d
  | _ => none

/-- The declaration that a statement exports. -/
def exportedDecl? : Stmt → Option Decl
  | .exportDecl _ _ d => some d
  | _ => none

/-- The declarations that stand inside so many namespaces within a declaration, each namespace
exported in the one around it. -/
def nestedIn : (levels : Nat) → Decl → List Decl
  | 0, d => [d]
  | levels + 1, d => ((bodyOf d).filterMap exportedDecl?).flatMap (nestedIn levels)

mutual

/-- The declarations exported within a declaration, at any depth of exported namespaces, in source
order. -/
def innerOf : Decl → List Decl
  | .namespaceDecl _ _ _ members => exportedWithin members
  | .ambient _ (some d) => innerOf d
  | _ => []

/-- The declarations that members export and those within them. -/
def exportedWithin : List Stmt → List Decl
  | [] => []
  | s :: rest => exportedFrom s ++ exportedWithin rest

/-- The declaration that a member exports and those within it. -/
def exportedFrom : Stmt → List Decl
  | .exportDecl _ _ d => d :: innerOf d
  | _ => []

end

theorem nestedIn_one (d : Decl) : nestedIn 1 d = (bodyOf d).filterMap exportedDecl? :=
  List.flatMap_singleton' _

theorem exportedWithin_eq (members : List Stmt) :
    exportedWithin members =
      (members.filterMap exportedDecl?).flatMap fun d => d :: innerOf d := by
  induction members with
  | nil => rfl
  | cons s rest ih =>
    rw [exportedWithin, ih]
    cases s with
    | exportDecl code isDefault d => rfl
    | _ => rfl

/-- What is exported within a declaration is what its body exports, and what is exported within
that. -/
theorem innerOf_eq (d : Decl) : innerOf d = (nestedIn 1 d).flatMap fun x => x :: innerOf x := by
  rw [nestedIn_one]
  fun_induction bodyOf d with
  | case1 => rw [innerOf, exportedWithin_eq]
  | case2 code d ih => rw [innerOf, ih]
  | case3 d noSpace noAmbient =>
    unfold innerOf
    split
    · exact absurd rfl (noSpace _ _ _ _)
    · exact absurd rfl (noAmbient _ _)
    · rfl

theorem sizeOf_lt_of_mem_nestedIn {d x : Decl} (isNested : x ∈ nestedIn 1 d) :
    sizeOf x < sizeOf d := by
  rw [nestedIn_one] at isNested
  fun_induction bodyOf d with
  | case1 code keyword name members =>
    obtain ⟨s, isMember, isExported⟩ := List.mem_filterMap.mp isNested
    have smaller := List.sizeOf_lt_of_mem isMember
    cases s with
    | exportDecl code' isDefault y =>
      cases isExported
      simp only [Stmt.exportDecl.sizeOf_spec, Decl.namespaceDecl.sizeOf_spec] at smaller ⊢
      omega
    | _ => cases isExported
  | case2 code d ih =>
    have smaller := ih isNested
    simp only [Decl.ambient.sizeOf_spec, Option.some.sizeOf_spec]
    omega
  | case3 => cases isNested

/-- What holds of a declaration if it holds of those that its body exports, holds of all. -/
theorem body_induction {P : Decl → Prop} (step : ∀ d, (∀ x ∈ nestedIn 1 d, P x) → P d) (d : Decl) :
    P d :=
  step d fun x isNested =>
    have := sizeOf_lt_of_mem_nestedIn isNested
    body_induction step x
termination_by sizeOf d

theorem mem_nestedIn_succ {levels : Nat} {d x : Decl} :
    x ∈ nestedIn (levels + 1) d ↔ ∃ y ∈ nestedIn 1 d, x ∈ nestedIn levels y := by
  rw [nestedIn_one, nestedIn, List.mem_flatMap]

/-- What is exported within a declaration stands inside some number of namespaces. -/
theorem mem_innerOf {d x : Decl} : x ∈ innerOf d ↔ ∃ levels, x ∈ nestedIn (levels + 1) d := by
  induction d using body_induction with
  | step d ih =>
    rw [innerOf_eq, List.mem_flatMap]
    constructor
    · rintro ⟨y, isNested, isInner⟩
      rcases List.mem_cons.mp isInner with rfl | isInner
      · exact ⟨0, isNested⟩
      · obtain ⟨levels, deeper⟩ := (ih y isNested).mp isInner
        exact ⟨levels + 1, mem_nestedIn_succ.mpr ⟨y, isNested, deeper⟩⟩
    · rintro ⟨levels, inside⟩
      obtain ⟨y, isNested, deeper⟩ := mem_nestedIn_succ.mp inside
      refine ⟨y, isNested, List.mem_cons.mpr ?_⟩
      cases levels with
      | zero => exact .inl (List.mem_singleton.mp deeper)
      | succ levels => exact .inr ((ih y isNested).mpr ⟨levels, deeper⟩)

/-! ## What namespaces say -/

theorem membersFacts_eq (members : List Stmt) :
    membersFacts members = (members.filterMap exportedDecl?).flatMap exportFacts := by
  induction members with
  | nil => rw [membersFacts]; rfl
  | cons s rest ih =>
    rw [membersFacts, ih]
    cases s with
    | exportDecl code isDefault d => rw [memberFacts]; rfl
    | _ => rfl

/-- Exporting a declaration says what it says without its body, and what exporting the declarations
of the body says. -/
theorem exportFacts_body (d : Decl) :
    exportFacts d = exportFacts (hollow d) ++ (nestedIn 1 d).flatMap exportFacts := by
  rw [nestedIn_one]
  fun_induction bodyOf d with
  | case1 code keyword name members =>
    rw [hollow, exportFacts, exportFacts, membersFacts_eq, membersFacts_eq]
    rfl
  | case2 code d ih => rw [hollow, exportFacts, exportFacts, ih]
  | case3 d noSpace noAmbient =>
    have unchanged : hollow d = d := by
      unfold hollow
      split
      · exact absurd rfl (noSpace _ _ _ _)
      · exact absurd rfl (noAmbient _ _)
      · rfl
    rw [unchanged]
    exact (List.append_nil _).symm

/-- So it says what the declarations at every depth say by themselves. -/
theorem exportFacts_eq (d : Decl) :
    exportFacts d =
      exportFacts (hollow d) ++ (innerOf d).flatMap fun x => exportFacts (hollow x) := by
  induction d using body_induction with
  | step d ih =>
    rw [exportFacts_body, innerOf_eq, List.flatMap_assoc]
    congr 1
    refine List.flatMap_congr fun x isNested => ?_
    rw [ih x isNested, List.flatMap_cons]

theorem declFacts_eq (d : Decl) :
    declFacts d = declFacts (hollow d) ++ (innerOf d).flatMap fun x => exportFacts (hollow x) := by
  fun_induction hollow d with
  | case1 code keyword name members =>
    rw [declFacts, declFacts, membersFacts_eq, membersFacts_eq, innerOf, exportedWithin_eq,
      List.flatMap_assoc, List.cons_append]
    congr 1
    refine List.flatMap_congr fun x _ => ?_
    rw [exportFacts_eq, List.flatMap_cons]
  | case2 code d ih => rw [declFacts, declFacts, innerOf, ih]
  | case3 d noSpace noAmbient =>
    have none : innerOf d = [] := by
      unfold innerOf
      split
      · exact absurd rfl (noSpace _ _ _ _)
      · exact absurd rfl (noAmbient _ _)
      · rfl
    rw [none]
    exact (List.append_nil _).symm

/-! ## Slots -/

/-- The slots of a declaration that is exported, without those of its body. -/
def ownSlots (d : Decl) : List Slot := (exportFacts (hollow d)).filterMap Fact.slot?

/-- The declaration of a top-level statement, and whether it is exported under its own name. -/
def topLevel? : Stmt → Option (Bool × Decl)
  | .declaration d | .namespaceLine _ d => some (false, d)
  | .exportDecl _ false d => some (true, d)
  | _ => none

/-- A top-level statement of a declaration. -/
def atTopLevel (isExported : Bool) (d : Decl) : Stmt :=
  if isExported then .exportDecl d.code false d else .declaration d

/-- The slots that a top-level declaration has if no more than the first level of its body is looked
at. -/
def shallowSlots (stmt : Stmt) : List Slot :=
  match topLevel? stmt with
  | some (isExported, d) =>
    (if isExported then ownSlots d else []) ++ (nestedIn 1 d).flatMap ownSlots
  | none => []

theorem statementFacts_topLevel (mode : Mode) {stmt : Stmt} {isExported : Bool} {d : Decl}
    (top : topLevel? stmt = some (isExported, d)) :
    statementFacts mode stmt = if isExported then exportFacts d else declFacts d := by
  unfold topLevel? at top
  split at top <;> cases top <;> rfl

/-- A top-level declaration says what it says without its body, and what the declarations within it
say where they are exported at the top level. -/
theorem statementFacts_eq (mode : Mode) {stmt : Stmt} {isExported : Bool} {d : Decl}
    (top : topLevel? stmt = some (isExported, d)) :
    statementFacts mode stmt = statementFacts mode (atTopLevel isExported (hollow d)) ++
      (innerOf d).flatMap fun x => statementFacts mode (atTopLevel true (hollow x)) := by
  rw [statementFacts_topLevel mode top]
  cases isExported with
  | true => exact exportFacts_eq d
  | false => exact declFacts_eq d

theorem ownSlots_namespace {d : Decl} {code : Fragment} {name : String}
    (isSpace : namespaceOf? d = some (code, name)) :
    ownSlots d = [.entry { name := withoutQuotes name, declaration := .namespaceDecl code.text }] ∧
      (declFacts (hollow d)).filterMap Fact.slot? = [] := by
  fun_induction namespaceOf? d with
  | case1 code keyword name members =>
    cases isSpace
    exact ⟨rfl, rfl⟩
  | case2 code d ih =>
    rw [ownSlots, hollow, exportFacts, declFacts]
    exact ih isSpace
  | case3 => cases isSpace

theorem ownSlots_ne_nil {d x : Decl} (isNested : x ∈ nestedIn 1 d) : ownSlots d ≠ [] := by
  have isSpace : ∃ code name, namespaceOf? d = some (code, name) := by
    rw [nestedIn_one] at isNested
    fun_induction bodyOf d with
    | case1 code keyword name members => exact ⟨code, name, rfl⟩
    | case2 code d ih => exact ih isNested
    | case3 => cases isNested
  obtain ⟨code, name, isSpace⟩ := isSpace
  rw [(ownSlots_namespace isSpace).1]
  exact List.cons_ne_nil _ _

section Extra

variable {α β : Type} {f g : α → List β}

theorem length_flatMap_le (l : List α) :
    (l.flatMap f).length ≤ (l.flatMap fun a => f a ++ g a).length := by
  induction l with
  | nil => exact Nat.le_refl 0
  | cons a l ih =>
    simp only [List.flatMap_cons, List.length_append]
    omega

/-- Something more for each element shows, unless it is nothing. -/
theorem flatMap_append_eq_iff {l : List α} :
    (l.flatMap fun a => f a ++ g a) = l.flatMap f ↔ ∀ a ∈ l, g a = [] := by
  constructor
  · intro same
    induction l with
    | nil => nofun
    | cons a l ih =>
      have more := length_flatMap_le (f := f) (g := g) l
      have lengths := congrArg List.length same
      simp only [List.flatMap_cons, List.length_append] at lengths
      have none : g a = [] := List.eq_nil_of_length_eq_zero (by omega)
      rw [List.flatMap_cons, List.flatMap_cons, none, List.append_nil] at same
      exact List.forall_mem_cons.mpr ⟨none, ih (List.append_cancel_left same)⟩
  · intro none
    refine List.flatMap_congr fun a member => ?_
    rw [none a member, List.append_nil]

end Extra

/-- The declarations within a declaration have no slots, if those that its body exports have none:
there is no namespace among these. -/
theorem forall_innerOf_iff {d : Decl} :
    (∀ x ∈ innerOf d, ownSlots x = []) ↔ ∀ x ∈ nestedIn 1 d, ownSlots x = [] := by
  rw [innerOf_eq]
  constructor
  · intro none x isNested
    exact none x (List.mem_flatMap.mpr ⟨x, isNested, List.mem_cons_self⟩)
  · intro none x isInner
    obtain ⟨y, isNested, isInner⟩ := List.mem_flatMap.mp isInner
    rcases List.mem_cons.mp isInner with rfl | isInner
    · exact none x isNested
    · rw [innerOf_eq] at isInner
      obtain ⟨z, deeper, -⟩ := List.mem_flatMap.mp isInner
      exact absurd (none y isNested) (ownSlots_ne_nil deeper)

/-- Looking at one level shows all slots of the declarations within a declaration exactly if none of
those that stand two levels deep has one. -/
theorem flatMap_ownSlots_iff {d : Decl} :
    (innerOf d).flatMap ownSlots = (nestedIn 1 d).flatMap ownSlots ↔
      ∀ x ∈ nestedIn 2 d, ownSlots x = [] := by
  have levels : (innerOf d).flatMap ownSlots =
      (nestedIn 1 d).flatMap fun x => ownSlots x ++ (innerOf x).flatMap ownSlots := by
    rw [innerOf_eq, List.flatMap_assoc]
    rfl
  rw [levels, flatMap_append_eq_iff]
  simp only [List.flatMap_eq_nil_iff, forall_innerOf_iff, @mem_nestedIn_succ 1]
  constructor
  · rintro none x ⟨y, isNested, deeper⟩
    exact none y isNested x deeper
  · intro none y isNested x deeper
    exact none x ⟨y, isNested, deeper⟩

/-! ## Modules -/

theorem unfoldedSlots_topLevel (mode : Mode) {stmt : Stmt} {isExported : Bool} {d : Decl}
    {code : Fragment} {name : String} (top : topLevel? stmt = some (isExported, d))
    (isSpace : namespaceOf? d = some (code, name)) :
    unfoldedSlots mode (.statement stmt) =
      (if isExported then ownSlots d else []) ++ (innerOf d).flatMap ownSlots := by
  have own : (statementFacts mode (atTopLevel isExported (hollow d))).filterMap Fact.slot? =
      if isExported then ownSlots d else [] := by
    cases isExported with
    | true => rfl
    | false => exact (ownSlots_namespace isSpace).2
  rw [unfoldedSlots, itemFacts, statementFacts_eq mode top, List.filterMap_append, own,
    List.filterMap_flatMap]
  rfl

theorem ofOutline_topLevel (mode : Mode) {stmt : Stmt} {isExported : Bool} {d : Decl}
    (top : topLevel? stmt = some (isExported, d)) (front back : List Item) (hasError : Bool) :
    ofOutline mode { items := front ++ .statement stmt :: back, hasError } =
      ofOutline mode
        { items := front ++ .statement (atTopLevel isExported (hollow d)) ::
            ((innerOf d).map (fun x => .statement (atTopLevel true (hollow x))) ++ back)
          hasError } := by
  rw [ofOutline, ofOutline, flatMap_statements, flatMap_statements]
  simp only [List.flatMap_append, List.flatMap_cons, List.flatMap_map, itemFacts,
    statementFacts_eq mode top, List.append_assoc]

/-- A namespace, whether it is exported, declared or neither, has its own slot if it is exported,
and the slots of all declarations exported within it, which may stand inside any number of
namespaces.
The first level is all of them exactly if no declaration that stands two levels deep has a slot.
The module is the same as with these declarations exported one by one behind the namespace. -/
theorem lifts_every_level (mode : Mode) (stmt : Stmt) (isExported : Bool) (d : Decl)
    (code : Fragment) (name : String) (top : topLevel? stmt = some (isExported, d))
    (isSpace : namespaceOf? d = some (code, name)) :
    let own : List Slot :=
      if isExported then
        [.entry { name := withoutQuotes name, declaration := .namespaceDecl code.text }]
      else []
    unfoldedSlots mode (.statement stmt) = own ++ (innerOf d).flatMap ownSlots ∧
      (∀ x, x ∈ innerOf d ↔ ∃ levels, x ∈ nestedIn (levels + 1) d) ∧
      shallowSlots stmt = own ++ (nestedIn 1 d).flatMap ownSlots ∧
      (unfoldedSlots mode (.statement stmt) = shallowSlots stmt ↔
        ∀ x ∈ nestedIn 2 d, ownSlots x = []) ∧
      ∀ front back hasError,
        ofOutline mode { items := front ++ .statement stmt :: back, hasError } =
          ofOutline mode
            { items := front ++ .statement (atTopLevel isExported (hollow d)) ::
                ((innerOf d).map (fun x => .statement (atTopLevel true (hollow x))) ++ back)
              hasError } := by
  intro own
  have isOwn : (if isExported then ownSlots d else []) = own := by
    rw [(ownSlots_namespace isSpace).1]
  have slots : unfoldedSlots mode (.statement stmt) = own ++ (innerOf d).flatMap ownSlots := by
    rw [unfoldedSlots_topLevel mode top isSpace, isOwn]
  have shallow : shallowSlots stmt = own ++ (nestedIn 1 d).flatMap ownSlots := by
    rw [shallowSlots, top]
    exact congrArg (· ++ _) isOwn
  refine ⟨slots, fun x => mem_innerOf, shallow, ?_, ofOutline_topLevel mode top⟩
  rw [slots, shallow, List.append_cancel_left_eq, flatMap_ownSlots_iff]

/-- A declared namespace with an exported namespace in it, which exports a type. -/
def declaredSpace : Decl :=
  .ambient ⟨0, "declare namespace A"⟩ (some (.namespaceDecl ⟨8, "namespace A"⟩ .namespaceWord "A"
    [.exportDecl ⟨9, "export namespace B"⟩ false (.namespaceDecl ⟨10, "namespace B"⟩ .namespaceWord
      "B" [.exportDecl ⟨11, "export type T = 1"⟩ false (.typeAlias ⟨12, "type T = 1"⟩ "T")])]))

theorem lifts_every_level_declared :
    topLevel? (.declaration declaredSpace) = some (false, declaredSpace) ∧
      namespaceOf? declaredSpace = some (⟨8, "namespace A"⟩, "A") ∧
      unfoldedSlots .full (.statement (.declaration declaredSpace)) =
        [.entry { name := "B", declaration := .namespaceDecl "namespace B" },
          .entry { name := "T", declaration := .typeAlias "type T = 1" }] := by
  have lifts := lifts_every_level .full (.declaration declaredSpace) false declaredSpace _ _ rfl rfl
  exact ⟨rfl, rfl, lifts.1.trans (by decide +kernel)⟩

/-- A module with a declaration inside two exported namespaces. -/
def nestedModule : Outline :=
  Outline.read .typescript
    "export namespace A \x7b export namespace B \x7b export const x = 1 \x7d \x7d"

/-- The declaration inside both namespaces has a slot of its own, which the first level does not
show. -/
theorem nested_member_lifted :
    (nestedModule.statements.map fun stmt =>
        ((topLevel? stmt).bind fun top => namespaceOf? top.2).map (·.2)) = [some "A"] ∧
      (ofOutline .full nestedModule).entries.map (·.name) = ["A", "B", "x"] ∧
      ((nestedModule.statements.flatMap shallowSlots).filterMap Slot.entry?).map (·.name) =
        ["A", "B"] := by
  decide +kernel

end ModuleAtlas.Draft
