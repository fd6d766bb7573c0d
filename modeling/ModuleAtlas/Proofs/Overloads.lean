import Mathlib.Data.List.Basic
import Mathlib.Data.List.Induction
import ModuleAtlas.Proofs.Draft

/-!
# Overloads

A function may be exported several times, once for each of its signatures. Signatures are joined
while a module is read: each one is looked for among all slots so far, where defaults, new names,
whole modules and lifted members of namespaces stand side by side.

`folded` says at once what comes of it: of the slots that the items of a module give by themselves,
each signature apart, the first of each function is kept, and it gets the signatures of all of them.
Adding a fact to a draft is a step of folding (`slots_ofFacts`), so the slots of a module are folded
from the functions that stand in its syntax tree (`exportedFunctions`), and all else in a draft
comes from the items one by one (`ofOutline_folds_overloads`). An assignment to `module.exports` is
set apart: it may give an entry that looks like a first signature.
-/

namespace ModuleAtlas.Draft

open Symbols Syntax

/-! ## Exported functions of a module -/

mutual

/-- The functions that exporting a declaration exports, in source order: each signature by itself,
those of exported members of namespaces among them. -/
def functionsOf : Decl → List (String × Signature)
  | .function _ _ name shape => [(name, callSignature shape)]
  | .namespaceDecl _ _ _ members => functionsOfMembers members
  | .ambient _ (some d) => functionsOf d
  | _ => []

/-- The functions exported by the members of a namespace. -/
def functionsOfMembers : List Stmt → List (String × Signature)
  | [] => []
  | s :: rest => functionsOfMember s ++ functionsOfMembers rest

/-- The functions exported by a member of a namespace; no member is the module's default. -/
def functionsOfMember : Stmt → List (String × Signature)
  | .exportDecl _ _ d => functionsOf d
  | _ => []

end

/-- The functions exported by a declaration that is not exported itself: those of namespaces. -/
def liftedFunctions : Decl → List (String × Signature)
  | .namespaceDecl _ _ _ members => functionsOfMembers members
  | .ambient _ (some d) => liftedFunctions d
  | _ => []

/-- The functions that a top-level statement exports, but not as the default, in source order. -/
def exportedFunctions : Stmt → List (String × Signature)
  | .exportDecl _ false d => functionsOf d
  | .declaration d | .namespaceLine _ d => liftedFunctions d
  | _ => []

/-- The signatures of the functions of a name, in order. -/
def signaturesOf (functions : List (String × Signature)) (name : String) : List Signature :=
  (functions.filter (·.1 == name)).map (·.2)

/-- All signatures of one function as one. -/
def joined (signatures : List Signature) : Signature where
  params := " | ".intercalate (signatures.map (·.params))
  returnType := " | ".intercalate (signatures.map (·.returnType))
  source := signatures.head?.bind (·.source)

theorem joined_singleton (s : Signature) : joined [s] = s := rfl

theorem joined_concat {signatures : List Signature} (nonempty : signatures ≠ []) (s : Signature) :
    joined (signatures ++ [s]) = (joined signatures).withOverload s := by
  have join (f : Signature → String) : " | ".intercalate ((signatures ++ [s]).map f) =
      " | ".intercalate (signatures.map f) ++ " | " ++ f s := by
    rw [List.map_append, String.intercalate_append_of_ne_nil]
    · rfl
    · simpa using nonempty
    · simp
  simp only [joined, Signature.withOverload, join]
  obtain ⟨first, rest, rfl⟩ := List.exists_cons_of_ne_nil nonempty
  rfl

/-! ## Slots of functions -/

/-- The function in a slot, if it is exported under its own name and not as the default. -/
def Slot.function? : Slot → Option (String × Signature)
  | .entry ⟨name, none, false, .function s, _⟩ => some (name, s)
  | _ => none

/-- The slot of a function. -/
def functionSlot (name : String) (s : Signature) : Slot :=
  .entry { name, declaration := .function s }

/-- Whether two slots hold functions of one name. -/
def sameFunction (a b : Slot) : Bool := a.function?.any fun f => holdsFunction f.1 b

theorem holdsFunction_iff {name : String} {slot : Slot} :
    holdsFunction name slot = true ↔ ∃ s, slot.function? = some (name, s) := by
  cases slot with
  | everything specifier => simp [holdsFunction, Slot.function?]
  | entry e =>
    obtain ⟨name', newName, isDefault, declaration, slices⟩ := e
    cases newName <;> cases isDefault <;> cases declaration <;>
      simp [holdsFunction, Slot.function?]

theorem eq_of_holdsFunction {name name' : String} {slot : Slot}
    (holds : holdsFunction name slot = true) (holds' : holdsFunction name' slot = true) :
    name = name' := by
  obtain ⟨s, isFunction⟩ := holdsFunction_iff.mp holds
  obtain ⟨s', isFunction'⟩ := holdsFunction_iff.mp holds'
  cases isFunction.symm.trans isFunction'
  rfl

theorem sameFunction_of_holdsFunction {name : String} {a b : Slot}
    (holds : holdsFunction name a = true) (holds' : holdsFunction name b = true) :
    sameFunction a b = true := by
  obtain ⟨s, isFunction⟩ := holdsFunction_iff.mp holds
  rw [sameFunction, isFunction]
  exact holds'

theorem holdsFunction_functionSlot (name name' : String) (s : Signature) :
    holdsFunction name (functionSlot name' s) = (name' == name) := by
  simp [holdsFunction, functionSlot]

theorem sameFunction_of_function?_eq_none {slot : Slot} (other : slot.function? = none)
    (slot' : Slot) : sameFunction slot slot' = false := by
  rw [sameFunction, other]
  rfl

/-- A slot of a function with all signatures of that function; another slot as it is. -/
def withOverloads (functions : List (String × Signature)) (slot : Slot) : Slot :=
  match slot.function? with
  | some (name, _) => functionSlot name (joined (signaturesOf functions name))
  | none => slot

/-- Slots with the signatures of each function joined, at the place of the first of them. -/
def folded (slots : List Slot) : List Slot :=
  (slots.eraseDupsBy sameFunction).map (withOverloads (slots.filterMap Slot.function?))

section Firsts

variable {α : Type} {r : α → α → Bool}

theorem eraseDupsBy_concat (l : List α) (x : α) :
    (l ++ [x]).eraseDupsBy r =
      if (l.eraseDupsBy r).any (r x) then l.eraseDupsBy r else l.eraseDupsBy r ++ [x] := by
  have loop (seen : List α) : List.eraseDupsBy.loop r (l ++ [x]) seen =
      if (List.eraseDupsBy.loop r l seen).any (r x) then List.eraseDupsBy.loop r l seen
      else List.eraseDupsBy.loop r l seen ++ [x] := by
    induction l generalizing seen with
    | nil =>
      rw [List.nil_append, List.eraseDupsBy.loop, List.eraseDupsBy.loop, List.any_reverse]
      split <;> simp_all [List.eraseDupsBy.loop]
    | cons a l ih =>
      rw [List.cons_append, List.eraseDupsBy.loop, List.eraseDupsBy.loop]
      split
      · exact ih seen
      · exact ih (a :: seen)
  exact loop []

theorem eraseDupsBy_subset (l : List α) : l.eraseDupsBy r ⊆ l := by
  induction l using List.reverseRecOn with
  | nil => exact List.Subset.refl _
  | append_singleton l x ih =>
    rw [eraseDupsBy_concat]
    split
    · exact List.subset_append_of_subset_left _ ih
    · exact List.append_subset.mpr
        ⟨List.subset_append_of_subset_left _ ih, List.subset_append_right _ _⟩

theorem pairwise_eraseDupsBy (l : List α) :
    (l.eraseDupsBy r).Pairwise fun a b => r b a = false := by
  induction l using List.reverseRecOn with
  | nil => exact .nil
  | append_singleton l x ih =>
    rw [eraseDupsBy_concat]
    split
    · exact ih
    · next fresh =>
      rw [List.pairwise_append]
      refine ⟨ih, List.pairwise_singleton _ _, fun a member b isLast => ?_⟩
      rw [List.mem_singleton.mp isLast]
      simpa using mt (fun related => List.any_eq_true.mpr ⟨a, member, related⟩) fresh

end Firsts

/-! ## Folding slot by slot -/

section Folding

variable {name : String} {s : Signature} {slot : Slot} {slots : List Slot}
  {functions : List (String × Signature)}

theorem withOverloads_of_function?_eq_none (other : slot.function? = none) :
    withOverloads functions slot = slot := by
  rw [withOverloads, other]

theorem withOverloads_of_holdsFunction (holds : holdsFunction name slot = true) :
    withOverloads functions slot = functionSlot name (joined (signaturesOf functions name)) := by
  obtain ⟨s, isFunction⟩ := holdsFunction_iff.mp holds
  rw [withOverloads, isFunction]

theorem holdsFunction_withOverloads (name : String) (functions : List (String × Signature))
    (slot : Slot) :
    holdsFunction name (withOverloads functions slot) = holdsFunction name slot := by
  cases isFunction : slot.function? with
  | none => rw [withOverloads_of_function?_eq_none isFunction]
  | some f =>
    have holds := holdsFunction_iff.mpr ⟨f.2, isFunction⟩
    rw [withOverloads_of_holdsFunction holds, holdsFunction_functionSlot, Bool.eq_iff_iff,
      beq_iff_eq]
    constructor
    · rintro rfl
      exact holds
    · exact eq_of_holdsFunction holds

theorem signaturesOf_concat (functions : List (String × Signature)) (name : String)
    (s : Signature) :
    signaturesOf (functions ++ [(name, s)]) name = signaturesOf functions name ++ [s] := by
  simp [signaturesOf]

/-- A signature of another function changes nothing about a slot. -/
theorem withOverloads_concat_of_not_holdsFunction (other : ¬ holdsFunction name slot = true) :
    withOverloads (functions ++ [(name, s)]) slot = withOverloads functions slot := by
  cases isFunction : slot.function? with
  | none =>
    rw [withOverloads_of_function?_eq_none isFunction,
      withOverloads_of_function?_eq_none isFunction]
  | some f =>
    have holds : holdsFunction f.1 slot = true := holdsFunction_iff.mpr ⟨f.2, isFunction⟩
    have apart : ¬ name = f.1 := fun same => other (same ▸ holds)
    rw [withOverloads_of_holdsFunction holds, withOverloads_of_holdsFunction holds]
    simp [signaturesOf, apart]

/-- One more signature is joined to those before. -/
theorem withOverloads_concat_of_holdsFunction (holds : holdsFunction name slot = true)
    (earlier : signaturesOf functions name ≠ []) :
    withOverloads (functions ++ [(name, s)]) slot =
      (withOverloads functions slot).mapEntry
        fun e => { e with declaration := e.declaration.withOverload s } := by
  rw [withOverloads_of_holdsFunction holds, withOverloads_of_holdsFunction holds,
    signaturesOf_concat, joined_concat earlier]
  rfl

theorem addFunction_of_forall (new : ∀ slot ∈ slots, ¬ holdsFunction name slot = true) :
    addFunction name s slots = slots ++ [functionSlot name s] := by
  induction slots with
  | nil => rfl
  | cons slot slots ih =>
    rw [addFunction, if_neg (new slot List.mem_cons_self),
      ih fun slot member => new slot (List.mem_cons_of_mem _ member), List.cons_append]

/-- Where each function has one slot, one more signature changes that slot alone. -/
theorem addFunction_map_withOverloads (earlier : signaturesOf functions name ≠ [])
    (distinct : slots.Pairwise fun a b => sameFunction b a = false)
    (old : ∃ slot ∈ slots, holdsFunction name slot = true) :
    addFunction name s (slots.map (withOverloads functions)) =
      slots.map (withOverloads (functions ++ [(name, s)])) := by
  induction slots with
  | nil =>
    obtain ⟨slot, member, -⟩ := old
    exact absurd member List.not_mem_nil
  | cons slot slots ih =>
    rw [List.pairwise_cons] at distinct
    rw [List.map_cons, List.map_cons, addFunction, holdsFunction_withOverloads]
    split
    · next holds =>
      rw [withOverloads_concat_of_holdsFunction holds earlier]
      congr 1
      refine List.map_congr_left fun slot' member => ?_
      refine (withOverloads_concat_of_not_holdsFunction fun holds' => ?_).symm
      have same := sameFunction_of_holdsFunction holds' holds
      rw [distinct.1 slot' member] at same
      cases same
    · next other =>
      rw [withOverloads_concat_of_not_holdsFunction other, ih distinct.2]
      obtain ⟨slot', member, holds⟩ := old
      rcases List.mem_cons.mp member with rfl | member
      · exact absurd holds other
      · exact ⟨slot', member, holds⟩

theorem signaturesOf_ne_nil {name : String} {slots : List Slot} :
    signaturesOf (slots.filterMap Slot.function?) name ≠ [] ↔
      ∃ slot ∈ slots, holdsFunction name slot = true := by
  simp only [holdsFunction_iff, signaturesOf, ne_eq, List.map_eq_nil_iff, List.filter_eq_nil_iff,
    List.mem_filterMap, not_forall, not_not, beq_iff_eq]
  constructor
  · rintro ⟨⟨_, s⟩, ⟨slot, member, isFunction⟩, rfl⟩
    exact ⟨slot, member, s, isFunction⟩
  · rintro ⟨slot, member, s, isFunction⟩
    exact ⟨(name, s), ⟨slot, member, isFunction⟩, rfl⟩

/-- Of each function a first slot is kept. -/
theorem exists_first {name : String} {slots : List Slot} :
    (∃ slot ∈ slots.eraseDupsBy sameFunction, holdsFunction name slot = true) ↔
      ∃ slot ∈ slots, holdsFunction name slot = true := by
  constructor
  · rintro ⟨slot, member, holds⟩
    exact ⟨slot, eraseDupsBy_subset slots member, holds⟩
  · induction slots using List.reverseRecOn with
    | nil => exact id
    | append_singleton slots last ih =>
      rintro ⟨slot, member, holds⟩
      rw [eraseDupsBy_concat]
      rcases List.mem_append.mp member with member | isLast
      · obtain ⟨first, isFirst, holds⟩ := ih ⟨slot, member, holds⟩
        refine ⟨first, ?_, holds⟩
        split
        · exact isFirst
        · exact List.mem_append_left _ isFirst
      · rw [List.mem_singleton] at isLast
        subst isLast
        split
        · next old =>
          obtain ⟨first, isFirst, same⟩ := List.any_eq_true.mp old
          obtain ⟨s, isFunction⟩ := holdsFunction_iff.mp holds
          rw [sameFunction, isFunction] at same
          exact ⟨first, isFirst, same⟩
        · exact ⟨slot, List.mem_append_right _ (List.mem_singleton_self slot), holds⟩

theorem folded_concat_of_function?_eq_none (other : slot.function? = none) :
    folded (slots ++ [slot]) = folded slots ++ [slot] := by
  have new : ¬ (slots.eraseDupsBy sameFunction).any (sameFunction slot) = true := by
    simp [sameFunction_of_function?_eq_none other]
  rw [folded, eraseDupsBy_concat, if_neg new, List.filterMap_append, List.filterMap_cons, other,
    List.filterMap_nil, List.append_nil, List.map_append, List.map_singleton,
    withOverloads_of_function?_eq_none other]
  rfl

/-- A further signature of a function is joined to the others, and a first one gets a slot. -/
theorem folded_concat_functionSlot (slots : List Slot) (name : String) (s : Signature) :
    folded (slots ++ [functionSlot name s]) = addFunction name s (folded slots) := by
  have functions : (slots ++ [functionSlot name s]).filterMap Slot.function? =
      slots.filterMap Slot.function? ++ [(name, s)] := List.filterMap_append
  rw [folded, functions, eraseDupsBy_concat, folded]
  split
  · next old =>
    rw [List.any_eq_true] at old
    refine (addFunction_map_withOverloads ?_ (pairwise_eraseDupsBy slots) old).symm
    exact signaturesOf_ne_nil.mpr (exists_first.mp old)
  · next new =>
    have others : ∀ slot ∈ slots.eraseDupsBy sameFunction, ¬ holdsFunction name slot = true :=
      fun slot member holds => new (List.any_eq_true.mpr ⟨slot, member, holds⟩)
    have alone : signaturesOf (slots.filterMap Slot.function?) name = [] := by
      by_contra some
      obtain ⟨slot, member, holds⟩ := exists_first.mpr (signaturesOf_ne_nil.mp some)
      exact others slot member holds
    have last :
        withOverloads (slots.filterMap Slot.function? ++ [(name, s)]) (functionSlot name s) =
          functionSlot name s := by
      have holds : holdsFunction name (functionSlot name s) = true := by
        rw [holdsFunction_functionSlot, beq_self_eq_true]
      rw [withOverloads_of_holdsFunction holds, signaturesOf_concat, alone, List.nil_append,
        joined_singleton]
    rw [addFunction_of_forall, List.map_append, List.map_singleton, last]
    · congr 1
      exact List.map_congr_left fun slot member =>
        withOverloads_concat_of_not_holdsFunction (others slot member)
    · intro slot member
      obtain ⟨first, isFirst, rfl⟩ := List.mem_map.mp member
      rw [holdsFunction_withOverloads]
      exact others first isFirst

end Folding

/-! ## Facts and the functions they export -/

/-- The function that a fact exports. -/
def Fact.function? : Fact → Option (String × Signature)
  | .exportsFunction name s => some (name, s)
  | _ => none

/-- Facts that export the given functions and no other entry of that kind. -/
structure Exports (functions : List (String × Signature)) (facts : List Fact) : Prop where
  functions : facts.filterMap Fact.function? = functions
  others : ∀ e, Fact.exports e ∈ facts → (Slot.entry e).function? = none

namespace Exports

theorem nil : Exports [] [] := ⟨rfl, fun _ member => absurd member List.not_mem_nil⟩

theorem append {functions functions' : List (String × Signature)} {facts facts' : List Fact}
    (h : Exports functions facts) (h' : Exports functions' facts') :
    Exports (functions ++ functions') (facts ++ facts') := by
  refine ⟨?_, fun e member => ?_⟩
  · rw [List.filterMap_append, h.functions, h'.functions]
  · exact (List.mem_append.mp member).elim (h.others e) (h'.others e)

/-- Facts none of which exports a function. -/
theorem of_forall {facts : List Fact} (none : ∀ fact ∈ facts, fact.function? = none)
    (others : ∀ e, Fact.exports e ∈ facts → (Slot.entry e).function? = .none) : Exports [] facts :=
  ⟨List.filterMap_eq_nil_iff.mpr none, others⟩

theorem singleton {fact : Fact} (none : fact.function? = none)
    (others : ∀ e, fact = .exports e → (Slot.entry e).function? = .none) : Exports [] [fact] := by
  refine of_forall (fun fact' member => ?_) fun e member => ?_
  · rw [List.mem_singleton.mp member, none]
  · exact others e (List.mem_singleton.mp member).symm

theorem entry {e : Export} (other : (Slot.entry e).function? = none) : Exports [] [.exports e] := by
  refine singleton rfl fun e' same => ?_
  cases same
  exact other

theorem flatMap {α : Type} {functions : α → List (String × Signature)} {facts : α → List Fact}
    {l : List α} (h : ∀ a ∈ l, Exports (functions a) (facts a)) :
    Exports (l.flatMap functions) (l.flatMap facts) := by
  induction l with
  | nil => exact nil
  | cons a l ih =>
    rw [List.flatMap_cons, List.flatMap_cons]
    exact (h a List.mem_cons_self).append (ih fun b member => h b (List.mem_cons_of_mem _ member))

end Exports

theorem function?_markedDefault (e : Export) : (Slot.entry e.markedDefault).function? = none := by
  obtain ⟨name, newName, isDefault, declaration, slices⟩ := e
  cases newName <;> rfl

theorem function?_of_mem_declaredNames {source name : String} {ds : List Declarator}
    {declaration : Declaration} (member : (name, declaration) ∈ declaredNames source ds) :
    (Slot.entry { name, declaration }).function? = none := by
  obtain ⟨d, -, isNamed⟩ := List.mem_map.mp member
  cases given : d.value with
  | none =>
    rw [given] at isNamed
    cases isNamed
    rfl
  | some value =>
    rw [given] at isNamed
    cases isNamed
    unfold ofValue
    split <;> rfl

mutual

theorem exports_exportFacts (d : Decl) : Exports (functionsOf d) (exportFacts d) := by
  cases d with
  | function code form name shape =>
    rw [functionsOf, exportFacts]
    exact ⟨rfl, fun e member => by simp at member⟩
  | variableNames code lexical ds =>
    rw [exportFacts]
    refine .of_forall (fun fact member => ?_) fun e member => ?_
    · obtain ⟨named, -, rfl⟩ := List.mem_map.mp member
      rfl
    · obtain ⟨named, isNamed, same⟩ := List.mem_map.mp member
      cases same
      exact function?_of_mem_declaredNames isNamed
  | namespaceDecl code keyword name members =>
    rw [functionsOf, exportFacts]
    exact (Exports.entry rfl).append (exports_membersFacts members)
  | ambient code inner =>
    cases inner with
    | none => exact .nil
    | some d =>
      rw [functionsOf, exportFacts]
      exact exports_exportFacts d
  | importAlias code => exact .nil
  | _ => exact .entry rfl

theorem exports_membersFacts (members : List Stmt) :
    Exports (functionsOfMembers members) (membersFacts members) := by
  cases members with
  | nil => exact .nil
  | cons s rest =>
    rw [functionsOfMembers, membersFacts]
    exact (exports_memberFacts s).append (exports_membersFacts rest)

theorem exports_memberFacts (s : Stmt) : Exports (functionsOfMember s) (memberFacts s) := by
  cases s with
  | exportDecl code isDefault d =>
    rw [functionsOfMember, memberFacts]
    exact exports_exportFacts d
  | _ => exact .nil

end

theorem exports_declFacts (d : Decl) : Exports (liftedFunctions d) (declFacts d) := by
  have declares (name : String) (declaration : Declaration) :
      Exports [] [.declares name declaration] := by
    refine .singleton rfl fun e same => ?_
    cases same
  induction d using declFacts.induct with
  | case6 code lexical ds =>
    refine .of_forall (fun fact member => ?_) fun e member => ?_
    · rw [declFacts] at member
      obtain ⟨named, -, rfl⟩ := List.mem_map.mp member
      rfl
    · rw [declFacts] at member
      obtain ⟨named, -, same⟩ := List.mem_map.mp member
      cases same
  | case7 code keyword name members =>
    rw [liftedFunctions, declFacts]
    exact (declares _ _).append (exports_membersFacts members)
  | case8 code d ih =>
    rw [liftedFunctions, declFacts]
    exact ih
  | case9 | case10 => exact .nil
  | _ => exact declares _ _

/-- Whether a statement assigns to `module.exports`. -/
def assignsExports : Stmt → Bool
  | .expression _ (.assignment _ target _) => Text.withoutBlanks target.text == assignedExports
  | _ => false

theorem expressionFacts_of_not_assignsExports {code : Fragment} {value : Expr}
    (unassigned : assignsExports (.expression code value) = false) :
    expressionFacts value = [] := by
  cases value with
  | assignment code target value =>
    exact if_neg (by simpa [assignsExports] using unassigned)
  | _ => rfl

/-- What a statement says exports the functions that stand in it. -/
theorem exports_statementFacts (mode : Mode) {stmt : Stmt}
    (unassigned : assignsExports stmt = false) :
    Exports (exportedFunctions stmt) (statementFacts mode stmt) := by
  cases stmt with
  | declaration d => exact exports_declFacts d
  | importing i =>
    rw [statementFacts]
    split
    · refine .of_forall (fun fact member => ?_) fun e member => ?_
      · have isImport := isImport_of_mem_importFacts member
        cases fact with
        | imports => rfl
        | _ => cases isImport
      · cases isImport_of_mem_importFacts member
    · exact .nil
  | exportDecl code isDefault d =>
    cases isDefault with
    | true => exact .entry (function?_markedDefault _)
    | false => exact exports_exportFacts d
  | exportValue code value => exact .entry (function?_markedDefault _)
  | exportNames code form =>
    cases form with
    | names specifiers source =>
      refine .of_forall (fun fact member => ?_) fun e member => ?_
      · obtain ⟨specifier, -, rfl⟩ := List.mem_map.mp member
        rfl
      · obtain ⟨specifier, -, same⟩ := List.mem_map.mp member
        cases same
        unfold specifierEntry
        cases specifier.newName with
        | some new => rfl
        | none =>
          simp only
          split <;> rfl
    | whole name source => exact .entry rfl
    | all source =>
      refine .singleton rfl fun e same => ?_
      cases same
    | none => exact .nil
  | expression code value =>
    rw [statementFacts, expressionFacts_of_not_assignsExports unassigned]
    exact .nil
  | namespaceLine code d => exact exports_declFacts d
  | plain code kind => exact .nil

/-! ## Drafts of facts -/

/-- A slot without type slices. -/
def Slot.withoutTypeSlices : Slot → Slot := mapEntry fun e => { e with typeSlices := [] }

/-- A draft without the type slices of its entries. -/
def withoutTypeSlices (d : Draft) : Draft :=
  { d with slots := d.slots.map Slot.withoutTypeSlices }

/-- The slot of a fact by itself. -/
def Fact.slot? : Fact → Option Slot
  | .exports e => some (Slot.entry e).withoutTypeSlices
  | .exportsFunction name s => some (functionSlot name s)
  | .exportsAllOf specifier => some (.everything specifier)
  | _ => none

/-- The import of a fact. -/
def Fact.import? : Fact → Option Import
  | .imports i => some i
  | _ => none

/-- The local declaration of a fact. -/
def Fact.local? : Fact → Option Local
  | .declares name declaration => some ⟨name, declaration⟩
  | _ => none

theorem ofFacts_concat (facts : List Fact) (fact : Fact) :
    ofFacts (facts ++ [fact]) = (ofFacts facts).add fact := by
  rw [ofFacts, List.foldl_append]
  rfl

/-- Imports and local declarations are collected one by one. -/
theorem imports_and_locals_ofFacts (facts : List Fact) :
    (ofFacts facts).imports = facts.filterMap Fact.import? ∧
      (ofFacts facts).locals = facts.filterMap Fact.local? := by
  induction facts using List.reverseRecOn with
  | nil => exact ⟨rfl, rfl⟩
  | append_singleton facts fact ih =>
    rw [ofFacts_concat, List.filterMap_append, List.filterMap_append, ← ih.1, ← ih.2]
    cases fact <;> simp [add, Fact.import?, Fact.local?]

theorem function?_withoutTypeSlices (slot : Slot) :
    slot.withoutTypeSlices.function? = slot.function? := by
  cases slot with
  | everything => rfl
  | entry e =>
    obtain ⟨name, newName, isDefault, declaration, slices⟩ := e
    cases newName <;> cases isDefault <;> cases declaration <;> rfl

theorem map_withoutTypeSlices_addFunction (name : String) (s : Signature) (slots : List Slot) :
    (addFunction name s slots).map Slot.withoutTypeSlices =
      addFunction name s (slots.map Slot.withoutTypeSlices) := by
  induction slots with
  | nil => rfl
  | cons slot slots ih =>
    have holds : holdsFunction name slot.withoutTypeSlices = holdsFunction name slot := by
      rw [Bool.eq_iff_iff, holdsFunction_iff, holdsFunction_iff, function?_withoutTypeSlices]
    rw [addFunction, List.map_cons, addFunction, holds]
    split
    · cases slot <;> rfl
    · rw [List.map_cons, ih]

/-- The slots of a draft are those of its facts, with the signatures of each function joined. -/
theorem slots_ofFacts {facts : List Fact}
    (others : ∀ e, Fact.exports e ∈ facts → (Slot.entry e).function? = none) :
    (ofFacts facts).withoutTypeSlices.slots = folded (facts.filterMap Fact.slot?) := by
  induction facts using List.reverseRecOn with
  | nil => rfl
  | append_singleton facts fact ih =>
    have before := ih fun e member => others e (List.mem_append_left _ member)
    have last {slot : Slot} (isSlot : fact.slot? = some slot) :
        (facts ++ [fact]).filterMap Fact.slot? = facts.filterMap Fact.slot? ++ [slot] := by
      rw [List.filterMap_append, List.filterMap_cons, isSlot]
      rfl
    have silent (none : fact.slot? = none) :
        (facts ++ [fact]).filterMap Fact.slot? = facts.filterMap Fact.slot? := by
      rw [List.filterMap_append, List.filterMap_cons, none]
      exact List.append_nil _
    rw [ofFacts_concat]
    cases fact with
    | imports i =>
      rw [silent rfl]
      exact before
    | declares name declaration =>
      rw [silent rfl]
      exact before
    | exports e =>
      have other := others e (List.mem_append_right _ (List.mem_singleton_self _))
      rw [← function?_withoutTypeSlices] at other
      rw [last rfl, folded_concat_of_function?_eq_none other, ← before]
      exact List.map_append
    | exportsFunction name s =>
      rw [last rfl, folded_concat_functionSlot, ← before]
      exact map_withoutTypeSlices_addFunction name s (ofFacts facts).slots
    | exportsAllOf specifier =>
      rw [last rfl, folded_concat_of_function?_eq_none rfl, ← before]
      exact List.map_append

theorem Exports.slots {functions : List (String × Signature)} {facts : List Fact}
    (h : Exports functions facts) :
    (facts.filterMap Fact.slot?).filterMap Slot.function? = functions := by
  rw [← h.functions, List.filterMap_filterMap]
  refine List.filterMap_congr fun fact member => ?_
  cases fact with
  | exports e => exact (function?_withoutTypeSlices (.entry e)).trans (h.others e member)
  | _ => rfl

/-! ## What folding keeps -/

/-- Of each function there is one slot, with all its signatures. -/
theorem filter_holdsFunction_folded (slots : List Slot) (name : String) :
    let signatures := signaturesOf (slots.filterMap Slot.function?) name
    (folded slots).filter (holdsFunction name) =
      if signatures = [] then [] else [functionSlot name (joined signatures)] := by
  intro signatures
  have kept : (folded slots).filter (holdsFunction name) =
      ((slots.eraseDupsBy sameFunction).filter (holdsFunction name)).map fun _ =>
        functionSlot name (joined signatures) := by
    have holds : holdsFunction name ∘ withOverloads (slots.filterMap Slot.function?) =
        holdsFunction name := funext (holdsFunction_withOverloads name _)
    rw [folded, List.filter_map, holds]
    refine List.map_congr_left fun slot member => ?_
    exact withOverloads_of_holdsFunction (List.mem_filter.mp member).2
  have distinct := (pairwise_eraseDupsBy (r := sameFunction) slots).filter (holdsFunction name)
  have some : (slots.eraseDupsBy sameFunction).filter (holdsFunction name) ≠ [] ↔
      signatures ≠ [] := by
    rw [signaturesOf_ne_nil, ← exists_first]
    simp
  rw [kept]
  cases found : (slots.eraseDupsBy sameFunction).filter (holdsFunction name) with
  | nil =>
    rw [if_pos (not_not.mp (mt some.mpr (not_not.mpr found)))]
    rfl
  | cons first rest =>
    rw [if_neg (some.mp (found ▸ List.cons_ne_nil first rest))]
    cases rest with
    | nil => rfl
    | cons second rest =>
      -- two slots of one function are not both kept
      have holds {slot : Slot} (member : slot ∈ first :: second :: rest) :
          holdsFunction name slot = true := (List.mem_filter.mp (found ▸ member)).2
      rw [found, List.pairwise_cons] at distinct
      have same := sameFunction_of_holdsFunction
        (holds (List.mem_cons_of_mem _ List.mem_cons_self)) (holds List.mem_cons_self)
      rw [distinct.1 second List.mem_cons_self] at same
      cases same

/-- All other slots stay as they are. -/
theorem filter_isNone_folded (slots : List Slot) :
    (folded slots).filter (·.function?.isNone) = slots.filter (·.function?.isNone) := by
  have firsts : (slots.eraseDupsBy sameFunction).filter (·.function?.isNone) =
      slots.filter (·.function?.isNone) := by
    induction slots using List.reverseRecOn with
    | nil => rfl
    | append_singleton slots last ih =>
      rw [eraseDupsBy_concat, List.filter_append, ← ih]
      split
      · next old =>
        obtain ⟨first, -, same⟩ := List.any_eq_true.mp old
        have isFunction : ¬ last.function?.isNone = true := by
          rw [Option.isNone_iff_eq_none]
          intro other
          rw [sameFunction_of_function?_eq_none other] at same
          cases same
        have none : [last].filter (·.function?.isNone) = [] := List.filter_cons_of_neg isFunction
        rw [none, List.append_nil]
      · exact List.filter_append ..
  have other : (·.function?.isNone) ∘ withOverloads (slots.filterMap Slot.function?) =
      (·.function?.isNone) := by
    funext slot
    cases isFunction : slot.function? with
    | none => rw [Function.comp, withOverloads_of_function?_eq_none isFunction, isFunction]
    | some f =>
      rw [Function.comp, withOverloads, isFunction]
      rfl
  rw [folded, List.filter_map, other, firsts]
  refine (List.map_congr_left fun slot member => ?_).trans (List.map_id _)
  have other := (List.mem_filter.mp member).2
  exact withOverloads_of_function?_eq_none (Option.isNone_iff_eq_none.mp other)

/-! ## Drafts of modules -/

/-- What an item of a module says. -/
def itemFacts (mode : Mode) : Item → List Fact
  | .statement stmt => statementFacts mode stmt
  | _ => []

theorem flatMap_statements (mode : Mode) (o : Outline) :
    o.statements.flatMap (statementFacts mode) = o.items.flatMap (itemFacts mode) := by
  rw [Outline.statements, List.filterMap_eq_flatMap_toList, List.flatMap_assoc]
  refine congrArg (o.items.flatMap ·) (funext fun item => ?_)
  cases item with
  | statement stmt => exact List.append_nil _
  | _ => rfl

/-- The slots of an item by itself, each signature of a function apart. -/
def unfoldedSlots (mode : Mode) (item : Item) : List Slot :=
  (itemFacts mode item).filterMap Fact.slot?

theorem filterMap_slot?_itemFacts (mode : Mode) (items : List Item) :
    (items.flatMap (itemFacts mode)).filterMap Fact.slot? = items.flatMap (unfoldedSlots mode) :=
  List.filterMap_flatMap ..

/-- The draft of a module with a single item, without type slices. -/
def alone (mode : Mode) (item : Item) : Draft :=
  (ofOutline mode { items := [item], hasError := false }).withoutTypeSlices

theorem withoutTypeSlices_withTypeSlices (d : Draft) :
    d.withTypeSlices.withoutTypeSlices = d.withoutTypeSlices := by
  have slots : (d.slots.map (Slot.mapEntry (withSlices d.types))).map Slot.withoutTypeSlices =
      d.slots.map Slot.withoutTypeSlices := by
    refine List.map_map.trans (List.map_congr_left fun slot _ => ?_)
    cases slot with
    | everything => rfl
    | entry e =>
      simp only [Function.comp, Slot.mapEntry, withSlices]
      split <;> rfl
  rw [withoutTypeSlices, withTypeSlices, slots]
  rfl

theorem withoutTypeSlices_ofOutline (mode : Mode) (o : Outline) :
    (ofOutline mode o).withoutTypeSlices =
      (ofFacts (o.items.flatMap (itemFacts mode))).withoutTypeSlices := by
  rw [ofOutline, withoutTypeSlices_withTypeSlices, flatMap_statements]

theorem alone_eq (mode : Mode) (item : Item) :
    alone mode item = (ofFacts (itemFacts mode item)).withoutTypeSlices := by
  rw [alone, withoutTypeSlices_ofOutline, List.flatMap_singleton]

/-- The kinds of statement that say something. -/
def tellingKinds : List String :=
  ["import_statement", "export_statement", "function_declaration",
    "generator_function_declaration", "function_signature", "class_declaration",
    "abstract_class_declaration", "interface_declaration", "type_alias_declaration",
    "enum_declaration", "lexical_declaration", "variable_declaration", "internal_module", "module",
    "ambient_declaration", "expression_statement"]

theorem declFacts_of_kindName {d : Decl} (other : d.kindName ∉ tellingKinds) :
    declFacts d = [] := by
  cases d with
  | function code form =>
    cases form <;> simp [Decl.kindName, FunctionForm.kindName, tellingKinds] at other
  | classDecl code isAbstract => cases isAbstract <;> simp [Decl.kindName, tellingKinds] at other
  | variableNames code lexical => cases lexical <;> simp [Decl.kindName, tellingKinds] at other
  | namespaceDecl code keyword =>
    cases keyword <;> simp [Decl.kindName, NamespaceKeyword.kindName, tellingKinds] at other
  | importAlias code => rfl
  | _ => simp [Decl.kindName, tellingKinds] at other

theorem itemFacts_of_kindName (mode : Mode) {item : Item} (other : item.kindName ∉ tellingKinds) :
    itemFacts mode item = [] := by
  cases item with
  | statement stmt =>
    cases stmt with
    | plain => rfl
    | declaration d => exact declFacts_of_kindName other
    | _ => simp [Item.kindName, Stmt.kindName, tellingKinds] at other
  | _ => rfl

theorem exports_itemFacts (mode : Mode) {o : Outline}
    (unassigned : o.statements.any assignsExports = false) :
    Exports (o.statements.flatMap exportedFunctions) (o.items.flatMap (itemFacts mode)) := by
  rw [← flatMap_statements]
  refine .flatMap fun stmt member => exports_statementFacts mode ?_
  rw [List.any_eq_false] at unassigned
  simpa using unassigned stmt member

/-- Without assigned exports, the slots of a module are those of its items, folded. -/
theorem slots_ofOutline (mode : Mode) {o : Outline}
    (unassigned : o.statements.any assignsExports = false) :
    (ofOutline mode o).withoutTypeSlices.slots = folded (o.items.flatMap (unfoldedSlots mode)) := by
  rw [withoutTypeSlices_ofOutline, slots_ofFacts (exports_itemFacts mode unassigned).others,
    filterMap_slot?_itemFacts]

/-- What facts add one by one, a module has from its items one by one. -/
theorem flatMap_alone {α : Type} {field : Draft → List α} {part : Fact → Option α}
    (collects : ∀ facts, field (ofFacts facts).withoutTypeSlices = facts.filterMap part)
    (mode : Mode) (o : Outline) :
    field (ofOutline mode o).withoutTypeSlices =
      o.items.flatMap fun item => field (alone mode item) := by
  rw [withoutTypeSlices_ofOutline, collects, List.filterMap_flatMap]
  refine congrArg (o.items.flatMap ·) (funext fun item => ?_)
  rw [alone_eq, collects]

/-- In a module without assigned exports each exported function has one slot, which stands where
the first of its signatures stands and joins them all. The other slots, the imports and the local
declarations are those of the items one by one, and items of any other kind give nothing. -/
theorem ofOutline_folds_overloads (mode : Mode) (o : Outline)
    (unassigned : o.statements.any assignsExports = false) :
    let d := (ofOutline mode o).withoutTypeSlices
    let functions := o.statements.flatMap exportedFunctions
    (∀ name, d.slots.filter (holdsFunction name) =
        if signaturesOf functions name = [] then []
        else [functionSlot name (joined (signaturesOf functions name))]) ∧
      d.slots = ((o.items.flatMap (unfoldedSlots mode)).eraseDupsBy sameFunction).map
        (withOverloads functions) ∧
      d.slots.filter (·.function?.isNone) =
        o.items.flatMap (fun item => (alone mode item).slots.filter (·.function?.isNone)) ∧
      d.imports = o.items.flatMap (fun item => (alone mode item).imports) ∧
      d.locals = o.items.flatMap (fun item => (alone mode item).locals) ∧
      ∀ item ∈ o.items, item.kindName ∉ tellingKinds → alone mode item = {} := by
  intro d functions
  have exports : Exports functions (o.items.flatMap (itemFacts mode)) :=
    exports_itemFacts mode unassigned
  have slots : d.slots = folded (o.items.flatMap (unfoldedSlots mode)) :=
    slots_ofOutline mode unassigned
  have found : (o.items.flatMap (unfoldedSlots mode)).filterMap Slot.function? = functions := by
    rw [← exports.slots, filterMap_slot?_itemFacts]
  have slotsAlone (item : Item) (member : item ∈ o.items) :
      (alone mode item).slots = folded (unfoldedSlots mode item) := by
    rw [alone_eq]
    refine slots_ofFacts fun e isFact => exports.others e ?_
    exact List.mem_flatMap.mpr ⟨item, member, isFact⟩
  refine ⟨fun name => ?_, ?_, ?_, ?_, ?_, fun item _ other => ?_⟩
  · rw [slots, filter_holdsFunction_folded, found]
  · rw [slots, folded, found]
  · rw [slots, filter_isNone_folded, List.filter_flatMap]
    refine List.flatMap_congr fun item member => ?_
    rw [slotsAlone item member, filter_isNone_folded]
  · exact flatMap_alone (fun facts => (imports_and_locals_ofFacts facts).1) mode o
  · exact flatMap_alone (fun facts => (imports_and_locals_ofFacts facts).2) mode o
  · rw [alone_eq, itemFacts_of_kindName mode other]
    rfl

/-- A module that declares a function in a namespace and again at the top level, with a broken
stretch between, and exports another function of that name as the default. -/
def overloadedModule : Outline where
  items :=
    let code : Fragment := ⟨0, ""⟩
    let shape (param type : String) : CallShape := ⟨[param], some type⟩
    [.statement (.declaration (.ambient code (some (.namespaceDecl code .moduleWord "m"
        [.exportDecl code false (.function code .signature "f" (shape "a: A" ": B"))])))),
      .broken code,
      .statement (.exportDecl code false (.function code .function "f" (shape "b: C" ": D"))),
      .statement (.exportDecl code true (.function code .function "f" (shape "c: E" ": F")))]
  hasError := true

theorem overloadedModule_folds :
    overloadedModule.statements.any assignsExports = false ∧
      (ofOutline .full overloadedModule).withoutTypeSlices.slots.filter (holdsFunction "f") =
        [functionSlot "f" { params := "a: A | b: C", returnType := "B | D" }] := by
  have unassigned : overloadedModule.statements.any assignsExports = false := by decide
  have folds := (ofOutline_folds_overloads .full overloadedModule unassigned).1 "f"
  exact ⟨unassigned, folds.trans (by decide +kernel)⟩

end ModuleAtlas.Draft
