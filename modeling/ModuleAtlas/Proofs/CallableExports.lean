import ModuleAtlas.Proofs.LinkedNames
import ModuleAtlas.Proofs.Origins
import ModuleAtlas.Proofs.Overloads

/-!
# Callables exported by name

A function, or a name bound to an arrow function or a function expression, can be exported with its
declaration, by `export { f }` under its own or another name, or by `export default f`. The first
way gives an entry while the file is read; the others give a reference that linking follows to the
local declaration (`fill_of_find?_locals`).

Both lead to an entry of the same kind with the same parameters and the same return type, but type
slices are given to entries while a file is read, and a reference is no callable then: what is
exported by name has none (`callable_exported_by_name`).
-/

namespace ModuleAtlas

open Symbols Syntax

namespace Draft

open Text (withoutQuotes)

/-! ## Declared callables -/

/-- The callable that a declaration declares under a name. -/
def callableOf (name : String) : Decl → Option Declaration
  | .function _ _ declared shape =>
    if declared = name then some (.function (callSignature shape)) else none
  | .variableNames code _ declarators =>
    ((declaredNames code.text declarators).find? (·.1 == name)).bind fun found =>
      if found.2.signature?.isSome then some found.2 else none
  | .ambient _ (some d) => callableOf name d
  | _ => none

/-- A statement that exports a local name as an entry: `export { name }`, `export { name as new }`
or `export default name`. -/
inductive ExportsName (name : String) : Stmt → Export → Prop
  | named {code : Fragment} {specifiers : List Specifier} {s : Specifier} :
    s ∈ specifiers → withoutQuotes s.name = name →
    ExportsName name (.exportNames code (.names specifiers none)) (specifierEntry none s)
  | default {code identifier : Fragment} {value : Expr} :
    value.unwrap = .identifier identifier → identifier.text = name →
    ExportsName name (.exportValue code value)
      (Export.markedDefault { name, declaration := .reference name none })

/-- Whether a fact is about a local declaration or an exported function of a name. -/
def Fact.tells (name : String) : Fact → Bool
  | .declares declared _ => declared == name
  | .exportsFunction declared _ => declared == name
  | .exports e => holdsFunction name (.entry e)
  | _ => false

section Callable

variable {name : String} {declaration : Declaration} {d : Decl}

theorem callableOf_function {code : Fragment} {form : FunctionForm} {declared : String}
    {shape : CallShape}
    (isCallable : callableOf name (.function code form declared shape) = some declaration) :
    declared = name ∧ declaration = .function (callSignature shape) := by
  rw [callableOf] at isCallable
  split at isCallable
  · next same => exact ⟨same, (Option.some.inj isCallable).symm⟩
  · cases isCallable

theorem callableOf_variableNames {code : Fragment} {lexical : Bool} {declarators : List Declarator}
    (isCallable : callableOf name (.variableNames code lexical declarators) = some declaration) :
    (declaredNames code.text declarators).find? (·.1 == name) = some (name, declaration) ∧
      ∃ s, declaration = .arrowFunction s := by
  obtain ⟨found, isFound, isCallable⟩ := Option.bind_eq_some_iff.mp isCallable
  split at isCallable
  · next called =>
    cases isCallable
    have same : found.1 = name := by simpa using List.find?_some isFound
    subst same
    refine ⟨isFound, ?_⟩
    obtain ⟨d, -, rfl⟩ := List.mem_map.mp (List.mem_of_find?_eq_some isFound)
    cases given : d.value with
    | none =>
      rw [given] at called
      cases called
    | some value =>
      rw [given] at called
      simp only at called ⊢
      unfold ofValue at called ⊢
      split at called
      · cases called
      · exact ⟨_, rfl⟩
      · cases called
  · cases isCallable

/-- Not exported, a callable is what its name stands for among the local declarations. -/
theorem find?_local?_declFacts (isCallable : callableOf name d = some declaration) :
    ((declFacts d).filterMap Fact.local?).find? (·.name == name) = some ⟨name, declaration⟩ := by
  induction d using declFacts.induct with
  | case1 code form declared shape =>
    obtain ⟨rfl, rfl⟩ := callableOf_function isCallable
    simp [declFacts, Fact.local?]
  | case6 code lexical declarators =>
    obtain ⟨found, -⟩ := callableOf_variableNames isCallable
    have locals : (declFacts (.variableNames code lexical declarators)).filterMap Fact.local? =
        (declaredNames code.text declarators).map fun named => ⟨named.1, named.2⟩ := by
      rw [declFacts, List.filterMap_map, ← List.filterMap_eq_map]
      rfl
    rw [locals, List.find?_map]
    exact congrArg (Option.map _) found
  | case8 code d ih => exact ih isCallable
  | _ => cases isCallable

/-- Exported, a callable is a function by itself or an entry. -/
theorem exportFacts_of_callableOf (isCallable : callableOf name d = some declaration) :
    (∃ s, declaration = .function s ∧ exportFacts d = [.exportsFunction name s]) ∨
      (∃ s, declaration = .arrowFunction s ∧ exported name declaration ∈ exportFacts d) := by
  induction d using declFacts.induct with
  | case1 code form declared shape =>
    obtain ⟨rfl, rfl⟩ := callableOf_function isCallable
    exact .inl ⟨_, rfl, by rw [exportFacts]⟩
  | case6 code lexical declarators =>
    obtain ⟨found, s, isArrow⟩ := callableOf_variableNames isCallable
    refine .inr ⟨s, isArrow, ?_⟩
    rw [exportFacts]
    exact List.mem_map.mpr ⟨_, List.mem_of_find?_eq_some found, rfl⟩
  | case8 code d ih =>
    rw [exportFacts]
    exact ih isCallable
  | _ => cases isCallable

end Callable

namespace ExportsName

variable {name : String} {route : Stmt} {e : Export}

theorem declaration_eq (h : ExportsName name route e) : e.declaration = .reference name none := by
  cases h with
  | @named _ _ s _ isName =>
    unfold specifierEntry
    rw [isName]
    cases s.newName with
    | some new => rfl
    | none =>
      simp only
      split <;> rfl
  | default => rfl

theorem mem_statementFacts (h : ExportsName name route e) (mode : Mode) :
    Fact.exports e ∈ statementFacts mode route := by
  cases h with
  | named member => exact List.mem_map.mpr ⟨_, member, rfl⟩
  | @default _ identifier value isIdentifier isName =>
    rw [statementFacts, defaultValueFact, isIdentifier, ← isName]
    exact List.mem_singleton_self _

/-- An export of names declares nothing. -/
theorem filterMap_local? (h : ExportsName name route e) (mode : Mode) :
    (statementFacts mode route).filterMap Fact.local? = [] := by
  refine List.filterMap_eq_nil_iff.mpr fun fact member => ?_
  cases h with
  | named =>
    obtain ⟨specifier, -, rfl⟩ := List.mem_map.mp member
    rfl
  | default =>
    rw [List.mem_singleton.mp member]
    rfl

end ExportsName

/-! ## Slots that stay -/

section Slots

variable {name : String} {slot : Slot} {facts more : List Fact}

theorem mem_addFunction {s : Signature} {slots : List Slot} (member : slot ∈ slots)
    (other : ¬ holdsFunction name slot = true) : slot ∈ addFunction name s slots := by
  induction slots with
  | nil => exact absurd member List.not_mem_nil
  | cons first rest ih =>
    rw [addFunction]
    split
    · next holds =>
      rcases List.mem_cons.mp member with rfl | member
      · exact absurd holds other
      · exact List.mem_cons_of_mem _ member
    · rcases List.mem_cons.mp member with rfl | member
      · exact List.mem_cons_self
      · exact List.mem_cons_of_mem _ (ih member)

/-- A slot stays until there is a further signature of the function in it. -/
theorem mem_slots_foldl {d : Draft} (member : slot ∈ d.slots)
    (apart : ∀ name s, Fact.exportsFunction name s ∈ facts → ¬ holdsFunction name slot = true) :
    slot ∈ (facts.foldl add d).slots := by
  induction facts generalizing d with
  | nil => exact member
  | cons fact facts ih =>
    refine ih ?_ fun name s isFact => apart name s (List.mem_cons_of_mem _ isFact)
    cases fact with
    | imports i => exact member
    | declares name declaration => exact member
    | exports e => exact List.mem_append_left _ member
    | exportsFunction name s => exact mem_addFunction member (apart name s List.mem_cons_self)
    | exportsAllOf specifier => exact List.mem_append_left _ member

/-- An entry that is no function has its slot. -/
theorem mem_slots_of_exports {e : Export} (isFact : Fact.exports e ∈ facts)
    (other : (Slot.entry e).function? = none) : Slot.entry e ∈ (ofFacts facts).slots := by
  obtain ⟨before, after, rfl⟩ := List.append_of_mem isFact
  rw [ofFacts, List.foldl_append, List.foldl_cons]
  refine mem_slots_foldl (List.mem_append_right _ (List.mem_singleton_self _)) ?_
  intro name s _ holds
  obtain ⟨s', isFunction⟩ := holdsFunction_iff.mp holds
  rw [other] at isFunction
  cases isFunction

/-- A signature gives no slot to another function. -/
theorem exists_holdsFunction_of_mem_addFunction {other : String} {s : Signature} {slots : List Slot}
    (apart : other ≠ name) (member : slot ∈ addFunction other s slots)
    (holds : holdsFunction name slot = true) : ∃ slot ∈ slots, holdsFunction name slot = true := by
  induction slots with
  | nil =>
    rw [List.mem_singleton.mp member] at holds
    exact absurd (by simpa [holdsFunction] using holds) apart
  | cons first rest ih =>
    rw [addFunction] at member
    split at member
    · next joins =>
      rcases List.mem_cons.mp member with rfl | member
      -- the slot that took the signature still holds the other function
      · refine absurd (eq_of_holdsFunction ?_ holds) apart
        cases first with
        | everything => cases joins
        | entry e =>
          obtain ⟨name', newName, isDefault, declaration, slices⟩ := e
          cases declaration <;> simp_all [holdsFunction, Slot.mapEntry, Declaration.withOverload]
      · exact ⟨slot, List.mem_cons_of_mem _ member, holds⟩
    · rcases List.mem_cons.mp member with rfl | member
      · exact ⟨slot, List.mem_cons_self, holds⟩
      · obtain ⟨slot', inRest, holds'⟩ := ih member
        exact ⟨slot', List.mem_cons_of_mem _ inRest, holds'⟩

/-- Facts that do not tell of a function leave it without a slot. -/
theorem not_holdsFunction_of_not_tells (others : ∀ fact ∈ facts, ¬ fact.tells name = true) :
    ∀ slot ∈ (ofFacts facts).slots, ¬ holdsFunction name slot = true := by
  induction facts using List.reverseRecOn with
  | nil => exact fun slot member => absurd member List.not_mem_nil
  | append_singleton facts fact ih =>
    have before := ih fun fact member => others fact (List.mem_append_left _ member)
    have last := others fact (List.mem_append_right _ (List.mem_singleton_self _))
    rw [ofFacts_concat]
    intro slot member
    cases fact with
    | imports i => exact before slot member
    | declares declared declaration => exact before slot member
    | exports e =>
      rcases List.mem_append.mp member with member | isLast
      · exact before slot member
      · rw [List.mem_singleton.mp isLast]
        exact last
    | exportsFunction other s =>
      intro holds
      have apart : other ≠ name := by simpa [Fact.tells] using last
      obtain ⟨slot', inside, holds'⟩ := exists_holdsFunction_of_mem_addFunction apart member holds
      exact before slot' inside holds'
    | exportsAllOf specifier =>
      rcases List.mem_append.mp member with member | isLast
      · exact before slot member
      · rw [List.mem_singleton.mp isLast]
        exact Bool.false_ne_true

/-- A function that is exported once has its slot. -/
theorem mem_slots_of_exportsFunction {s : Signature}
    (others : ∀ fact ∈ facts ++ more, ¬ fact.tells name = true) :
    functionSlot name s ∈ (ofFacts (facts ++ .exportsFunction name s :: more)).slots := by
  have new := not_holdsFunction_of_not_tells fun fact member =>
    others fact (List.mem_append_left _ member)
  have slots : ((ofFacts facts).add (.exportsFunction name s)).slots =
      (ofFacts facts).slots ++ [functionSlot name s] := addFunction_of_forall new
  rw [ofFacts, List.foldl_append, List.foldl_cons]
  refine mem_slots_foldl ?_ fun name' s' isFact holds => ?_
  · rw [← ofFacts, slots]
    exact List.mem_append_right _ (List.mem_singleton_self _)
  · rw [holdsFunction_functionSlot, beq_iff_eq] at holds
    subst holds
    exact others _ (List.mem_append_right _ isFact) (beq_self_eq_true name)

end Slots

/-! ## The two drafts -/

section Drafts

variable {mode : Mode} {before after : List Item} {d : Decl} {name : String}
  {declaration : Declaration} {route : Stmt} {e : Export}

theorem locals_ofOutline (mode : Mode) (o : Outline) :
    (ofOutline mode o).locals =
      o.items.flatMap fun item => (itemFacts mode item).filterMap Fact.local? := by
  have locals : (ofOutline mode o).locals =
      (ofFacts (o.statements.flatMap (statementFacts mode))).locals := rfl
  rw [locals, flatMap_statements, (imports_and_locals_ofFacts _).2, List.filterMap_flatMap]

/-- Type slices are no declarations. -/
theorem types_withTypeSlices (d : Draft) : d.withTypeSlices.types = d.types := by
  have declared : d.withTypeSlices.entries.map (fun e => (e.name, e.declaration)) =
      d.entries.map fun e => (e.name, e.declaration) := by
    rw [entries, entries, List.map_filterMap, List.map_filterMap, withTypeSlices,
      List.filterMap_map]
    refine List.filterMap_congr fun slot _ => ?_
    cases slot with
    | everything => rfl
    | entry e =>
      simp only [Function.comp, Slot.mapEntry, withSlices]
      split <;> rfl
  rw [types, declared]
  rfl

theorem mem_slots_ofOutline {slot : Slot} {o : Outline}
    (member : slot ∈ (ofFacts (o.items.flatMap (itemFacts mode))).slots) :
    slot.mapEntry (withSlices (ofOutline mode o).types) ∈ (ofOutline mode o).slots := by
  rw [← flatMap_statements] at member
  rw [ofOutline, types_withTypeSlices]
  exact List.mem_map.mpr ⟨slot, member, rfl⟩

theorem flatMap_insertIdx {α β : Type} {f : α → List β} {a : α} (silent : f a = []) (n : Nat)
    (l : List α) : (l.insertIdx n a).flatMap f = l.flatMap f := by
  induction l generalizing n with
  | nil => cases n <;> simp [silent]
  | cons b l ih => cases n <;> simp [silent, ih]

/-- Where a callable is declared once, its name leads to it. -/
theorem find?_locals_by_name (isCallable : callableOf name d = some declaration)
    (once : ∀ item ∈ before ++ after, (itemFacts mode item).any (Fact.tells name) = false)
    (exports : ExportsName name route e) (n : Nat) (hasError : Bool) :
    (ofOutline mode ⟨(before ++ .statement (.declaration d) :: after).insertIdx n
      (.statement route), hasError⟩).locals.find? (·.name == name) = some ⟨name, declaration⟩ := by
  have earlier : (before.flatMap fun item => (itemFacts mode item).filterMap Fact.local?).find?
      (·.name == name) = none := by
    refine List.find?_eq_none.mpr fun l member isName => ?_
    obtain ⟨item, isItem, isLocal⟩ := List.mem_flatMap.mp member
    obtain ⟨fact, isFact, tells⟩ := List.mem_filterMap.mp isLocal
    have silent := List.any_eq_false.mp (once item (List.mem_append_left _ isItem)) fact isFact
    cases fact with
    | declares declared declaration =>
      cases tells
      exact silent isName
    | _ => cases tells
  have here : ((itemFacts mode (.statement (.declaration d))).filterMap Fact.local?).find?
      (·.name == name) = some ⟨name, declaration⟩ := find?_local?_declFacts isCallable
  have silent : (itemFacts mode (.statement route)).filterMap Fact.local? = [] :=
    exports.filterMap_local? mode
  rw [locals_ofOutline,
    flatMap_insertIdx (f := fun item => (itemFacts mode item).filterMap Fact.local?) silent,
    List.flatMap_append, List.find?_append, earlier, Option.none_or, List.flatMap_cons,
    List.find?_append, here]
  rfl

/-- The export of the name has its slot. -/
theorem entry_mem_slots_by_name (exports : ExportsName name route e) {items : List Item}
    (member : .statement route ∈ items) (hasError : Bool) :
    Slot.entry e ∈ (ofOutline mode ⟨items, hasError⟩).slots := by
  have isReference := exports.declaration_eq
  have isFact : Fact.exports e ∈ items.flatMap (itemFacts mode) :=
    List.mem_flatMap.mpr ⟨_, member, exports.mem_statementFacts mode⟩
  have other : (Slot.entry e).function? = none := by
    obtain ⟨name', newName, isDefault, declaration, slices⟩ := e
    cases isReference
    cases newName <;> cases isDefault <;> rfl
  have inSlots := mem_slots_ofOutline (o := ⟨items, hasError⟩) (mem_slots_of_exports isFact other)
  have unchanged : withSlices (ofOutline mode ⟨items, hasError⟩).types e = e := by
    rw [withSlices, isReference]
    rfl
  rw [Slot.mapEntry, unchanged] at inSlots
  exact inSlots

/-- Exported where it is declared, a callable has its slot, with type slices. -/
theorem entry_mem_slots_inline (isCallable : callableOf name d = some declaration)
    (once : ∀ item ∈ before ++ after, (itemFacts mode item).any (Fact.tells name) = false)
    (code : Fragment) (hasError : Bool) :
    let o : Outline := ⟨before ++ .statement (.exportDecl code false d) :: after, hasError⟩
    Slot.entry (withSlices (ofOutline mode o).types { name, declaration }) ∈
      (ofOutline mode o).slots := by
  intro o
  suffices inSlots : Slot.entry { name, declaration } ∈
      (ofFacts (o.items.flatMap (itemFacts mode))).slots from mem_slots_ofOutline inSlots
  have facts : o.items.flatMap (itemFacts mode) = before.flatMap (itemFacts mode) ++
      (exportFacts d ++ after.flatMap (itemFacts mode)) := by
    rw [List.flatMap_append, List.flatMap_cons]
    rfl
  rw [facts]
  rcases exportFacts_of_callableOf isCallable with ⟨s, rfl, single⟩ | ⟨s, rfl, member⟩
  · rw [single, List.singleton_append]
    refine mem_slots_of_exportsFunction fun fact member => ?_
    rw [← List.flatMap_append] at member
    obtain ⟨item, isItem, isFact⟩ := List.mem_flatMap.mp member
    exact List.any_eq_false.mp (once item isItem) fact isFact
  · exact mem_slots_of_exports (List.mem_append_right _ (List.mem_append_left _ member)) rfl

end Drafts

theorem distinct_eq_nil {sources : List String} : distinct sources = [] ↔ sources = [] := by
  have grows (seen : List String) :
      sources.foldl (fun seen s => if seen.contains s then seen else seen ++ [s]) seen = [] ↔
        seen = [] ∧ sources = [] := by
    induction sources generalizing seen with
    | nil => simp
    | cons s sources ih =>
      rw [List.foldl_cons, ih]
      split
      · next known => cases seen <;> simp_all
      · simp
  exact (grows []).trans (and_iff_right rfl)

/-- A callable has no type slices exactly if its signature names no type of the module. -/
theorem slicesOf_eq_nil {types : List (String × String)} {e : Export} {s : Signature} :
    slicesOf types e s = [] ↔
      ∀ name ∈ mentioned (s.params ++ " " ++ s.returnType), name ≠ e.name →
        sourceOf types name = none := by
  rw [slicesOf, distinct_eq_nil, List.filterMap_eq_nil_iff]
  simp only [List.mem_filter, bne_iff_ne, and_imp]

end Draft

namespace Atlas

open Draft (Slot Mode ofOutline callableOf ExportsName itemFacts Fact.tells withSlices mentioned
  sourceOf)

/-! ## What linking keeps of a callable -/

/-- A name that leads to a declaration of the module takes it over, whatever other modules say. -/
theorem fill_of_find?_locals {d : Draft} {e : Export} {name : String} {declaration : Declaration}
    (isReference : e.declaration = .reference name none)
    (first : d.locals.find? (·.name == name) = some ⟨name, declaration⟩)
    (own : declaration.isReference = false) (table : Option Table) :
    fill d table (.entry e) = [exportAs e { name, declaration }] := by
  have chain : localReference? d name = none := by
    rw [localReference?, first]
    cases declaration with
    | reference => cases own
    | _ => rfl
  have chainEnds : chainEnd d d.locals.length name = some name := by
    cases d.locals.length with
    | zero => rw [chainEnd, chain]; rfl
    | succ fuel => rw [chainEnd, chain]
  have leads : target? d name = some (.declared { name, declaration }) := by
    rw [target?, chainEnds, Option.bind_some, targetAt, first]
  rw [fill, isReference]
  simp only [found?, leads]
  rfl

theorem typeSlices_exportAs (e found : Export) :
    (exportAs e found).typeSlices = found.typeSlices := by
  unfold exportAs
  dsimp only
  split <;> rfl

/-- The kind, the parameters and the return type of a declaration. -/
def callView (declaration : Declaration) : Kind × Option (String × String) :=
  (declaration.kind, declaration.signature?.map fun s => (s.params, s.returnType))

theorem callView_renameIn (declaration : Declaration) (old new : String) :
    callView (renameIn declaration old new) = callView declaration := by
  unfold renameIn
  split
  · rfl
  · cases declaration <;> rfl

theorem callView_exportAs (e found : Export) :
    callView (exportAs e found).declaration = callView found.declaration := by
  unfold exportAs
  dsimp only
  split
  · rfl
  · exact callView_renameIn ..

/-- A slot that gives the export `x`: linking ends, and the module has `x` unless another slot gives
the export of that name; a module that need not be linked has `x`. -/
structure Exported (d : Draft) (slot : Slot) (x : Export) : Prop where
  ends : ∀ (t : Tree) (l : Resolution.Location) (s : Session), KeepsNormal s.atlas →
    GoodStack t s.nesting.stack →
      ∃ m s', link (fetch t (load t (t.fileCount + 2)) l) l.path d s = some (m, s')
  linked : ∀ {σ : Type} (fetch : Fetch σ) (own : Path) (s s' : σ) (m : Linked),
    link fetch own d s = some (m, s') →
      x ∈ m.table.exports ∨
        ∃ k ∈ m.table.exports, k.isDefault = x.isDefault ∧ k.outerName = x.outerName ∧
          ∃ other ∈ d.slots, other ≠ slot ∧ ∃ table, k ∈ fill d table other
  settled : d.isPending = false → x ∈ d.unlinked.exports

theorem mem_filled_of_mem {d : Draft} {slots : List Slot} {fs : List Fetched} {slot : Slot}
    {x : Export} (whole : fs.length = slots.length) (member : slot ∈ slots)
    (fills : ∀ table, fill d table slot = [x]) : x ∈ filled d slots fs := by
  induction slots generalizing fs with
  | nil => exact absurd member List.not_mem_nil
  | cons first rest ih =>
    cases fs with
    | nil => cases whole
    | cons f fs =>
      rw [filled, List.mem_append]
      rcases List.mem_cons.mp member with rfl | member
      · rw [fills]
        exact .inl (List.mem_singleton_self x)
      · exact .inr (ih (Nat.succ.inj whole) member)

theorem exported_of_fill {d : Draft} {slot : Slot} {x : Export} (member : slot ∈ d.slots)
    (fills : ∀ table, fill d table slot = [x]) : Exported d slot x where
  ends t l s kept good := exists_link kept good l d
  linked fetch own s s' m linked := by
    obtain ⟨fs, answered, rfl⟩ := link_iff.mp linked
    obtain ⟨part, covers, -⟩ := distinctExports_spec (filled d d.slots fs)
    obtain ⟨k, kept, sameDefault, sameName⟩ :=
      covers x (mem_filled_of_mem answered.length_eq member fills)
    obtain ⟨other, isSlot, f, -, given⟩ := mem_filled (part.subset kept)
    by_cases same : other = slot
    · rw [same, fills, List.mem_singleton] at given
      exact .inl (given ▸ kept)
    · exact .inr ⟨k, kept, sameDefault, sameName, other, isSlot, same, _, given⟩
  settled settled := by
    have alone := List.any_eq_false.mp settled slot member
    cases slot with
    | everything => exact absurd rfl alone
    | entry e =>
      have isEntry : fill d none (.entry e) = [e] := by
        rw [fill]
        split
        · next isReference =>
          rw [Slot.isPending, isReference] at alone
          exact absurd rfl alone
        · rfl
      rw [fills] at isEntry
      cases isEntry
      exact Draft.mem_entries.mpr member

/-- A callable that is declared once is exported with its kind, parameters and return type, whether
its declaration is exported or its name. Type slices come with the declaration only: exported by
name, a callable has none, so the two exports agree in them exactly if the signature names no type
of the module. -/
theorem callable_exported_by_name {mode : Mode} {before after : List Item} {decl : Decl}
    {name : String} {callable : Declaration} (isCallable : callableOf name decl = some callable)
    (once : ∀ item ∈ before ++ after, (itemFacts mode item).any (Fact.tells name) = false)
    {route : Stmt} {e : Export} (exports : ExportsName name route e) {n : Nat}
    (inside : n ≤ (before ++ after).length + 1) (code : Fragment) :
    let inline := ofOutline mode
      { items := before ++ .statement (.exportDecl code false decl) :: after, hasError := false }
    let byName := ofOutline mode
      { items := (before ++ .statement (.declaration decl) :: after).insertIdx n (.statement route)
        hasError := false }
    ∃ x y s, callable.signature? = some s ∧
      Exported byName (.entry e) x ∧ Exported inline (.entry y) y ∧
      x.isDefault = e.isDefault ∧ (e.isDefault = false → x.outerName = e.outerName) ∧
      y.isDefault = false ∧ y.outerName = name ∧ y.declaration = callable ∧
      callView x.declaration = callView y.declaration ∧
      x.typeSlices = [] ∧
      (x.typeSlices = y.typeSlices ↔
        ∀ mention ∈ mentioned (s.params ++ " " ++ s.returnType), mention ≠ name →
          sourceOf inline.types mention = none) := by
  intro inline byName
  obtain ⟨s, isSignature, own⟩ : ∃ s, callable.signature? = some s ∧
      callable.isReference = false := by
    rcases Draft.exportFacts_of_callableOf isCallable with ⟨s, rfl, -⟩ | ⟨s, rfl, -⟩
    · exact ⟨s, rfl, rfl⟩
    · exact ⟨s, rfl, rfl⟩
  -- by name, the entry comes from linking; inline, it is in its slot already
  have length : n ≤ (before ++ Item.statement (.declaration decl) :: after).length := by
    simp only [List.length_append, List.length_cons] at inside ⊢
    omega
  have routed : Slot.entry e ∈ byName.slots :=
    Draft.entry_mem_slots_by_name exports ((List.mem_insertIdx length).mpr (.inl rfl)) false
  have found := Draft.find?_locals_by_name isCallable once exports n false
  have declared : Slot.entry (withSlices inline.types { name, declaration := callable }) ∈
      inline.slots := Draft.entry_mem_slots_inline isCallable once code false
  have sliced : withSlices inline.types { name, declaration := callable } =
      { name, declaration := callable
        typeSlices := Draft.slicesOf inline.types { name, declaration := callable } s } := by
    rw [withSlices, isSignature]
  rw [sliced] at declared
  have itself (slices : List String) (table : Option Table) :
      fill inline table (.entry { name, declaration := callable, typeSlices := slices }) =
        [{ name, declaration := callable, typeSlices := slices }] := by
    cases callable with
    | reference => cases own
    | _ => rfl
  refine ⟨exportAs e { name, declaration := callable }, _, s, isSignature,
    exported_of_fill routed (fill_of_find?_locals exports.declaration_eq found own),
    exported_of_fill declared (itself _), isDefault_exportAs e _, outerName_exportAs _, rfl, rfl,
    rfl, callView_exportAs e _, typeSlices_exportAs e _, ?_⟩
  rw [typeSlices_exportAs, eq_comm]
  exact Draft.slicesOf_eq_nil

/-- An enumeration. -/
def colorItem : Item := .statement (.declaration (.enumDecl ⟨0, "enum A\x7b\x7d"⟩ "A"))

/-- A function with a parameter of that type. -/
def paintDecl : Decl := .function ⟨8, "function f(a:A)\x7b\x7d"⟩ .function "f" ⟨["a:A"], none⟩

/-- The export of the function under another name. -/
def paintRoute : Stmt := .exportNames ⟨25, "export\x7bf as g\x7d"⟩ (.names [⟨"f", some "g"⟩] none)

theorem callable_exported_by_name_paint :
    let inline := ofOutline .full
      { items := [colorItem, .statement (.exportDecl ⟨8, ""⟩ false paintDecl)], hasError := false }
    let byName := ofOutline .full
      { items := [.statement paintRoute, colorItem, .statement (.declaration paintDecl)]
        hasError := false }
    callableOf "f" paintDecl = some (.function { params := "a:A", returnType := "" }) ∧
      (itemFacts .full colorItem).any (Fact.tells "f") = false ∧
      ExportsName "f" paintRoute (Draft.specifierEntry none ⟨"f", some "g"⟩) ∧
      ∃ x y, Exported byName (.entry (Draft.specifierEntry none ⟨"f", some "g"⟩)) x ∧
        Exported inline (.entry y) y ∧ x.outerName = "g" ∧ y.outerName = "f" ∧
        callView x.declaration = callView y.declaration ∧ x.typeSlices ≠ y.typeSlices := by
  intro inline byName
  have isCallable : callableOf "f" paintDecl =
      some (.function { params := "a:A", returnType := "" }) := by decide
  have silent : (itemFacts .full colorItem).any (Fact.tells "f") = false := by decide
  have once : ∀ item ∈ [colorItem] ++ [], (itemFacts .full item).any (Fact.tells "f") = false := by
    intro item member
    rw [List.mem_singleton.mp member]
    exact silent
  have exports : ExportsName "f" paintRoute (Draft.specifierEntry none ⟨"f", some "g"⟩) :=
    .named (List.mem_singleton_self _) (by decide)
  obtain ⟨x, y, s, isSignature, linked, linked', -, outer, -, outer', -, view, -, slices⟩ :=
    callable_exported_by_name isCallable once exports (Nat.zero_le _) ⟨8, ""⟩
  cases isSignature
  refine ⟨isCallable, silent, exports, x, y, linked, linked', outer (by decide), outer', view, ?_⟩
  intro same
  have unnamed := slices.mp same "A" (by decide) (by decide)
  exact absurd unnamed (by decide +kernel)

/-- The type slices of the exports of a text that leads to no other module, once it is linked. -/
def linkedSlices (text : String) : Option (List (String × List String)) :=
  (link (fun _ _ s => some ({}, s)) ⟨"/p/main.ts"⟩
    (ofOutline .full (Outline.read .typescript text)) ()).map fun (m, _) =>
      m.table.exports.map fun e => (e.outerName, e.typeSlices)

/-- Type slices depend on how a callable is exported. -/
theorem type_slices_lost_by_name :
    linkedSlices "enum A\x7b\x7dexport function f(a:A)\x7b\x7d" =
        some [("f", ["enum A\x7b\x7d"])] ∧
      linkedSlices "enum A\x7b\x7dfunction f(a:A)\x7b\x7dexport\x7bf\x7d" = some [("f", [])] := by
  decide +kernel

end Atlas

end ModuleAtlas
