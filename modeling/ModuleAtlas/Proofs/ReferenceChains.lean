import Mathlib.Data.List.Perm.Subperm
import ModuleAtlas.Proofs.CallableExports
import ModuleAtlas.Proofs.Lifting

/-!
# Chains of local references

A local declaration may say no more than that its name is another name of something (`Refers`).
From every name such steps lead on, over names that are all different (`Chain`), to a name that
refers to nothing or back to a name passed before. The names passed all have declarations, so there
are no more of them than of those.

A chain that runs back leads to nothing. At the end of any other, the last name stands for the first
thing that has it: a local declaration, an imported binding, an export that is no reference
(`EndsAt`). Both together are `follows_chain`. No local reference is ever what a name leads to.
-/

namespace ModuleAtlas

/-! ## First elements -/

/-- The first element of a list that fits. -/
def IsFirst {α : Type} (fits : α → Prop) (xs : List α) (x : α) : Prop :=
  fits x ∧ ∃ front back, xs = front ++ x :: back ∧ ∀ y ∈ front, ¬fits y

section IsFirst

variable {α : Type} {xs : List α} {x : α}

theorem find?_eq_some_iff_isFirst {p : α → Bool} :
    xs.find? p = some x ↔ IsFirst (p · = true) xs x := by
  simp only [List.find?_eq_some_iff_append, IsFirst, Bool.not_eq_true', Bool.not_eq_true]

theorem find?_beq_eq_some_iff {f : α → String} {name : String} :
    xs.find? (f · == name) = some x ↔ IsFirst (f · = name) xs x := by
  simp only [find?_eq_some_iff_isFirst, beq_iff_eq]

theorem find?_beq_eq_none_iff {f : α → String} {name : String} :
    xs.find? (f · == name) = none ↔ ∀ y ∈ xs, f y ≠ name := by
  simp only [List.find?_eq_none, beq_iff_eq, ne_eq]

end IsFirst

/-! ## Local declarations of files -/

namespace Draft

open Symbols Syntax

theorem filterMap_local?_exportFacts (d : Decl) : (exportFacts d).filterMap Fact.local? = [] := by
  induction d using body_induction with
  | step d ih =>
    rw [exportFacts_body, List.filterMap_append, List.append_eq_nil_iff, List.filterMap_flatMap,
      List.flatMap_eq_nil_iff]
    refine ⟨?_, ih⟩
    clear ih
    fun_induction hollow d with
    | case1 => rfl
    | case2 code d ih => rw [exportFacts, ih]
    | case3 d noSpace noAmbient =>
      cases d with
      | variableNames code lexical declarators =>
        rw [exportFacts, List.filterMap_map]
        exact List.filterMap_eq_nil_iff.mpr fun _ _ => rfl
      | namespaceDecl => exact absurd rfl (noSpace _ _ _ _)
      | ambient code inner =>
        cases inner with
        | none => rfl
        | some d => exact absurd rfl (noAmbient _ _)
      | _ => rfl

theorem origin_of_ofValue {value : Expr} {declaredType : Option String} {source target : String}
    {origin : Option String}
    (isReference : ofValue value declaredType source = .reference target origin) :
    origin = none := by
  unfold ofValue at isReference
  split at isReference <;> cases isReference
  rfl

/-- What is declared and not exported may be another name of something in its own module only. -/
theorem origin_of_mem_declFacts {d : Decl} {l : Local} {target : String} {origin : Option String}
    (member : l ∈ (declFacts d).filterMap Fact.local?)
    (isReference : l.declaration = .reference target origin) : origin = none := by
  fun_induction declFacts d with
  | case6 code lexical declarators =>
    rw [List.filterMap_map] at member
    obtain ⟨⟨name, declaration⟩, isDeclared, isLocal⟩ := List.mem_filterMap.mp member
    cases isLocal
    obtain ⟨declarator, -, isNamed⟩ := List.mem_map.mp isDeclared
    dsimp only at isNamed isReference
    split at isNamed
    · cases isNamed
      exact origin_of_ofValue isReference
    · cases isNamed
      cases isReference
  | case7 code keyword name members =>
    rw [List.filterMap_cons, membersFacts_eq, List.filterMap_flatMap,
      List.flatMap_eq_nil_iff.mpr fun x _ => filterMap_local?_exportFacts x] at member
    cases List.mem_singleton.mp member
    cases isReference
  | case8 code d ih => exact ih member
  | case9 => cases member
  | case10 => cases member
  | _ =>
    cases List.mem_singleton.mp member
    cases isReference

/-- Only declarations that are not exported declare something. -/
theorem exists_declFacts_of_local? {mode : Mode} {stmt : Stmt} {l : Local}
    (member : l ∈ (statementFacts mode stmt).filterMap Fact.local?) :
    ∃ d, l ∈ (declFacts d).filterMap Fact.local? := by
  obtain ⟨fact, isSaid, isLocal⟩ := List.mem_filterMap.mp member
  have only {f : Fact} (isSaid : fact ∈ [f]) : f.local? = some l :=
    List.mem_singleton.mp isSaid ▸ isLocal
  cases stmt with
  | declaration d => exact ⟨d, member⟩
  | namespaceLine code d => exact ⟨d, member⟩
  | importing i =>
    rw [statementFacts] at isSaid
    split at isSaid
    · have isImport := isImport_of_mem_importFacts isSaid
      cases fact with
      | imports => cases isLocal
      | _ => cases isImport
    · cases isSaid
  | exportDecl code isDefault d =>
    cases isDefault with
    | true => cases only isSaid
    | false =>
      rw [statementFacts, filterMap_local?_exportFacts] at member
      cases member
  | exportValue code value => cases only isSaid
  | exportNames code form =>
    cases form with
    | names specifiers source =>
      obtain ⟨specifier, -, rfl⟩ := List.mem_map.mp isSaid
      cases isLocal
    | none => cases isSaid
    | _ => cases only isSaid
  | expression code value =>
    rw [statementFacts] at isSaid
    unfold expressionFacts at isSaid
    split at isSaid
    · split at isSaid
      · split at isSaid
        · cases only isSaid
        · cases only isSaid
        · cases only isSaid
        · cases isSaid
      · cases isSaid
    · cases isSaid
  | plain => cases isSaid

/-- The local declarations of a file refer to no other module. -/
theorem origin_of_mem_locals {mode : Mode} {path : Path} {content : String} {d : Draft}
    (isFile : ofFile mode path content = .ok d) {l : Local} (member : l ∈ d.locals)
    {target : String} {origin : Option String}
    (isReference : l.declaration = .reference target origin) : origin = none := by
  rw [← ofFile?_eq_some, ofFile?_eq] at isFile
  split at isFile
  · cases isFile
    unfold ofData at member
    split at member <;> cases member
  · obtain ⟨dialect, -, rfl⟩ := Option.map_eq_some_iff.mp isFile
    rw [locals_ofOutline] at member
    obtain ⟨item, -, member⟩ := List.mem_flatMap.mp member
    cases item with
    | statement stmt =>
      obtain ⟨declared, member⟩ := exists_declFacts_of_local? member
      exact origin_of_mem_declFacts member isReference
    | _ => cases member

end Draft

namespace Atlas

open Draft (Slot Mode)
open Symbols

/-! ## Chains -/

/-- A name is only another name of the target: the first local declaration of the name says so. -/
def Refers (d : Draft) (name target : String) : Prop :=
  IsFirst (·.name = name) d.locals ⟨name, .reference target none⟩

/-- The names from one name to another along local references, each of them passed once. -/
inductive Chain (d : Draft) : String → List String → String → Prop
  | single (name : String) : Chain d name [name] name
  | step {name next last : String} {names : List String} (refers : Refers d name next)
      (rest : Chain d next names last) (new : name ∉ names) : Chain d name (name :: names) last

/-- What following a name gives that refers to no other: the first local declaration of the name,
else what the first import of the name is bound to, else the first export of the name that is no
reference, else nothing. -/
inductive EndsAt {σ : Type} (fetch : Fetch σ) (d : Draft) (last : String) (s : σ) :
    Option ((Option Export × List Path) × σ) → Prop
  | declared {l : Local} (first : IsFirst (·.name = last) d.locals l) :
      EndsAt fetch d last s (some ((some { name := l.name, declaration := l.declaration }, []), s))
  | imported {i : Import} (noLocal : ∀ l ∈ d.locals, l.name ≠ last)
      (first : IsFirst (·.localName = last) d.imports i) :
      EndsAt fetch d last s (followImport fetch i s)
  | exported {e : Export} (noLocal : ∀ l ∈ d.locals, l.name ≠ last)
      (noImport : ∀ i ∈ d.imports, i.localName ≠ last)
      (first : IsFirst (fun e => e.name = last ∧ e.declaration.isReference = false) d.entries e) :
      EndsAt fetch d last s (some ((some e, []), s))
  | nothing (noLocal : ∀ l ∈ d.locals, l.name ≠ last)
      (noImport : ∀ i ∈ d.imports, i.localName ≠ last)
      (noExport : ∀ e ∈ d.entries, e.name = last → e.declaration.isReference = true) :
      EndsAt fetch d last s (some ((none, []), s))

section Chains

variable {d : Draft} {name next last : String} {names : List String}

theorem localReference?_eq_some_iff : localReference? d name = some next ↔ Refers d name next := by
  rw [Refers, ← @find?_beq_eq_some_iff _ _ _ Local.name, localReference?]
  constructor
  · intro found
    split at found
    · next l target first =>
      cases found
      have named : l = name := (find?_beq_eq_some_iff.mp first).1
      rw [first, named]
    · cases found
  · intro first
    rw [first]

theorem localReference?_eq_none_iff :
    localReference? d name = none ↔ ∀ next, ¬Refers d name next := by
  simp only [Option.eq_none_iff_forall_ne_some, ne_eq, localReference?_eq_some_iff]

theorem Refers.mem_locals (refers : Refers d name next) : name ∈ d.locals.map (·.name) := by
  obtain ⟨-, front, back, locals, -⟩ := refers
  rw [locals]
  simp

namespace Chain

theorem first_mem (chain : Chain d name names last) : name ∈ names := by
  cases chain <;> exact List.mem_cons_self

theorem nodup (chain : Chain d name names last) : names.Nodup := by
  induction chain with
  | single name => exact List.nodup_singleton name
  | step _ _ new ih => exact List.nodup_cons.mpr ⟨new, ih⟩

/-- Each name of a chain but the last refers to one of the chain. -/
theorem refers_of_mem (chain : Chain d name names last) {x : String} (member : x ∈ names) :
    x = last ∨ ∃ y ∈ names, Refers d x y := by
  induction chain with
  | single name => exact .inl (List.mem_singleton.mp member)
  | step refers rest new ih =>
    rcases List.mem_cons.mp member with rfl | member
    · exact .inr ⟨_, List.mem_cons_of_mem _ rest.first_mem, refers⟩
    · exact (ih member).imp_right fun ⟨y, isNext, refers⟩ =>
        ⟨y, List.mem_cons_of_mem _ isNext, refers⟩

/-- All names of a chain but the last are declared, so they are no more than the declarations. -/
theorem length_le (chain : Chain d name names last) : names.length ≤ d.locals.length + 1 := by
  have within : names ⊆ last :: d.locals.map (·.name) := by
    intro x member
    rcases chain.refers_of_mem member with rfl | ⟨y, -, refers⟩
    · exact List.mem_cons_self
    · exact List.mem_cons_of_mem _ refers.mem_locals
  simpa using (chain.nodup.subperm within).length_le

/-- A chain goes on over a name that it has not passed. -/
theorem snoc (chain : Chain d name names last) (refers : Refers d last next) (new : next ∉ names) :
    Chain d name (names ++ [next]) next := by
  induction chain with
  | single name =>
    exact .step refers (.single next) fun same =>
      new (List.mem_singleton.mp same ▸ List.mem_cons_self)
  | step before rest unseen ih =>
    rw [List.mem_cons, not_or] at new
    refine .step before (ih refers new.2) fun member => ?_
    rcases List.mem_append.mp member with member | same
    · exact unseen member
    · exact new.1 (List.mem_singleton.mp same).symm

/-- With steps for all names but the last, a chain is followed to its end. -/
theorem chainEnd_eq_some (chain : Chain d name names last) (ends : ∀ next, ¬Refers d last next)
    {fuel : Nat} (enough : names.length ≤ fuel + 1) : chainEnd d fuel name = some last := by
  induction chain generalizing fuel with
  | single name =>
    have none := localReference?_eq_none_iff.mpr ends
    cases fuel with
    | zero => rw [chainEnd, none]; rfl
    | succ fuel => rw [chainEnd, none]
  | step refers rest new ih =>
    cases fuel with
    | zero =>
      have nonempty := List.length_pos_of_mem rest.first_mem
      rw [List.length_cons] at enough
      omega
    | succ fuel =>
      rw [chainEnd, localReference?_eq_some_iff.mpr refers]
      exact ih ends (Nat.le_of_succ_le_succ enough)

end Chain

/-- Among names that all refer to one another no name is the last one. -/
theorem chainEnd_eq_none (closed : ∀ x ∈ names, ∃ y ∈ names, Refers d x y) (fuel : Nat)
    (member : name ∈ names) : chainEnd d fuel name = none := by
  induction fuel generalizing name with
  | zero =>
    obtain ⟨y, -, refers⟩ := closed name member
    rw [chainEnd, localReference?_eq_some_iff.mpr refers]
    rfl
  | succ fuel ih =>
    obtain ⟨y, isNext, refers⟩ := closed name member
    rw [chainEnd, localReference?_eq_some_iff.mpr refers]
    exact ih isNext

/-- Every chain goes on until it runs back or ends. -/
theorem Chain.exists_complete {names : List String} {last : String}
    (chain : Chain d name names last) :
    ∃ all final, Chain d name all final ∧
      ((∃ again ∈ all, Refers d final again) ∨ ∀ next, ¬Refers d final next) := by
  by_cases complete : (∃ again ∈ names, Refers d last again) ∨ ∀ next, ¬Refers d last next
  · exact ⟨names, last, chain, complete⟩
  · obtain ⟨noReturn, goesOn⟩ := not_or.mp complete
    obtain ⟨next, refers⟩ := not_forall_not.mp goesOn
    have longer := chain.snoc refers fun seen => noReturn ⟨next, seen, refers⟩
    -- No chain is longer than the declarations allow, so fewer names are left to be passed.
    have room : names.length ≤ d.locals.length := by simpa using longer.length_le
    exact longer.exists_complete
termination_by d.locals.length + 1 - names.length
decreasing_by
  rw [List.length_append, List.length_singleton]
  omega

end Chains

/-! ## Ends -/

/-- A name that refers to no other is what it stands for itself. -/
theorem endsAt_targetAt {σ : Type} (fetch : Fetch σ) (d : Draft) (last : String) (s : σ) :
    EndsAt fetch d last s
      (match targetAt d last with
        | some (.declared e) => some ((some e, []), s)
        | some (.imported i) => followImport fetch i s
        | none => some ((none, []), s)) := by
  unfold targetAt
  cases isLocal : d.locals.find? (·.name == last) with
  | some l => exact .declared (find?_beq_eq_some_iff.mp isLocal)
  | none =>
    have noLocal := find?_beq_eq_none_iff.mp isLocal
    cases isImport : d.imports.find? (·.localName == last) with
    | some i => exact .imported noLocal (find?_beq_eq_some_iff.mp isImport)
    | none =>
      have noImport := find?_beq_eq_none_iff.mp isImport
      cases isExport : d.entries.find? fun e => e.name == last && !e.declaration.isReference with
      | some e =>
        refine .exported noLocal noImport ?_
        simpa only [Bool.and_eq_true, beq_iff_eq, Bool.not_eq_true'] using
          find?_eq_some_iff_isFirst.mp isExport
      | none =>
        refine .nothing noLocal noImport fun e member named => ?_
        simpa [named] using List.find?_eq_none.mp isExport e member

theorem not_refers_of_chainEnd {d : Draft} {fuel : Nat} {name last next : String}
    (ends : chainEnd d fuel name = some last) : ¬Refers d last next := by
  rw [← localReference?_eq_some_iff]
  fun_induction chainEnd d fuel name with
  | case1 name isReference => cases ends
  | case2 name noReference =>
    cases ends
    exact fun leads => noReference (leads ▸ rfl)
  | case3 fuel name target isReference ih => exact ih ends
  | case4 fuel name noReference =>
    cases ends
    exact fun leads => Option.some_ne_none _ (leads.symm.trans noReference)

/-- What a name leads to in the module is no reference, or a local declaration that refers to
another module: one that refers inside the module would have been followed, and exports that are
references are passed over. -/
theorem isReference_of_target? {d : Draft} {name : String} {e : Export}
    (leads : target? d name = some (.declared e)) :
    e.declaration.isReference = false ∨
      ∃ l ∈ d.locals, ∃ target specifier,
        e.declaration = l.declaration ∧ l.declaration = .reference target (some specifier) := by
  obtain ⟨last, ends, stands⟩ := Option.bind_eq_some_iff.mp leads
  unfold targetAt at stands
  split at stands
  · next l isLocal =>
    cases stands
    have first := find?_beq_eq_some_iff.mp isLocal
    cases isReference : l.declaration with
    | reference target origin =>
      cases origin with
      | none =>
        have same : l = ⟨last, .reference target none⟩ := by
          rw [← first.1, ← isReference]
        exact absurd (same ▸ first) (not_refers_of_chainEnd ends)
      | some specifier =>
        exact .inr ⟨l, List.mem_of_find?_eq_some isLocal, target, specifier, isReference ▸ rfl,
          isReference⟩
    | _ => exact .inl rfl
  · split at stands
    · cases stands
    · obtain ⟨found, isExport, isTarget⟩ := Option.map_eq_some_iff.mp stands
      cases isTarget
      have fits := List.find?_some isExport
      rw [Bool.and_eq_true, Bool.not_eq_true'] at fits
      exact .inl fits.2

/-! ## The outcome -/

/-- Following a name ends. Where its chain of local references runs back it gives nothing; where the
chain ends, it gives what the last name stands for. A chain passes no more names than there are
declarations, and one more. What is found in the module is never a local reference, and no reference
at all in a module that comes from a file. -/
theorem follows_chain {σ : Type} (fetch : Fetch σ) (d : Draft) (name : String) (s : σ) :
    (∀ names last again, Chain d name names last → again ∈ names → Refers d last again →
        followTarget fetch d name s = some ((none, []), s)) ∧
      (∀ names last, Chain d name names last → (∀ next, ¬Refers d last next) →
        EndsAt fetch d last s (followTarget fetch d name s)) ∧
      (∃ names last, Chain d name names last ∧ names.length ≤ d.locals.length + 1 ∧
        ((∃ again ∈ names, Refers d last again) ∨ ∀ next, ¬Refers d last next)) ∧
      (∀ e next, target? d name = some (.declared e) → e.declaration ≠ .reference next none) ∧
      ∀ mode path content, Draft.ofFile mode path content = .ok d →
        ∀ e, target? d name = some (.declared e) → e.declaration.isReference = false := by
  refine ⟨?_, ?_, ?_, ?_, ?_⟩
  · intro names last again chain seen refers
    have closed : ∀ x ∈ names, ∃ y ∈ names, Refers d x y := by
      intro x member
      rcases chain.refers_of_mem member with rfl | goesOn
      · exact ⟨again, seen, refers⟩
      · exact goesOn
    rw [followTarget, target?, chainEnd_eq_none closed _ chain.first_mem]
    rfl
  · intro names last chain ends
    rw [followTarget, target?, chain.chainEnd_eq_some ends chain.length_le, Option.bind_some]
    exact endsAt_targetAt fetch d last s
  · obtain ⟨names, last, chain, complete⟩ := (Chain.single name).exists_complete
    exact ⟨names, last, chain, chain.length_le, complete⟩
  · intro e next leads isReference
    rcases isReference_of_target? leads with own | ⟨l, -, target, specifier, same, refers⟩
    · rw [isReference] at own
      cases own
    · rw [← same, isReference] at refers
      cases refers
  · intro mode path content isFile e leads
    rcases isReference_of_target? leads with own | ⟨l, member, target, specifier, -, refers⟩
    · exact own
    · cases Draft.origin_of_mem_locals isFile member refers

/-- Names of which two lead to a function and two in a circle. -/
def aliasedNames : Draft where
  locals :=
    [⟨"a", .reference "b" none⟩, ⟨"b", .reference "f" none⟩, ⟨"x", .reference "y" none⟩,
      ⟨"y", .reference "x" none⟩, ⟨"f", .function { params := "", returnType := "void" }⟩]

theorem follows_chain_aliased :
    let fetch : Fetch Unit := fun _ _ _ => none
    let f : Export :=
      { name := "f", declaration := .function { params := "", returnType := "void" } }
    Draft.ofFile .full ⟨"m.ts"⟩ "const a = b, b = f, x = y, y = x; function f(): void \x7b\x7d" =
        .ok aliasedNames ∧
      Chain aliasedNames "a" ["a", "b", "f"] "f" ∧ (∀ next, ¬Refers aliasedNames "f" next) ∧
      EndsAt fetch aliasedNames "f" () (followTarget fetch aliasedNames "a" ()) ∧
      target? aliasedNames "a" = some (.declared f) ∧ f.declaration.isReference = false ∧
      Chain aliasedNames "x" ["x", "y"] "y" ∧ Refers aliasedNames "y" "x" ∧
      followTarget fetch aliasedNames "x" () = some ((none, []), ()) := by
  intro fetch f
  have isFile : Draft.ofFile .full ⟨"m.ts"⟩
      "const a = b, b = f, x = y, y = x; function f(): void \x7b\x7d" = .ok aliasedNames := by
    decide +kernel
  have refers : Refers aliasedNames "a" "b" ∧ Refers aliasedNames "b" "f" ∧
      Refers aliasedNames "x" "y" ∧ Refers aliasedNames "y" "x" := by
    simp only [← localReference?_eq_some_iff]
    decide +kernel
  have ends : ∀ next, ¬Refers aliasedNames "f" next :=
    localReference?_eq_none_iff.mp (by decide +kernel)
  have chain : Chain aliasedNames "a" ["a", "b", "f"] "f" :=
    .step refers.1 (.step refers.2.1 (.single "f") (by decide)) (by decide)
  have circle : Chain aliasedNames "x" ["x", "y"] "y" :=
    .step refers.2.2.1 (.single "y") (by decide)
  have leads : target? aliasedNames "a" = some (.declared f) := by decide +kernel
  obtain ⟨-, found, -, -, own⟩ := follows_chain fetch aliasedNames "a" ()
  exact ⟨isFile, chain, ends, found _ _ chain ends, leads, own _ _ _ isFile f leads, circle,
    refers.2.2.2, (follows_chain fetch aliasedNames "x" ()).1 _ _ "x" circle (by decide)
      refers.2.2.2⟩

end Atlas

end ModuleAtlas
