import ModuleAtlas.Proofs.Draft
import ModuleAtlas.Proofs.Link

/-!
# Linking without imports

A draft without its imports asks for the same modules and is filled in alike, but for the entries
whose names lead to imported bindings (`leadsToImport`): those ask for nothing. So a draft that has
no such entry is linked in both modes by the same steps and to the same exports
(`link_withoutImports`).
-/

namespace ModuleAtlas.Atlas

open Draft (Slot Mode)
open Symbols

/-! ## Names -/

theorem chainEnd_withoutImports (d : Draft) (fuel : Nat) (name : String) :
    chainEnd d.withoutImports fuel name = chainEnd d fuel name := by
  induction fuel generalizing name with
  | zero => rfl
  | succ fuel ih =>
    rw [chainEnd, chainEnd]
    split
    · next target isReference =>
      have same : localReference? d name = some target := isReference
      rw [same]
      exact ih target
    · next isNone =>
      have same : localReference? d name = none := isNone
      rw [same]

/-- A name that leads to no import leads to the same where nothing is imported. -/
theorem target?_withoutImports {d : Draft} {name : String}
    (own : ∀ i, target? d name ≠ some (.imported i)) :
    target? d.withoutImports name = target? d name := by
  have chains : chainEnd d.withoutImports d.withoutImports.locals.length name =
      chainEnd d d.locals.length name := chainEnd_withoutImports d _ name
  rw [target?, target?, chains] at *
  cases ends : chainEnd d d.locals.length name with
  | none => rfl
  | some last =>
    rw [Option.bind_some, Option.bind_some]
    rw [ends, Option.bind_some] at own
    unfold targetAt at own ⊢
    have locals : d.withoutImports.locals = d.locals := rfl
    rw [locals]
    cases isLocal : d.locals.find? (·.name == last) with
    | some l => rfl
    | none =>
      cases isImport : d.imports.find? (·.localName == last) with
      | none => rfl
      | some i =>
        rw [isLocal, isImport] at own
        exact absurd rfl (own i)

/-- Whether a slot is an entry whose name leads to an imported binding. -/
def leadsToImport (d : Draft) : Slot → Bool
  | .everything _ => false
  | .entry e =>
    match e.declaration with
    | .reference target none =>
      match target? d target with
      | some (.imported _) => true
      | _ => false
    | _ => false

/-! ## Slots -/

theorem leadsToImport_reference {d : Draft} {e : Export} {target : String}
    (declaration : e.declaration = .reference target none) :
    leadsToImport d (.entry e) = true ↔ ∃ i, target? d target = some (.imported i) := by
  rw [leadsToImport, declaration]
  dsimp only
  split
  · next i leads => simp [leads]
  · next other => simpa using fun i leads => other i leads

/-- Without imports, slots that lead to an import ask for nothing and the others ask as before. -/
theorem request?_withoutImports (d : Draft) (slot : Slot) :
    request? d.withoutImports slot = if leadsToImport d slot then none else request? d slot := by
  cases slot with
  | everything specifier => rfl
  | entry e =>
    cases declaration : e.declaration with
    | reference target origin =>
      cases origin with
      | some specifier => simp [request?, leadsToImport, declaration]
      | none =>
        by_cases leads : leadsToImport d (.entry e) = true
        · rw [if_pos leads, request?, declaration]
          dsimp only
          split
          · next leads' => cases mem_imports_of_target? leads'
          · rfl
        · rw [if_neg leads, request?, request?, declaration]
          rw [leadsToImport_reference declaration, not_exists] at leads
          dsimp only
          rw [target?_withoutImports leads]
    | _ => simp [request?, leadsToImport, declaration]

/-- Without imports, slots that do not lead to an import stand for the same. -/
theorem fill_withoutImports {d : Draft} {slot : Slot} (own : leadsToImport d slot = false)
    (table : Option Table) : fill d.withoutImports table slot = fill d table slot := by
  cases slot with
  | everything specifier => rfl
  | entry e =>
    cases declaration : e.declaration with
    | reference target origin =>
      cases origin with
      | some specifier => simp [fill, found?, declaration]
      | none =>
        rw [← Bool.not_eq_true, leadsToImport_reference declaration, not_exists] at own
        simp only [fill, found?, declaration, target?_withoutImports own]
    | _ => simp [fill, declaration]

/-! ## Links -/

theorem linkSlot_withoutImports {σ : Type} (fetch : Fetch σ) {d : Draft} {slot : Slot}
    (own : leadsToImport d slot = false) (s : σ) :
    linkSlot fetch d.withoutImports slot s = linkSlot fetch d slot s := by
  have requests : request? d.withoutImports slot = request? d slot := by
    rw [request?_withoutImports, own]
    rfl
  rw [linkSlot_eq, linkSlot_eq, requests]
  simp only [fill_withoutImports own]

theorem linkSlots_withoutImports {σ : Type} (fetch : Fetch σ) {d : Draft} {slots : List Slot}
    (own : ∀ slot ∈ slots, leadsToImport d slot = false) (s : σ) :
    linkSlots fetch d.withoutImports slots s = linkSlots fetch d slots s := by
  induction slots generalizing s with
  | nil => rfl
  | cons slot rest ih =>
    obtain ⟨first, others⟩ := List.forall_mem_cons.mp own
    rw [linkSlots, linkSlots, linkSlot_withoutImports fetch first]
    simp only [ih others]

/-- A linked module without its imports. -/
def Linked.withoutImports (m : Linked) : Linked := { m with table := { m.table with imports := [] } }

/-- Where no entry leads to an import, leaving out the imports leaves out no more of the module. -/
theorem link_withoutImports {σ : Type} (fetch : Fetch σ) (own : Path) {d : Draft}
    (owns : ∀ slot ∈ d.slots, leadsToImport d slot = false) (s : σ) :
    link fetch own d.withoutImports s =
      (link fetch own d s).map fun r => (r.1.withoutImports, r.2) := by
  have slots : d.withoutImports.slots = d.slots := rfl
  rw [link, link, slots, linkSlots_withoutImports fetch owns, Option.map_map]
  rfl

end ModuleAtlas.Atlas
