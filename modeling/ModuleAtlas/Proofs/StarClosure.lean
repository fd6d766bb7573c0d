import Mathlib.Logic.Relation
import ModuleAtlas.Proofs.Draft
import ModuleAtlas.Proofs.Settled

/-!
# Exporting everything

A module that exports everything of other modules has the names of all modules that can be reached
that way, and no others, however they refer to each other. Modules that refer back are cut, so that
what a load gives depends on the modules around it: it has the names of all modules that can be
reached without passing one at which something was cut (`Gathers`, `Blocked`). A module without a
cut at one around it has all names, and only such modules are kept; and the outermost module has
none around it. So the names of its table are those of the closure (`names_exact`).
-/

namespace ModuleAtlas.Atlas

open Draft (Mode Slot)
open Resolution (Location)
open Symbols (Export Table)

variable {t : Tree} {project : Project}

/-! ## The graph -/

/-- The slots of the file at a path, if it can be read and its language is known. -/
def slotsAt (t : Tree) (p : Path) : Option (List Slot) :=
  (t.read? p).bind fun content => (Draft.ofFile? .full p content).map (·.slots)

/-- One module exports everything of another, which can be read and is of a known language. -/
def StarEdge (t : Tree) (project : Project) (p q : Path) : Prop :=
  ∃ slots specifier, slotsAt t p = some slots ∧ Slot.everything specifier ∈ slots ∧
    meaning t project p specifier = some q ∧ (slotsAt t q).isSome = true

/-- A module has an entry of its own, other than the default, that is seen under a name. -/
def OwnName (t : Tree) (p : Path) (name : String) : Prop :=
  ∃ slots e, slotsAt t p = some slots ∧ Slot.entry e ∈ slots ∧ e.isDefault = false ∧
    e.outerName = name

/-- A module that can be reached has a name of its own. -/
def ClosureName (t : Tree) (project : Project) (p : Path) (name : String) : Prop :=
  ∃ r, Relation.ReflTransGen (StarEdge t project) p r ∧ OwnName t r name

/-- All specifiers of modules of which everything is exported are relative. -/
def StarsRelative (t : Tree) (project : Project) : Prop :=
  ∀ p slots, slotsAt t p = some slots → ∀ specifier, Slot.everything specifier ∈ slots →
    IsRelative t project specifier

theorem slotsAt_eq {p : Path} {content : String} (read : t.read? p = some content) (mode : Mode) :
    slotsAt t p = (Draft.ofFile? mode p content).map (·.slots) := by
  rw [slotsAt, read, Option.bind_some, Draft.slots_ofFile? .full mode]

/-- Spellings of one path, of which the second can be read, have the same slots. -/
theorem slotsAt_of_same {p q : Path} {content : String} {slots : List Slot}
    (same : p.same q = true) (read : t.read? q = some content) (atP : slotsAt t p = some slots) :
    slotsAt t q = some slots := by
  obtain ⟨content', read', found⟩ := Option.bind_eq_some_iff.mp atP
  cases Tree.read?_of_same same read' read
  rw [slotsAt_eq read .full, ← Draft.ofFile?_congr same, found]

section Spellings

variable {p q : Path} {content : String} {name : String}

theorem StarEdge.congr {x : Path} (relative : StarsRelative t project) (same : p.same q = true)
    (read : t.read? q = some content) (h : StarEdge t project p x) : StarEdge t project q x := by
  obtain ⟨slots, specifier, atP, star, means, known⟩ := h
  have isRelative := relative p slots atP specifier star
  rw [meaning_eq isRelative, fileMeant_congr same, ← meaning_eq isRelative] at means
  exact ⟨slots, specifier, slotsAt_of_same same read atP, star, means, known⟩

theorem OwnName.congr (same : p.same q = true) (read : t.read? q = some content)
    (h : OwnName t p name) : OwnName t q name := by
  obtain ⟨slots, e, atP, own⟩ := h
  exact ⟨slots, e, slotsAt_of_same same read atP, own⟩

theorem ClosureName.congr (relative : StarsRelative t project) (same : p.same q = true)
    (read : t.read? q = some content) (h : ClosureName t project p name) :
    ClosureName t project q name := by
  obtain ⟨r, reach, own⟩ := h
  rcases reach.cases_head with rfl | ⟨x, edge, rest⟩
  · exact ⟨q, .refl, own.congr same read⟩
  · exact ⟨r, .head (edge.congr relative same read) rest, own⟩

end Spellings

/-! ## Ways around modules -/

/-- There is a way from one module to another on which no module is in `B`. -/
inductive Avoiding (t : Tree) (project : Project) (B : Path → Prop) : Path → Path → Prop
  | here {p : Path} : ¬ B p → Avoiding t project B p p
  | step {p q r : Path} : ¬ B p → StarEdge t project p q → Avoiding t project B q r →
    Avoiding t project B p r

namespace Avoiding

variable {B B' : Path → Prop} {p r : Path}

theorem start_not (h : Avoiding t project B p r) : ¬ B p := by
  cases h with
  | here open' => exact open'
  | step open' _ _ => exact open'

theorem mono (fewer : ∀ v, B' v → B v) (h : Avoiding t project B p r) :
    Avoiding t project B' p r := by
  induction h with
  | here open' => exact .here fun blocked => open' (fewer _ blocked)
  | step open' edge _ ih => exact .step (fun blocked => open' (fewer _ blocked)) edge ih

theorem reach (h : Avoiding t project B p r) : Relation.ReflTransGen (StarEdge t project) p r := by
  induction h with
  | here _ => exact .refl
  | step _ edge _ ih => exact .head edge ih

theorem of_reach (h : Relation.ReflTransGen (StarEdge t project) p r) :
    Avoiding t project (fun _ => False) p r := by
  induction h using Relation.ReflTransGen.head_induction_on with
  | refl => exact .here id
  | head edge _ ih => exact .step id edge ih

/-- A way that passes a module goes on from its last visit there without coming back. -/
theorem last_visit (relative : StarsRelative t project) {n : Path} {content : String}
    (read : t.read? n = some content) (h : Avoiding t project B p r) :
    Avoiding t project (fun v => B v ∨ v.same n = true) p r ∨ r.same n = true ∨
      ∃ x, StarEdge t project n x ∧ Avoiding t project (fun v => B v ∨ v.same n = true) x r := by
  induction h with
  | @here p open' =>
    by_cases same : p.same n = true
    · exact .inr (.inl same)
    · exact .inl (.here (by rintro (blocked | isN); exacts [open' blocked, same isN]))
  | @step p q r open' edge _ ih =>
    rcases ih with around | passed
    · by_cases same : p.same n = true
      · exact .inr (.inr ⟨q, edge.congr relative same read, around⟩)
      · exact .inl (.step (by rintro (blocked | isN); exacts [open' blocked, same isN]) edge around)
    · exact .inr passed

/-- A way from a module is at the module, or leaves it for good. -/
theorem leave (relative : StarsRelative t project) {content : String}
    (read : t.read? p = some content) (h : Avoiding t project B p r) :
    r.same p = true ∨
      ∃ x, StarEdge t project p x ∧ Avoiding t project (fun v => B v ∨ v.same p = true) x r := by
  rcases h.last_visit relative read with around | passed
  · exact absurd (.inr (Path.same_refl p)) around.start_not
  · exact passed

end Avoiding

/-! ## Cuts -/

/-- One cut is as far out as another, if there is another. -/
def FartherOut (c c' : Option Nat) : Prop := ∀ k, c' = some k → ∃ j, c = some j ∧ j ≤ k

theorem FartherOut.refl (c : Option Nat) : FartherOut c c := fun k h => ⟨k, h, Nat.le_refl k⟩

theorem FartherOut.trans {a b c : Option Nat} (left : FartherOut a b) (right : FartherOut b c) :
    FartherOut a c := by
  intro k isCut
  obtain ⟨j, isCut, le⟩ := right k isCut
  obtain ⟨i, isCut, le'⟩ := left j isCut
  exact ⟨i, isCut, Nat.le_trans le' le⟩

theorem fartherOut_lowerCut (a b : Option Nat) :
    FartherOut (lowerCut a b) a ∧ FartherOut (lowerCut a b) b := by
  cases a with
  | none => exact ⟨fun k h => (nomatch h), .refl b⟩
  | some a =>
    cases b with
    | none => exact ⟨.refl _, fun k h => (nomatch h)⟩
    | some b =>
      constructor
      · rintro _ ⟨⟩
        exact ⟨_, rfl, Nat.min_le_left a b⟩
      · rintro _ ⟨⟩
        exact ⟨_, rfl, Nat.min_le_right a b⟩

/-- A module is on the stack at a cut or inside one. -/
def Blocked (stack : List Path) (cut : Option Nat) (v : Path) : Prop :=
  ∃ i q k, stack[i]? = some q ∧ q.same v = true ∧ cut = some k ∧ k ≤ i

theorem Blocked.mono {stack : List Path} {c c' : Option Nat} (out : FartherOut c c') {v : Path}
    (h : Blocked stack c' v) : Blocked stack c v := by
  obtain ⟨i, q, k, onStack, same, isCut, le⟩ := h
  obtain ⟨j, isCut, le'⟩ := out k isCut
  exact ⟨i, q, j, onStack, same, isCut, Nat.le_trans le' le⟩

/-- What is blocked inside a module is the module itself or blocked around it. -/
theorem Blocked.inside {stack : List Path} {c : Option Nat} {p v : Path}
    (h : Blocked (stack ++ [p]) c v) : Blocked stack c v ∨ v.same p = true := by
  obtain ⟨i, q, k, onStack, same, isCut, le⟩ := h
  by_cases outer : i < stack.length
  · rw [List.getElem?_append_left outer] at onStack
    exact .inl ⟨i, q, k, onStack, same, isCut, le⟩
  · rw [List.getElem?_append_right (Nat.le_of_not_lt outer), List.getElem?_singleton] at onStack
    split at onStack
    · cases onStack
      exact .inr (Path.same_symm same)
    · cases onStack

/-- Nothing around a complete module is blocked. -/
theorem not_blocked_of_isComplete {n : Nesting} {stack : List Path} {earlier : Option Nat}
    (complete : n.isComplete ⟨stack.length, earlier⟩ = true) (v : Path) :
    ¬ Blocked stack n.outermostCut v := by
  rintro ⟨i, q, k, onStack, -, isCut, le⟩
  have inside := (List.getElem?_eq_some_iff.mp onStack).1
  rw [Nesting.isComplete, isCut] at complete
  simp only [Bool.not_eq_true', decide_eq_false_iff_not] at complete
  omega

/-! ## Names gathered -/

/-- What the load of a module gives, where the modules in `B` cannot be passed: only names of the
closure, and the names of all modules that can be reached around `B`. -/
structure Gathers (t : Tree) (project : Project) (B : Path → Prop) (p : Path) (m : Option Linked) :
    Prop where
  sound : ∀ linked, m = some linked → (slotsAt t p).isSome = true ∧
    ∀ name ∈ outerNamesOf linked.table.exports, ClosureName t project p name
  complete : ∀ r name, Avoiding t project B p r → OwnName t r name →
    ∃ linked, m = some linked ∧ name ∈ outerNamesOf linked.table.exports

/-- What the slots of a module give, where the modules in `B` cannot be passed. -/
structure Collects (t : Tree) (project : Project) (B : Path → Prop) (p : Path) (slots : List Slot)
    (es : List Export) : Prop where
  sound : ∀ name ∈ outerNamesOf es,
    (∃ e, Slot.entry e ∈ slots ∧ e.isDefault = false ∧ e.outerName = name) ∨
    ∃ specifier x, Slot.everything specifier ∈ slots ∧ meaning t project p specifier = some x ∧
      (slotsAt t x).isSome = true ∧ ClosureName t project x name
  entries : ∀ e, Slot.entry e ∈ slots → e.isDefault = false → e.outerName ∈ outerNamesOf es
  stars : ∀ specifier x r name, Slot.everything specifier ∈ slots →
    meaning t project p specifier = some x → Avoiding t project B x r → OwnName t r name →
    name ∈ outerNamesOf es

namespace Collects

variable {B B' : Path → Prop} {p : Path} {slot : Slot} {slots : List Slot} {es es' : List Export}

theorem nil : Collects t project B p [] [] :=
  ⟨fun _ h => (nomatch h), fun _ h => (nomatch h), fun _ _ _ _ h => (nomatch h)⟩

theorem mono (more : ∀ v, B v → B' v) (h : Collects t project B p slots es) :
    Collects t project B' p slots es :=
  ⟨h.sound, h.entries, fun specifier x r name star means way =>
    h.stars specifier x r name star means (way.mono more)⟩

theorem mem_outerNamesOf_append {name : String} :
    name ∈ outerNamesOf (es ++ es') ↔ name ∈ outerNamesOf es ∨ name ∈ outerNamesOf es' := by
  rw [outerNamesOf_append, List.mem_append]

theorem cons (first : Collects t project B p [slot] es) (rest : Collects t project B p slots es') :
    Collects t project B p (slot :: slots) (es ++ es') := by
  have inFirst : ∀ {other}, other ∈ [slot] → other ∈ slot :: slots := by
    intro other member
    rw [List.mem_singleton] at member
    exact member ▸ List.mem_cons_self
  have split : ∀ {other}, other ∈ slot :: slots → other ∈ [slot] ∨ other ∈ slots := by
    intro other member
    rwa [List.mem_singleton, ← List.mem_cons]
  constructor
  · intro name member
    rcases mem_outerNamesOf_append.mp member with member | member
    · rcases first.sound name member with ⟨e, entry, own⟩ | ⟨specifier, x, star, closure⟩
      · exact .inl ⟨e, inFirst entry, own⟩
      · exact .inr ⟨specifier, x, inFirst star, closure⟩
    · rcases rest.sound name member with ⟨e, entry, own⟩ | ⟨specifier, x, star, closure⟩
      · exact .inl ⟨e, List.mem_cons_of_mem _ entry, own⟩
      · exact .inr ⟨specifier, x, List.mem_cons_of_mem _ star, closure⟩
  · intro e entry named
    rcases split entry with entry | entry
    · exact mem_outerNamesOf_append.mpr (.inl (first.entries e entry named))
    · exact mem_outerNamesOf_append.mpr (.inr (rest.entries e entry named))
  · intro specifier x r name star means way own
    rcases split star with star | star
    · exact mem_outerNamesOf_append.mpr (.inl (first.stars specifier x r name star means way own))
    · exact mem_outerNamesOf_append.mpr (.inr (rest.stars specifier x r name star means way own))

/-- An entry gives its own name. -/
theorem entry (d : Draft) (table : Option Table) (e : Export) :
    Collects t project B p [.entry e] (fill d table (.entry e)) := by
  constructor
  · intro name member
    exact .inl ⟨e, List.mem_singleton_self _, mem_outerNamesOf_fill.mp member⟩
  · intro e' isE named
    cases List.mem_singleton.mp isE
    exact mem_outerNamesOf_fill.mpr ⟨named, rfl⟩
  · intro specifier x r name star
    cases List.mem_singleton.mp star

/-- Everything of a module gives what its load gathers. -/
theorem everything {specifier : String} {target : Location} {m : Option Linked} (d : Draft)
    (means : meaning t project p specifier = some target.path)
    (gathers : Gathers t project B target.path m) :
    Collects t project B p [.everything specifier]
      (fill d (fetched target m).table (.everything specifier)) := by
  constructor
  · intro name member
    obtain ⟨table, isTable, member⟩ := mem_outerNamesOf_fill.mp member
    cases m with
    | none => cases isTable
    | some linked =>
      cases isTable
      obtain ⟨known, sound⟩ := gathers.sound linked rfl
      exact .inr ⟨specifier, target.path, List.mem_singleton_self _, means, known,
        sound name member⟩
  · intro e isEntry
    cases List.mem_singleton.mp isEntry
  · intro specifier' x r name star means' way own
    cases List.mem_singleton.mp star
    cases means.symm.trans means'
    obtain ⟨linked, rfl, member⟩ := gathers.complete r name way own
    exact mem_outerNamesOf_fill.mpr ⟨linked.table, rfl, member⟩

/-- Everything of nothing gives nothing. -/
theorem everything_none {specifier : String} (d : Draft)
    (means : meaning t project p specifier = none) :
    Collects t project B p [.everything specifier] (fill d none (.everything specifier)) := by
  constructor
  · intro name member
    obtain ⟨table, isTable, -⟩ := mem_outerNamesOf_fill.mp member
    cases isTable
  · intro e isEntry
    cases List.mem_singleton.mp isEntry
  · intro specifier' x r name star means'
    cases List.mem_singleton.mp star
    cases means.symm.trans means'

end Collects

/-- The names of a module are those of the closure. -/
def Exact (t : Tree) (project : Project) (p : Path) (m : Linked) : Prop :=
  (slotsAt t p).isSome = true ∧
    ∀ name, name ∈ outerNamesOf m.table.exports ↔ ClosureName t project p name

theorem exists_read_of_slotsAt {p : Path} (known : (slotsAt t p).isSome = true) :
    ∃ content, t.read? p = some content := by
  obtain ⟨slots, atP⟩ := Option.isSome_iff_exists.mp known
  obtain ⟨content, read, -⟩ := Option.bind_eq_some_iff.mp atP
  exact ⟨content, read⟩

theorem Exact.congr {p q : Path} {content : String} {m : Linked}
    (relative : StarsRelative t project) (same : p.same q = true) (read : t.read? q = some content)
    (h : Exact t project p m) : Exact t project q m := by
  obtain ⟨known, names⟩ := h
  obtain ⟨content', read'⟩ := exists_read_of_slotsAt known
  obtain ⟨slots, atP⟩ := Option.isSome_iff_exists.mp known
  refine ⟨Option.isSome_iff_exists.mpr ⟨slots, slotsAt_of_same same read atP⟩, fun name => ?_⟩
  rw [names]
  exact ⟨.congr relative same read, .congr relative (Path.same_symm same) read'⟩

theorem Exact.gathers {p : Path} {m : Linked} (h : Exact t project p m) (B : Path → Prop) :
    Gathers t project B p (some m) := by
  refine ⟨?_, fun r name way own => ⟨m, rfl, (h.2 name).mpr ⟨r, way.reach, own⟩⟩⟩
  rintro _ ⟨⟩
  exact ⟨h.1, fun name => (h.2 name).mp⟩

/-- A module that gathers around nothing has all names. -/
theorem Gathers.exact {B : Path → Prop} {p : Path} {m : Linked} (open' : ∀ v, ¬ B v)
    (h : Gathers t project B p (some m)) : Exact t project p m := by
  obtain ⟨known, sound⟩ := h.sound m rfl
  refine ⟨known, fun name => ⟨sound name, ?_⟩⟩
  rintro ⟨r, reach, own⟩
  have way : Avoiding t project B p r := (Avoiding.of_reach reach).mono open'
  obtain ⟨_, ⟨⟩, member⟩ := h.complete r name way own
  exact member

/-- A module that is not there gathers nothing. -/
theorem gathers_none {p : Path} (unknown : slotsAt t p = none) (B : Path → Prop) :
    Gathers t project B p none := by
  refine ⟨fun _ h => (nomatch h), fun r name way own => ?_⟩
  cases way with
  | here _ =>
    obtain ⟨slots, e, atP, -⟩ := own
    cases unknown.symm.trans atP
  | step _ edge _ =>
    obtain ⟨slots, specifier, atP, -⟩ := edge
    cases unknown.symm.trans atP

/-- A module has the names that its slots collect: what lies behind it is reached without passing
it again. -/
theorem gathers_of_collects {B B' : Path → Prop} {p : Path} {content : String} {slots : List Slot}
    {es : List Export} {m : Linked} (relative : StarsRelative t project)
    (read : t.read? p = some content) (atP : slotsAt t p = some slots)
    (collects : Collects t project B p slots es)
    (names : ∀ name, name ∈ outerNamesOf m.table.exports ↔ name ∈ outerNamesOf es)
    (inside : ∀ v, B v → B' v ∨ v.same p = true) : Gathers t project B' p (some m) := by
  constructor
  · rintro _ ⟨⟩
    refine ⟨by rw [atP, Option.isSome_some], fun name member => ?_⟩
    rcases collects.sound name ((names name).mp member) with
      ⟨e, entry, own⟩ | ⟨specifier, x, star, means, known, r, reach, own⟩
    · exact ⟨p, .refl, slots, e, atP, entry, own⟩
    · exact ⟨r, .head ⟨slots, specifier, atP, star, means, known⟩ reach, own⟩
  · intro r name way own
    refine ⟨m, rfl, (names name).mpr ?_⟩
    rcases way.leave relative read with
      same | ⟨x, ⟨slots', specifier, atP', star, means, -⟩, around⟩
    · obtain ⟨slots', e, atP', entry, named, rfl⟩ := own.congr same read
      cases atP.symm.trans atP'
      exact collects.entries e entry named
    · cases atP.symm.trans atP'
      exact collects.stars specifier x r name star means (around.mono inside) own

/-- A draft without references collects the names of its entries. -/
theorem collects_entries {d : Draft} (settled : d.isPending = false) (B : Path → Prop) (p : Path) :
    Collects t project B p d.slots d.entries := by
  have noStar : ∀ specifier, Slot.everything specifier ∉ d.slots := by
    intro specifier star
    rw [Draft.isPending, List.any_eq_false] at settled
    exact settled _ star rfl
  have entries : ∀ e, e ∈ d.entries ↔ Slot.entry e ∈ d.slots := by
    intro e
    rw [Draft.entries, List.mem_filterMap]
    constructor
    · rintro ⟨slot, member, isEntry⟩
      cases slot with
      | entry e' => cases isEntry; exact member
      | everything specifier => cases isEntry
    · exact fun member => ⟨_, member, rfl⟩
  constructor
  · intro name member
    obtain ⟨e, isEntry, own⟩ := mem_outerNamesOf.mp member
    exact .inl ⟨e, (entries e).mp isEntry, own⟩
  · exact fun e isEntry named => mem_outerNamesOf.mpr ⟨e, (entries e).mpr isEntry, named, rfl⟩
  · exact fun specifier x r name star => absurd star (noStar specifier)

/-! ## Loads -/

/-- What an atlas keeps agrees with a tree: what it keeps about resolving, and its tables have the
names of the closure. -/
structure StarSettled (t : Tree) (project : Project) (atlas : Atlas) : Prop where
  settled : Settled t project atlas
  tables : ∀ e ∈ atlas.tables.entries, Exact t project e.path e.module

theorem StarSettled.withTables {atlas : Atlas} (h : StarSettled t project atlas)
    {tables : TableCache} (fewer : ∀ e ∈ tables.entries, e ∈ atlas.tables.entries) :
    StarSettled t project { atlas with tables } :=
  ⟨h.settled.withTables tables, fun e member => h.tables e (fewer e member)⟩

theorem StarSettled.resolve {specifier : String} {file : Path} {context : Option Path}
    {r : Option Location} {atlas atlas' : Atlas} (h : StarSettled t project atlas)
    (resolving : atlas.resolve t specifier file context = (r, atlas')) :
    StarSettled t project atlas' := by
  refine ⟨(h.settled.resolve resolving).1, fun e member => h.tables e ?_⟩
  rwa [← (resolve_cases resolving).2.1]

/-- What a load does: it keeps what agrees with the tree, notes cuts, and gathers names around the
modules of the stack that are blocked then. -/
structure Gathered (t : Tree) (project : Project) (l : Location) (s : Session) (m : Option Linked)
    (s' : Session) : Prop where
  kept : StarSettled t project s'.atlas
  out : FartherOut s'.nesting.outermostCut s.nesting.outermostCut
  gathers : Gathers t project (Blocked s.nesting.stack s'.nesting.outermostCut) l.path m

/-- Answers by loads that gather. -/
abbrev GatheredAnswer (t : Tree) (project : Project) :=
  LoadAnswer t fun l mode s m s' =>
    Loads t l mode s m s' ∧ (StarSettled t project s.atlas → Gathered t project l s m s')

/-- A slot that asks collects names around the modules that are blocked when it was answered. -/
theorem collects_slot {l : Location} {d : Draft} {slot : Slot} {specifier : String} {mode : Mode}
    {s s' : Session} {f : Fetched}
    (relative : ∀ specifier, slot = .everything specifier → IsRelative t project specifier)
    (request : request? d slot = some (specifier, mode))
    (answer : GatheredAnswer t project l specifier mode s f s')
    (kept : StarSettled t project s.atlas) :
    StarSettled t project s'.atlas ∧
      FartherOut s'.nesting.outermostCut s.nesting.outermostCut ∧
      s'.nesting.stack = s.nesting.stack ∧
      Collects t project (Blocked s.nesting.stack s'.nesting.outermostCut) l.path [slot]
        (fill d f.table slot) := by
  rcases answer with ⟨atlas, found, rfl, rfl⟩ | ⟨target, atlas, m, found, ⟨loads, load⟩, rfl⟩
  · refine ⟨kept.resolve found, .refl _, rfl, ?_⟩
    cases slot with
    | entry e => exact .entry d none e
    | everything star =>
      cases request
      have isRelative := relative specifier rfl
      refine .everything_none d ?_
      rw [meaning_eq isRelative, ← ((kept.settled.resolve found).2 isRelative).1]
      rfl
  · obtain ⟨kept', out, gathers⟩ := load (kept.resolve found)
    refine ⟨kept', out, loads.stack, ?_⟩
    cases slot with
    | entry e => exact .entry d _ e
    | everything star =>
      cases request
      have isRelative := relative specifier rfl
      refine .everything d ?_ gathers
      rw [meaning_eq isRelative, ← ((kept.settled.resolve found).2 isRelative).1]
      rfl

/-- Answered slots collect names around the modules that are blocked in the end. -/
theorem collects_answers {l : Location} {d : Draft} {slots : List Slot} {s s' : Session}
    {fs : List Fetched}
    (relative : ∀ specifier, Slot.everything specifier ∈ slots → IsRelative t project specifier)
    (answered : Answered (GatheredAnswer t project l) d slots s fs s')
    (kept : StarSettled t project s.atlas) :
    StarSettled t project s'.atlas ∧
      FartherOut s'.nesting.outermostCut s.nesting.outermostCut ∧
      s'.nesting.stack = s.nesting.stack ∧
      Collects t project (Blocked s.nesting.stack s'.nesting.outermostCut) l.path slots
        (filled d slots fs) := by
  induction answered with
  | nil => exact ⟨kept, .refl _, rfl, .nil⟩
  | @silent slot rest s s' fs request _ ih =>
    obtain ⟨kept, out, stack, collects⟩ :=
      ih (fun specifier star => relative specifier (List.mem_cons_of_mem _ star)) kept
    cases slot with
    | everything specifier => cases request
    | entry e => exact ⟨kept, out, stack, .cons (.entry d none e) collects⟩
  | @asked slot rest specifier mode s s₁ s' f fs request answer _ ih =>
    obtain ⟨kept, out, stack, first⟩ := collects_slot
      (fun specifier isStar => relative specifier (isStar ▸ List.mem_cons_self)) request answer kept
    obtain ⟨kept, out', stack', rest⟩ :=
      ih (fun specifier star => relative specifier (List.mem_cons_of_mem _ star)) kept
    rw [stack] at rest
    exact ⟨kept, out'.trans out, stack'.trans stack, .cons (first.mono fun v => .mono out') rest⟩

theorem slotsAt_of_ok {p : Path} {content : String} {mode : Mode} {d : Draft}
    (read : t.read? p = some content) (ok : Draft.ofFile mode p content = .ok d) :
    slotsAt t p = some d.slots := by
  rw [slotsAt_eq read mode, Draft.ofFile?, ok]
  rfl

theorem slotsAt_of_error {p : Path} {content : String} {mode : Mode}
    {e : Draft.UnsupportedLanguage} (read : t.read? p = some content)
    (error : Draft.ofFile mode p content = .error e) : slotsAt t p = none := by
  rw [slotsAt_eq read mode, Draft.ofFile?, error]
  rfl

/-- Building a module collects the names of its slots. -/
theorem collects_built {l : Location} {mode : Mode} {content : String} {s s' : Session}
    {m : Option Linked} (relative : StarsRelative t project)
    (read : t.read? l.path = some content)
    (building : Built (GatheredAnswer t project l) Session.counted mode l.path content s m s')
    (kept : StarSettled t project s.atlas) :
    StarSettled t project s'.atlas ∧ (slotsAt t l.path = none ∧ m = none ∨
      ∃ slots es linked, slotsAt t l.path = some slots ∧ m = some linked ∧
        (∀ name, name ∈ outerNamesOf linked.table.exports ↔ name ∈ outerNamesOf es) ∧
        Collects t project (Blocked s.nesting.stack s'.nesting.outermostCut) l.path slots es) := by
  have counted : StarSettled t project s.counted.atlas := kept.withTables fun e member => member
  cases building with
  | unsupported error => exact ⟨kept, .inl ⟨slotsAt_of_error read error, rfl⟩⟩
  | @plain d ok settled =>
    exact ⟨counted, .inr ⟨d.slots, d.entries, _, slotsAt_of_ok read ok, rfl, fun _ => .rfl,
      collects_entries settled _ _⟩⟩
  | @linked _ d fs ok pending answered =>
    have atP := slotsAt_of_ok read ok
    obtain ⟨kept, -, -, collects⟩ := collects_answers (relative _ _ atP) answered counted
    exact ⟨kept, .inr ⟨d.slots, filled d d.slots fs, _, atP, rfl,
      fun _ => mem_outerNamesOf_distinctExports, collects⟩⟩

/-- Ending a module keeps only modules that have all names. -/
theorem StarSettled.finish {l : Location} {s : Session} {m : Option Linked} {content : String}
    (h : StarSettled t project s.atlas) (relative : StarsRelative t project)
    (read : t.read? l.path = some content) (mode : Mode) (level : Level)
    (exact' : s.nesting.isComplete level = true → ∀ linked, m = some linked →
      Exact t project l.path linked) :
    StarSettled t project (s.finish l mode content level m).atlas := by
  refine ⟨h.settled.finish l mode content level m, fun e member => ?_⟩
  rcases mem_keep member with ⟨member, -⟩ | ⟨complete, isFor, -, kept, spelled⟩
  · exact h.tables e member
  · have readable : ∃ content, t.read? e.path = some content := by
      rcases spelled with isPath | ⟨old, member, isPath⟩
      · exact ⟨content, by rw [isPath, read]⟩
      · rw [isPath]
        exact exists_read_of_slotsAt (h.tables old member).1
    obtain ⟨_, read'⟩ := readable
    exact (exact' complete e.module kept).congr relative
      (Path.same_symm (KeptTable.isFor_iff.mp isFor).1) read'

theorem gathered_loads {l : Location} {mode : Mode} {s s' : Session} {m : Option Linked}
    (relative : StarsRelative t project) (h : Loads t l mode s m s') :
    StarSettled t project s.atlas → Gathered t project l s m s' := by
  refine load_induction (P := fun l _ s m s' => StarSettled t project s.atlas →
    Gathered t project l s m s') ?_ ?_ ?_ ?_ h
  · intro l mode s unread kept
    exact ⟨kept, .refl _, gathers_none (by rw [slotsAt, unread]; rfl) _⟩
  · intro l mode s content m tables read hit kept
    obtain ⟨unchanged, e, member, same, -, -, rfl⟩ := TableCache.get_hit hit
    have exact' := (kept.tables e member).congr relative same read
    exact ⟨kept.withTables fun e member => unchanged ▸ member, .refl _, exact'.gathers _⟩
  · intro l mode s content tables nesting read missed pushed kept
    obtain ⟨i, q, onStack, same, rfl⟩ := Nesting.push_none pushed
    obtain ⟨out, atCut⟩ := fartherOut_lowerCut s.nesting.outermostCut (some i)
    refine ⟨kept.withTables fun e member => TableCache.mem_of_get missed member, out,
      fun _ h => (nomatch h), fun r name way => ?_⟩
    -- the module is on the stack, where it was cut, so no way starts from it
    have blocked : Blocked s.nesting.stack (some i) l.path :=
      ⟨i, q, i, onStack, same, rfl, Nat.le_refl i⟩
    exact absurd (blocked.mono atCut) way.start_not
  · intro l mode s content tables level nesting m s' read missed pushed building kept
    obtain ⟨-, rfl, rfl⟩ := Nesting.push_some pushed
    have begun := kept.withTables fun e member => TableCache.mem_of_get missed member
    obtain ⟨kept', outcome⟩ := collects_built relative read building begun
    obtain ⟨inside, around⟩ := fartherOut_lowerCut s'.nesting.outermostCut s.nesting.outermostCut
    rcases outcome with ⟨unknown, rfl⟩ | ⟨slots, es, linked, atP, rfl, names, collects⟩
    · refine ⟨kept'.finish relative read mode _ fun _ _ h => (nomatch h), ?_,
        gathers_none unknown _⟩
      rw [nesting_finish]
      exact around
    · refine ⟨kept'.finish relative read mode _ ?_, ?_, ?_⟩
      · rintro complete _ ⟨⟩
        have gathers := gathers_of_collects relative read atP collects names fun v blocked =>
          blocked.inside
        exact gathers.exact (not_blocked_of_isComplete complete)
      · rw [nesting_finish]
        exact around
      · rw [nesting_finish]
        exact gathers_of_collects relative read atP collects names fun v blocked =>
          blocked.inside.imp_left (.mono inside)

/-! ## Runs -/

theorem starSettled_run (relative : StarsRelative t project) (operations : List Operation) :
    StarSettled t project (run project (operations.map (t, ·))) := by
  refine run_keeps ⟨.start t project, fun e member => nomatch member⟩
    fun step member atlas kept => ?_
  obtain ⟨operation, -, rfl⟩ := List.mem_map.mp member
  refine perform_keeps (fun resolving kept => kept.resolve resolving)
    (fun loads kept => (gathered_loads relative loads kept).kept) ?_ operation atlas kept
  exact fun forgets kept => ⟨kept.settled.forgets forgets, fun e member =>
    kept.tables e (forgets.tables member)⟩

/-- Where all specifiers of modules of which everything is exported are relative, the names of the
table of a module, other than the default, are the names of all modules that can be reached by
exporting everything, however they go in circles, and whatever was asked on the tree before. -/
theorem names_exact (relative : StarsRelative t project) (operations : List Operation)
    (p : Path) (mode : Mode) (table : Table)
    (given : ((run project (operations.map (t, ·))).tableAt t p mode).1 = some table)
    (name : String) :
    name ∈ table.nonDefault.map (·.outerName) ↔
      ∃ r, Relation.ReflTransGen (StarEdge t project) p r ∧ OwnName t r name := by
  have kept := starSettled_run relative operations
  rw [tableAt, loadTable] at given
  split at given
  · next m s loading =>
    obtain ⟨linked, rfl, rfl⟩ := Option.map_eq_some_iff.mp given
    have gathers := (gathered_loads relative ⟨_, loading⟩ kept).gathers
    have unblocked : ∀ v, ¬ Blocked [] s.nesting.outermostCut v := by
      rintro v ⟨i, q, k, onStack, -⟩
      cases onStack
    exact (gathers.exact unblocked).2 name
  · cases given

/-- It is enough to look at the drafts that the texts of the files can have. -/
theorem starsRelative_of_texts (relative : ∀ text ∈ t.texts, ∀ d ∈ Draft.possible .full text,
    ∀ specifier ∈ d.sources, IsRelative t project specifier) :
    StarsRelative t project := by
  intro p slots atP specifier star
  obtain ⟨content, read, found⟩ := Option.bind_eq_some_iff.mp atP
  obtain ⟨d, isDraft, rfl⟩ := Option.map_eq_some_iff.mp found
  exact relative content (Tree.mem_texts read) d (Draft.mem_possible isDraft) specifier
    (List.mem_append_right _ (List.mem_filterMap.mpr ⟨_, star, rfl⟩))

/-- The modules of the ring export everything of each other, and one of them is kept when the other
is asked for. -/
theorem names_exact_ring :
    StarsRelative ringTree sample ∧ ∃ table,
      ((run sample ([.tableAt ⟨"/p/b.ts"⟩ .exportsOnly].map (ringTree, ·))).tableAt ringTree
        ⟨"/p/a.ts"⟩ .full).1 = some table ∧
      ∀ name, name ∈ table.nonDefault.map (·.outerName) ↔
        ∃ r, Relation.ReflTransGen (StarEdge ringTree sample) ⟨"/p/a.ts"⟩ r ∧
          OwnName ringTree r name := by
  have relative : StarsRelative ringTree sample := starsRelative_of_texts (by decide +kernel)
  have given : ((run sample ([.tableAt ⟨"/p/b.ts"⟩ .exportsOnly].map (ringTree, ·))).tableAt
      ringTree ⟨"/p/a.ts"⟩ .full).1.isSome = true := by decide +kernel
  obtain ⟨table, given⟩ := Option.isSome_iff_exists.mp given
  exact ⟨relative, table, given, names_exact relative _ _ _ table given⟩

end ModuleAtlas.Atlas
