import ModuleAtlas.Proofs.Draft
import ModuleAtlas.Proofs.Tables

/-!
# Where declarations come from

Linking takes declarations from one module to another and renames them on the way. It makes none
up: whatever a module exports is declared in the file of the module or of one that its table depends
on (`exports_originate`). Its text is the text there, but for names that were replaced, and these
are told by the files that export it again: each has the name that the declaration came with
replaced by the one it goes on with (`Renamed`).
-/

namespace ModuleAtlas

open Draft (Mode Slot)
open Symbols

namespace Symbols.Declaration

theorem mapSource_id (x : Declaration) : x.mapSource (fun text => text) = x := by
  cases x <;> simp [mapSource]

theorem mapSource_mapSource (f g : String → String) (x : Declaration) :
    (x.mapSource f).mapSource g = x.mapSource (g ∘ f) := by
  cases x <;> simp [mapSource]

end Symbols.Declaration

/-- What a file declares, and under which name: what it exports, what it keeps to itself, and for
each import of a whole module that module. -/
inductive Draft.Declares (d : Draft) : String → Declaration → Prop
  | entry {e : Export} : e ∈ d.entries → Declares d e.name e.declaration
  | unexported {l : Local} : l ∈ d.locals → Declares d l.name l.declaration
  | wholeModule {i : Import} : i ∈ d.imports → i.isNamespace = true →
    Declares d i.localName (.wholeModule i.source)

theorem Draft.Declares.mono {d d' : Draft} (slots : d.slots = d'.slots)
    (locals : d.locals = d'.locals) (imports : d.imports ⊆ d'.imports) {name : String}
    {x : Declaration} (h : d.Declares name x) : d'.Declares name x := by
  cases h with
  | entry member =>
    rw [Draft.entries, slots] at member
    exact .entry member
  | unexported member => exact .unexported (locals ▸ member)
  | wholeModule member whole => exact .wholeModule (imports member) whole

theorem Draft.mem_entries {d : Draft} {e : Export} : e ∈ d.entries ↔ Slot.entry e ∈ d.slots := by
  rw [Draft.entries, List.mem_filterMap]
  constructor
  · rintro ⟨slot, member, isEntry⟩
    cases slot with
    | everything specifier => cases isEntry
    | entry e' => exact Option.some.inj isEntry ▸ member
  · intro member
    exact ⟨_, member, rfl⟩

namespace Atlas

open Resolution (Location)

variable {t : Tree} {d : Draft}

/-! ## What slots stand for -/

/-- A local name that leads to a declaration leads to one of the file. -/
theorem declares_of_target? {name : String} {e : Export}
    (h : target? d name = some (.declared e)) : d.Declares e.name e.declaration := by
  obtain ⟨last, -, h⟩ := Option.bind_eq_some_iff.mp h
  unfold targetAt at h
  split at h
  · next l found =>
    cases h
    exact .unexported (List.mem_of_find?_eq_some found)
  · split at h
    · cases h
    · obtain ⟨e', found, isTarget⟩ := Option.map_eq_some_iff.mp h
      cases isTarget
      exact .entry (List.mem_of_find?_eq_some found)

theorem mem_of_lookup {table : Table} {name : String} {e : Export}
    (h : table.lookup name = some e) : e ∈ table.exports := by
  unfold Table.lookup at h
  split at h <;> exact List.mem_of_find?_eq_some h

/-- What a reference stands for is declared in its file or exported by the module that was asked
for. -/
theorem found?_cases {target : String} {origin : Option String} {table : Option Table}
    {found : Export} (h : found? d target origin table = some found) :
    d.Declares found.name found.declaration ∨
      ∃ given, table = some given ∧ found ∈ given.exports := by
  unfold found? at h
  split at h
  · obtain ⟨given, isGiven, h⟩ := Option.bind_eq_some_iff.mp h
    exact .inr ⟨given, isGiven, mem_of_lookup h⟩
  · split at h
    · next leads =>
      cases h
      exact .inl (declares_of_target? leads)
    · next i leads =>
      split at h
      · next whole =>
        cases h
        exact .inl (.wholeModule (mem_imports_of_target? leads) whole)
      · obtain ⟨given, isGiven, h⟩ := Option.bind_eq_some_iff.mp h
        refine .inr ⟨given, isGiven, ?_⟩
        split at h <;> exact List.mem_of_find?_eq_some h
    · cases h

/-- What holds of all that a file declares and of all that the module asked for exports, and stays
when the file exports it again, holds of all that a slot stands for. -/
theorem forall_fill {P : Export → Prop}
    (own : ∀ x : Export, d.Declares x.name x.declaration → P x)
    (again : ∀ e ∈ d.entries, e.declaration.isReference = true →
      ∀ found, P found → P (exportAs e found))
    {table : Option Table} (others : ∀ given, table = some given → ∀ x ∈ given.exports, P x)
    {slot : Slot} (inside : slot ∈ d.slots) : ∀ x ∈ fill d table slot, P x := by
  intro x member
  cases slot with
  | everything specifier =>
    cases table with
    | none => cases member
    | some given => exact others given rfl x member
  | entry e =>
    have listed : e ∈ d.entries := Draft.mem_entries.mpr inside
    have entry : P e := own e (.entry listed)
    rw [fill] at member
    split at member
    · next target origin isReference =>
      rw [List.mem_singleton] at member
      cases found : found? d target origin table with
      | none =>
        rw [found] at member
        exact member ▸ entry
      | some found' =>
        rw [found] at member
        have has : P found' := by
          rcases found?_cases found with declared | ⟨given, isGiven, member⟩
          · exact own found' declared
          · exact others given isGiven found' member
        have refers : e.declaration.isReference = true := by rw [isReference]; rfl
        exact member ▸ again e listed refers found' has
    · rw [List.mem_singleton] at member
      exact member ▸ entry

/-! ## Origins -/

/-- A text with names replaced, one after the other. -/
def reword (renamings : List (String × String)) (text : String) : String :=
  renamings.foldl (fun text r => Text.substituteWord text r.1 r.2) text

theorem reword_append (renamings : List (String × String)) (old new : String) :
    reword (renamings ++ [(old, new)]) = (Text.substituteWord · old new) ∘ reword renamings := by
  funext text
  rw [reword, List.foldl_append]
  rfl

/-- One of the files exports a reference under a name, and not as its default export. -/
def ExportsAgain (t : Tree) (places : List Path) (name : String) : Prop :=
  ∃ q ∈ places, ∃ d, Draft.ofTree? t q = some d ∧
    ∃ e ∈ d.entries, e.declaration.isReference = true ∧ e.isDefault = false ∧ e.outerName = name

/-- How files that export a declaration again take it from its first name to its last: each replaces
the name it came with by the one it goes on with. A declaration that came without a name has none to
be replaced. -/
inductive Renamed (t : Tree) (places : List Path) (first : String) :
    List (String × String) → String → Prop
  | kept : Renamed t places first [] first
  | named {renamings : List (String × String)} {old new : String} :
    Renamed t places first renamings old → old ≠ defaultName → old ≠ new →
      ExportsAgain t places new → Renamed t places first (renamings ++ [(old, new)]) new
  | unnamed {renamings : List (String × String)} {new : String} :
    Renamed t places first renamings defaultName → ExportsAgain t places new →
      Renamed t places first renamings new

/-- An export is what a file declares, but for names in its text that were replaced where it is
exported again. -/
def OriginatesAt (t : Tree) (places : List Path) (q : Path) (x : Export) : Prop :=
  ∃ d name y renamings, Draft.ofTree? t q = some d ∧ d.Declares name y ∧
    Renamed t places name renamings x.name ∧ x.declaration = y.mapSource (reword renamings)

/-- Exporting an entry again adds the names it replaces to those that were replaced before. -/
theorem OriginatesAt.exportAs {places : List Path} {q : Path} {e found : Export}
    (h : OriginatesAt t places q found)
    (again : e.isDefault = false → ExportsAgain t places e.outerName) :
    OriginatesAt t places q (exportAs e found) := by
  unfold Atlas.exportAs
  dsimp only
  split
  · exact h
  · next renames =>
    rw [Bool.or_eq_true, beq_iff_eq, not_or, Bool.not_eq_true] at renames
    obtain ⟨d, name, y, renamings, isDraft, declared, chain, isText⟩ := h
    by_cases unnamed : found.name = defaultName
    · rw [unnamed] at chain
      refine ⟨d, name, y, renamings, isDraft, declared, .unnamed chain (again renames.1), ?_⟩
      exact (if_pos unnamed).trans isText
    · have replaced : renameIn found.declaration found.name e.outerName =
          y.mapSource (reword (renamings ++ [(found.name, e.outerName)])) := by
        rw [renameIn, if_neg unnamed, isText, Declaration.mapSource_mapSource, reword_append]
      exact ⟨d, name, y, _, isDraft, declared,
        .named chain unnamed (Ne.symm renames.2) (again renames.1), replaced⟩

/-- The drafts of files are among those of other files. -/
def Covered (t : Tree) (places places' : List Path) : Prop :=
  ∀ q ∈ places, ∀ d, Draft.ofTree? t q = some d → ∃ r ∈ places', Draft.ofTree? t r = some d

theorem ExportsAgain.mono {places places' : List Path} (covered : Covered t places places')
    {name : String} (h : ExportsAgain t places name) : ExportsAgain t places' name := by
  obtain ⟨q, member, d, isDraft, again⟩ := h
  obtain ⟨r, member', isDraft'⟩ := covered q member d isDraft
  exact ⟨r, member', d, isDraft', again⟩

theorem Renamed.mono {places places' : List Path} (covered : Covered t places places')
    {first last : String} {renamings : List (String × String)}
    (h : Renamed t places first renamings last) : Renamed t places' first renamings last := by
  induction h with
  | kept => exact .kept
  | named _ named differ again ih => exact .named ih named differ (again.mono covered)
  | unnamed _ again ih => exact .unnamed ih (again.mono covered)

/-- What originates at some files originates at others that have their drafts. -/
theorem exists_origin {places places' : List Path} (covered : Covered t places places') {q : Path}
    (member : q ∈ places) {x : Export} (h : OriginatesAt t places q x) :
    ∃ r ∈ places', OriginatesAt t places' r x := by
  obtain ⟨d, name, y, renamings, isDraft, declared, chain, isText⟩ := h
  obtain ⟨r, member', isDraft'⟩ := covered q member d isDraft
  exact ⟨r, member', d, name, y, renamings, isDraft', declared, chain.mono covered, isText⟩

/-- Other spellings of a path that name a file give the same draft. -/
theorem ofTree?_respell {p q : Path} (same : q.same p = true) (file : t.isFile q = true)
    (isDraft : Draft.ofTree? t p = some d) : Draft.ofTree? t q = some d := by
  obtain ⟨content, read, ofFile⟩ := Option.bind_eq_some_iff.mp isDraft
  rw [Draft.ofTree?, Tree.read?_of_isFile same file read, Option.bind_some,
    Draft.ofFile?_congr same, ofFile]

/-- The drafts of all paths that answers led to are those of the module and its dependencies. -/
theorem covered_dependencySet {own p : Path} {paths places : List Path}
    (files : ∀ q ∈ dependencySet own paths, t.isFile q = true) (same : p.same own = true)
    (file : t.isFile p = true) (led : places ⊆ paths) :
    Covered t places (p :: dependencySet own paths) := by
  intro q member d isDraft
  cases isOwn : q.same own with
  | true =>
    have spelled : p.same q = true := Path.same_trans same (Path.same_symm isOwn)
    exact ⟨p, List.mem_cons_self, ofTree?_respell spelled file isDraft⟩
  | false =>
    have depends : among (dependencySet own paths) q = true :=
      among_dependencySet.mpr ⟨among_iff.mpr ⟨q, led member, Path.same_refl q⟩, isOwn⟩
    obtain ⟨r, member, spelled⟩ := among_iff.mp depends
    exact ⟨r, List.mem_cons_of_mem _ member, ofTree?_respell spelled (files r member) isDraft⟩

/-- The draft of a file, in any mode, has the slots of the file, and what it declares the file
declares. -/
theorem exists_ofTree? {mode : Mode} {p q : Path} {content : String}
    (read : t.read? p = some content) (ok : Draft.ofFile mode p content = .ok d)
    (same : q.same p = true) (file : t.isFile q = true) :
    ∃ whole, Draft.ofTree? t q = some whole ∧ d.slots = whole.slots ∧
      ∀ name x, d.Declares name x → whole.Declares name x := by
  obtain ⟨whole, isWhole, slots, locals, imports⟩ :=
    Draft.exists_full (Draft.ofFile?_eq_some.mpr ok)
  refine ⟨whole, ofTree?_respell same file ?_, slots, fun _ _ h => h.mono slots locals imports⟩
  rw [Draft.ofTree?, read, Option.bind_some, isWhole]

theorem originatesAt_of_declares {p : Path} (isDraft : Draft.ofTree? t p = some d) {x : Export}
    (declared : d.Declares x.name x.declaration) (places : List Path) :
    OriginatesAt t places p x :=
  ⟨d, x.name, x.declaration, [], isDraft, declared, .kept, x.declaration.mapSource_id.symm⟩

/-- All exports of a module originate at its file or at one that it depends on, and those are files.
This is said of all spellings of its path that name a file. -/
def Sourced (t : Tree) (_ : Mode) (p : Path) (_ : String) (m : Linked) : Prop :=
  (∀ q ∈ m.dependencies, t.isFile q = true) ∧
    ∀ p', p'.same p = true → t.isFile p' = true → ∀ x ∈ m.table.exports,
      ∃ q ∈ p' :: m.dependencies, OriginatesAt t (p' :: m.dependencies) q x

theorem upheld_isFile (t : Tree) : Upheld t (fun _ => True) (t.isFile ·.path = true) :=
  ⟨fun _ _ => trivial, fun _ _ => trivial,
    fun found _ => ⟨trivial, fun _ isFound => resolve_isFile (isFound ▸ found)⟩⟩

theorem inherited_sourced (t : Tree) : Inherited t (t.isFile ·.path = true) (Sourced t) := by
  constructor
  · intro mode p q content m same sourced
    refine ⟨sourced.1, fun p' same' file => sourced.2 p' (Path.same_trans same' ?_) file⟩
    exact Path.same_symm same
  · intro mode p content d read ok _
    refine ⟨fun q member => (nomatch member), fun p' same file x member => ?_⟩
    obtain ⟨whole, isWhole, -, declares⟩ := exists_ofTree? read ok same file
    have declared : whole.Declares x.name x.declaration := declares _ _ (.entry member)
    exact ⟨p', List.mem_cons_self, originatesAt_of_declares isWhole declared _⟩
  · intro mode p content d fs read ok _ handed
    have files : ∀ q ∈ (linkedWith p d fs).dependencies, t.isFile q = true :=
      forall_dependencies handed (fun _ file => file) (fun sourced => sourced.1) p d
    refine ⟨files, fun p' same file x member => ?_⟩
    obtain ⟨whole, isWhole, slots, declares⟩ := exists_ofTree? read ok same file
    obtain ⟨part, -, -⟩ := distinctExports_spec (filled d d.slots fs)
    obtain ⟨slot, inside, f, inAnswers, member⟩ := mem_filled (part.subset member)
    refine forall_fill (P := fun x => ∃ q ∈ p' :: (linkedWith p d fs).dependencies,
      OriginatesAt t (p' :: (linkedWith p d fs).dependencies) q x) ?_ ?_ ?_ inside x member
    · intro x declared
      exact ⟨p', List.mem_cons_self, originatesAt_of_declares isWhole (declares _ _ declared) _⟩
    · -- the file that exports it again is the module's own
      rintro e listed refers found ⟨q, member, origin⟩
      have listed' : e ∈ whole.entries := by rwa [Draft.entries, ← slots]
      refine ⟨q, member, origin.exportAs fun notDefault => ?_⟩
      exact ⟨p', List.mem_cons_self, whole, isWhole, e, listed', refers, notDefault, rfl⟩
    · intro given isGiven x member
      rcases handed f inAnswers with rfl | ⟨target, m, place, rfl, has⟩
      · cases isGiven
      · cases m with
        | none => cases isGiven
        | some m =>
          cases isGiven
          obtain ⟨mode', content', -, -, sourced⟩ := has m rfl
          obtain ⟨q, led, origin⟩ := sourced target.path (Path.same_refl _) place x member
          have answers : target.path :: m.dependencies ⊆ pathsOf fs :=
            fun r led => List.mem_flatMap.mpr ⟨_, inAnswers, led⟩
          exact exists_origin (covered_dependencySet files same file answers) led origin

/-- While the tree does not change, every export of a table that is answered originates at the file
asked for or at one that the table kept for it depends on, after any questions and however modules
refer to each other. -/
theorem exports_originate (project : Project) (t : Tree) (before : List Operation)
    (operation : Operation) (l : Location) (mode : Mode) (table : Table)
    (asked : operation.module? t (run project (before.map (t, ·))) = some (l, mode))
    (answered : (perform t operation (run project (before.map (t, ·)))).1 = .table (some table)) :
    ∃ e, (run project ((before ++ [operation]).map (t, ·))).tables.find? l.path mode = some e ∧
      e.module.table = table ∧ ∀ x ∈ table.exports,
        ∃ q ∈ l.path :: e.module.dependencies,
          OriginatesAt t (l.path :: e.module.dependencies) q x := by
  have start : True ∧ AllKept (Sourced t) (run project (before.map (t, ·))) := by
    refine run_keeps_on (I := fun atlas => True ∧ AllKept (Sourced t) atlas)
      ⟨trivial, fun e member => nomatch member⟩ (fun operation atlas kept => ?_) before
    exact (inherited_sourced t).perform (upheld_isFile t) operation atlas kept
  obtain ⟨e, found, read, isTable, -, sourced⟩ :=
    (inherited_sourced t).answer (upheld_isFile t) start operation asked answered
  refine ⟨e, ?_, isTable, fun x member => ?_⟩
  · rw [List.map_append, run_append]
    exact found
  · exact sourced l.path (Path.same_refl _) (Tree.isFile_of_read? read) x (isTable ▸ member)

/-- A module that exports a whole module and, under another name, a variable of it; that module
exports everything of the first. -/
def renamingTree : Tree :=
  (({} : Tree).write ⟨"/p/a.ts"⟩ (.text
    "import * as all from './b'; export \x7b all \x7d; export \x7b b as c \x7d from './b';")).write
    ⟨"/p/b.ts"⟩ (.text "export const b = 1; export * from './a';")

/-- The text of the variable has its new name, and the module asked for depends on where it is
declared. -/
theorem exports_originate_renamed :
    ∃ (table : Table) (e : KeptTable), ((run sample ([.tableAt ⟨"/p/b.ts"⟩ .full].map
        (renamingTree, ·))).importModule renamingTree "./a" ⟨"/p/b.ts"⟩).1 = some table ∧
      table.exports.map (·.declaration) =
        [.wholeModule "./b", .variableDecl (some "number") none (some "const c = 1;")] ∧
      e.module.table = table ∧ ∀ x ∈ table.exports,
        ∃ q ∈ ⟨"/p/a.ts"⟩ :: e.module.dependencies,
          OriginatesAt renamingTree (⟨"/p/a.ts"⟩ :: e.module.dependencies) q x := by
  have asked : (Operation.importModule "./a" ⟨"/p/b.ts"⟩).module? renamingTree
      (run sample ([.tableAt ⟨"/p/b.ts"⟩ .full].map (renamingTree, ·))) =
        some (⟨⟨"/p/a.ts"⟩, none⟩, .full) := by decide +kernel
  have exported : ((run sample ([.tableAt ⟨"/p/b.ts"⟩ .full].map
      (renamingTree, ·))).importModule renamingTree "./a" ⟨"/p/b.ts"⟩).1.map
        (fun table => table.exports.map (·.declaration)) =
      some [.wholeModule "./b", .variableDecl (some "number") none (some "const c = 1;")] := by
    decide +kernel
  obtain ⟨table, answered, declarations⟩ := Option.map_eq_some_iff.mp exported
  obtain ⟨e, -, isTable, origins⟩ := exports_originate sample renamingTree
    [.tableAt ⟨"/p/b.ts"⟩ .full] (.importModule "./a" ⟨"/p/b.ts"⟩) _ _ table asked
    ((answer_importModule ..).trans (congrArg Answer.table answered))
  exact ⟨table, e, answered, declarations, isTable, origins⟩

end Atlas

end ModuleAtlas
