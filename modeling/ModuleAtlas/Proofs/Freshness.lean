import Mathlib.Logic.Relation
import ModuleAtlas.Proofs.Plain
import ModuleAtlas.Proofs.Termination
import ModuleAtlas.Proofs.WithoutImports

/-!
# Keeping does not show

Where all specifiers are relative and no module leads back to itself, an atlas answers as one that
has just begun: what it keeps is what linking without keeping gives (`Faithful`). Loading never
meets a module that is being linked, so nothing is cut and every module is kept complete
(`FaithfulOn.loads`); and of what is kept, forgetting about an edited file leaves only what the file
had no part in (`FaithfulOn.edit`). So every answer is the answer of a new atlas (`answers_fresh`).

All but the last is said of a part of the project that is in order (`Straight`), whatever the rest
of the project is like.
-/

namespace ModuleAtlas.Atlas

open Draft (Mode Slot)
open Resolution (Location Slashless aliasFiles projectAliases sameContext)
open Symbols (Table)

variable {t : Tree} {project : Project}

/-! ## Projects in order -/

/-- One module imports or exports from another. -/
def TakesFrom (t : Tree) (project : Project) (p q : Path) : Prop :=
  ∃ content d specifier, t.read? p = some content ∧ Draft.ofFile? .full p content = some d ∧
    specifier ∈ d.sources ∧ meaning t project p specifier = some q

/-- All specifiers in the files are relative, and no module leads back to itself. -/
structure Orderly (t : Tree) (project : Project) : Prop where
  relative : ∀ p content d, t.read? p = some content → Draft.ofFile? .full p content = some d →
    ∀ specifier ∈ d.sources, IsRelative t project specifier
  acyclic : ∀ p q, Relation.TransGen (TakesFrom t project) p q → p.same q = false

/-- A draft asks only for modules it imports or exports from. -/
theorem mem_sources_of_request? {d : Draft} {slot : Slot} {specifier : String} {mode : Mode}
    (member : slot ∈ d.slots) (request : request? d slot = some (specifier, mode)) :
    specifier ∈ d.sources := by
  rw [Draft.sources, List.mem_append]
  cases slot with
  | everything star =>
    cases request
    exact .inr (List.mem_filterMap.mpr ⟨_, member, rfl⟩)
  | entry e =>
    rw [request?] at request
    split at request
    · next target origin declaration =>
      cases request
      exact .inr (List.mem_filterMap.mpr ⟨_, member, by rw [Slot.source?, declaration]⟩)
    · split at request
      · next i leads =>
        split at request
        · cases request
        · cases request
          exact .inl (List.mem_map.mpr ⟨i, mem_imports_of_target? leads, rfl⟩)
      · cases request
    · cases request

/-- One module asks for another when it is linked. -/
def AsksFor (t : Tree) (project : Project) (p q : Path) : Prop :=
  ∃ d slot specifier mode, Draft.ofTree? t p = some d ∧ slot ∈ d.slots ∧
    request? d slot = some (specifier, mode) ∧ fileMeant t project p specifier = some q

/-- A part of a project that is in order: its modules ask by relative specifiers for modules of the
part, and none of them leads back to itself. -/
structure Straight (t : Tree) (project : Project) (S : Path → Prop) : Prop where
  respell : ∀ {p q}, p.same q = true → S p → S q
  relative : ∀ {p d slot specifier mode}, S p → Draft.ofTree? t p = some d → slot ∈ d.slots →
    request? d slot = some (specifier, mode) → IsRelative t project specifier
  closed : ∀ {p q}, S p → AsksFor t project p q → S q
  acyclic : ∀ {p q}, S p → Relation.TransGen (AsksFor t project) p q → p.same q = false

variable {S : Path → Prop}

theorem Straight.leads (h : Straight t project S) {p q : Path} (inside : S p)
    (leads : Relation.TransGen (AsksFor t project) p q) : S q := by
  induction leads with
  | single asks => exact h.closed inside asks
  | tail _ asks ih => exact h.closed ih asks

/-- A project in order is so as a whole. -/
theorem Orderly.straight (h : Orderly t project) : Straight t project fun _ => True := by
  have taken : ∀ {p d slot specifier mode}, Draft.ofTree? t p = some d → slot ∈ d.slots →
      request? d slot = some (specifier, mode) → ∃ content, t.read? p = some content ∧
        Draft.ofFile? .full p content = some d ∧ specifier ∈ d.sources ∧
        IsRelative t project specifier := by
    intro p d slot specifier mode isDraft member request
    obtain ⟨content, read, ofFile⟩ := Option.bind_eq_some_iff.mp isDraft
    have source := mem_sources_of_request? member request
    exact ⟨content, read, ofFile, source, h.relative p content d read ofFile specifier source⟩
  constructor
  · exact fun _ _ => trivial
  · intro p d slot specifier mode _ isDraft member request
    obtain ⟨-, -, -, -, relative⟩ := taken isDraft member request
    exact relative
  · exact fun _ _ => trivial
  · intro p q _ leads
    refine h.acyclic p q (Relation.TransGen.mono (fun p q asks => ?_) p q leads)
    obtain ⟨d, slot, specifier, mode, isDraft, member, request, meant⟩ := asks
    obtain ⟨content, read, ofFile, source, relative⟩ := taken isDraft member request
    exact ⟨content, d, specifier, read, ofFile, source, by rw [meaning_eq relative, meant]⟩

/-- What a module of the part asks for, in any mode, is relative and asked for by its full draft. -/
theorem Straight.request (h : Straight t project S) {p : Path} {content : String}
    {mode mode' : Mode} {d : Draft} {slot : Slot} {specifier : String} (inside : S p)
    (read : t.read? p = some content) (ok : Draft.ofFile mode p content = .ok d)
    (member : slot ∈ d.slots) (request : request? d slot = some (specifier, mode')) :
    IsRelative t project specifier ∧
      ∀ q, fileMeant t project p specifier = some q → AsksFor t project p q := by
  obtain ⟨whole, isWhole, member, request⟩ : ∃ whole, Draft.ofTree? t p = some whole ∧
      slot ∈ whole.slots ∧ request? whole slot = some (specifier, mode') := by
    have isDraft := Draft.ofFile?_eq_some.mpr ok
    rw [Draft.ofTree?, read, Option.bind_some]
    cases mode with
    | full => exact ⟨d, isDraft, member, request⟩
    | exportsOnly =>
      rw [Draft.ofFile?_exportsOnly] at isDraft
      obtain ⟨whole, isWhole, rfl⟩ := Option.map_eq_some_iff.mp isDraft
      rw [request?_withoutImports] at request
      split at request
      · cases request
      · exact ⟨whole, isWhole, member, request⟩
  exact ⟨h.relative inside isWhole member request,
    fun q meant => ⟨whole, slot, specifier, mode', isWhole, member, request, meant⟩⟩

/-! ## Loads -/

/-- What an atlas keeps agrees with a tree on a part of the project: what it keeps about resolving,
and its tables of modules of the part are what linking without keeping gives. -/
structure FaithfulOn (S : Path → Prop) (t : Tree) (project : Project) (atlas : Atlas) : Prop where
  settled : Settled t project atlas
  tables : ∀ e ∈ atlas.tables.entries, S e.path →
    PlainBuilt t project e.mode e.path e.content (some e.module)

/-- What an atlas keeps agrees with a tree. -/
abbrev Faithful : Tree → Project → Atlas → Prop := FaithfulOn fun _ => True

namespace FaithfulOn

variable {atlas atlas' : Atlas}

theorem start (t : Tree) (project : Project) : FaithfulOn S t project { project } :=
  ⟨.start t project, fun _ member => nomatch member⟩

theorem withTables (h : FaithfulOn S t project atlas) {tables : TableCache}
    (fewer : ∀ e ∈ tables.entries, e ∈ atlas.tables.entries) :
    FaithfulOn S t project { atlas with tables } :=
  ⟨h.settled.withTables tables, fun e member => h.tables e (fewer e member)⟩

theorem forgets (h : FaithfulOn S t project atlas) (fewer : Forgets atlas atlas') :
    FaithfulOn S t project atlas' :=
  ⟨h.settled.forgets fewer, fun e member => h.tables e (fewer.tables member)⟩

theorem resolve {specifier : String} {file : Path} {context : Option Path} {r : Option Location}
    (h : FaithfulOn S t project atlas)
    (resolving : atlas.resolve t specifier file context = (r, atlas')) :
    FaithfulOn S t project atlas' := by
  refine ⟨(h.settled.resolve resolving).1, fun e member => h.tables e ?_⟩
  rwa [← (resolve_cases resolving).2.1]

theorem finish {s : Session} {l : Location} {mode : Mode} {content : String} {m : Option Linked}
    (h : FaithfulOn S t project s.atlas) (straight : Straight t project S)
    (built : S l.path → PlainBuilt t project mode l.path content m) (level : Level) :
    FaithfulOn S t project (s.finish l mode content level m).atlas := by
  refine ⟨h.settled.finish l mode content level m, fun e member inside => ?_⟩
  rcases mem_keep member with ⟨member, -⟩ | ⟨-, isFor, rfl, rfl, -⟩
  · exact h.tables e member inside
  · obtain ⟨same, rfl⟩ := KeptTable.isFor_iff.mp isFor
    exact (built (straight.respell same inside)).congr (Path.same_symm same)

end FaithfulOn

/-- What a load does: it keeps what agrees with the tree on the part, and a module of the part is
what linking without keeping gives, with nothing cut. -/
structure LoadsPlainly (S : Path → Prop) (t : Tree) (project : Project) (l : Location) (mode : Mode)
    (s : Session) (m : Option Linked) (s' : Session) : Prop where
  kept : FaithfulOn S t project s'.atlas
  nesting : S l.path → s'.nesting = s.nesting
  plain : S l.path → Plain t project l.path mode m

/-- A load that agrees with the tree, from a state in which the modules of the part that are being
linked lead to it. -/
def PlainLoad (S : Path → Prop) (t : Tree) (project : Project) (l : Location) (mode : Mode)
    (s : Session) (m : Option Linked) (s' : Session) : Prop :=
  FaithfulOn S t project s.atlas →
    (∀ q ∈ s.nesting.stack, S q → Relation.TransGen (AsksFor t project) q l.path) →
    LoadsPlainly S t project l mode s m s'

/-- The answers that a module gets where loads agree with the tree. -/
abbrev PlainlyLoaded (S : Path → Prop) (t : Tree) (project : Project) :=
  LoadAnswer t fun l mode s m s' => Loads t l mode s m s' ∧ PlainLoad S t project l mode s m s'

theorem fetched_of_path {target : Location} {q : Path} (h : target.path = q) (m : Option Linked) :
    fetched target m = fetched ⟨q, none⟩ m := by
  subst h
  cases m <;> rfl

/-- Answers by loads to a module of the part are answers without keeping. -/
theorem plain_answers (straight : Straight t project S) {l : Location} {d : Draft}
    {slots : List Slot} {s s' : Session} {fs : List Fetched} (inside : S l.path)
    (asks : ∀ slot ∈ slots, ∀ specifier mode, request? d slot = some (specifier, mode) →
      IsRelative t project specifier ∧
        ∀ q, fileMeant t project l.path specifier = some q → AsksFor t project l.path q)
    (answered : Answered (PlainlyLoaded S t project l) d slots s fs s')
    (kept : FaithfulOn S t project s.atlas)
    (above : ∀ q, AsksFor t project l.path q → ∀ p ∈ s.nesting.stack, S p →
      Relation.TransGen (AsksFor t project) p q) :
    FaithfulOn S t project s'.atlas ∧ s'.nesting = s.nesting ∧
      Answered (PlainAnswer t project (Plain t project) l.path) d slots () fs () := by
  induction answered with
  | nil => exact ⟨kept, rfl, .nil⟩
  | silent request _ ih =>
    obtain ⟨kept, nesting, others⟩ :=
      ih (fun slot member => asks slot (List.mem_cons_of_mem _ member)) kept above
    exact ⟨kept, nesting, .silent request others⟩
  | @asked slot rest specifier mode s s₁ s' f fs request answer _ ih =>
    obtain ⟨relative, takes⟩ := asks slot List.mem_cons_self specifier mode request
    have first : FaithfulOn S t project s₁.atlas ∧ s₁.nesting = s.nesting ∧
        PlainAnswer t project (Plain t project) l.path specifier mode () f () := by
      rcases answer with ⟨atlas, found, rfl, rfl⟩ | ⟨target, atlas, m, found, ⟨-, load⟩, rfl⟩
      · have meant := ((kept.settled.resolve found).2 relative).1
        exact ⟨kept.resolve found, rfl, .inl ⟨meant.symm, rfl⟩⟩
      · have meant := ((kept.settled.resolve found).2 relative).1
        have asksFor := takes _ meant.symm
        have targetInside : S target.path := straight.closed inside asksFor
        have loads := load (kept.resolve found) (above _ asksFor)
        exact ⟨loads.kept, loads.nesting targetInside,
          .inr ⟨target.path, m, meant.symm, loads.plain targetInside, fetched_of_path rfl m⟩⟩
    obtain ⟨kept, nesting, first⟩ := first
    obtain ⟨kept, nesting', others⟩ :=
      ih (fun slot member => asks slot (List.mem_cons_of_mem _ member)) kept (nesting ▸ above)
    exact ⟨kept, nesting'.trans nesting, .asked request first others⟩

/-- Building a module of the part by loads is building it without keeping. -/
theorem plain_built (straight : Straight t project S) {l : Location} {mode : Mode}
    {content : String} {s s' : Session} {m : Option Linked} (inside : S l.path)
    (read : t.read? l.path = some content)
    (building : Built (PlainlyLoaded S t project l) Session.counted mode l.path content s m s')
    (kept : FaithfulOn S t project s.atlas)
    (above : ∀ q, AsksFor t project l.path q → ∀ p ∈ s.nesting.stack, S p →
      Relation.TransGen (AsksFor t project) p q) :
    FaithfulOn S t project s'.atlas ∧ s'.nesting = s.nesting ∧
      PlainBuilt t project mode l.path content m := by
  have counted : FaithfulOn S t project s.counted.atlas := kept.withTables fun e member => member
  cases building with
  | unsupported error => exact ⟨kept, rfl, .unsupported error⟩
  | plain ok settled => exact ⟨counted, rfl, .plain ok settled⟩
  | linked ok pending answered =>
    obtain ⟨kept, nesting, answered⟩ := plain_answers straight inside
      (fun slot member specifier mode' request => straight.request inside read ok member request)
      answered counted above
    exact ⟨kept, nesting, .linked ok pending answered⟩

/-- Building a module outside the part, while no module of the part is being linked, keeps what
agrees with the tree. -/
theorem built_outside {l : Location} {mode : Mode} {content : String} {s s' : Session}
    {m : Option Linked}
    (building : Built (PlainlyLoaded S t project l) Session.counted mode l.path content s m s')
    (kept : FaithfulOn S t project s.atlas) (outside : ∀ q ∈ s.nesting.stack, ¬ S q) :
    FaithfulOn S t project s'.atlas := by
  refine (building.keeps (I := fun s : Session => FaithfulOn S t project s.atlas ∧
    ∀ q ∈ s.nesting.stack, ¬ S q) ?_ ?_ ⟨kept, outside⟩).1
  · intro s start
    exact ⟨start.1.withTables fun e member => member, start.2⟩
  · intro specifier mode s f s' answer start
    obtain ⟨kept, outside⟩ := start
    rcases answer with ⟨atlas, found, rfl, rfl⟩ | ⟨target, atlas, m, found, ⟨loads, load⟩, rfl⟩
    · exact ⟨kept.resolve found, outside⟩
    · have loaded := load (kept.resolve found) fun q member inside =>
        absurd inside (outside q member)
      exact ⟨loaded.kept, loads.stack ▸ outside⟩

theorem FaithfulOn.loads (straight : Straight t project S) {l : Location} {mode : Mode}
    {s s' : Session} {m : Option Linked} (h : Loads t l mode s m s') :
    PlainLoad S t project l mode s m s' := by
  refine load_induction (P := PlainLoad S t project) ?_ ?_ ?_ ?_ h
  · exact fun unread kept _ => ⟨kept, fun _ => rfl, fun _ => plain_of_unread unread _⟩
  · intro l mode s content m tables read hit kept _
    obtain ⟨unchanged, e, member, same, rfl, rfl, rfl⟩ := TableCache.get_hit hit
    refine ⟨kept.withTables fun e member => unchanged ▸ member, fun _ => rfl, fun inside => ?_⟩
    have built := kept.tables e member (straight.respell (Path.same_symm same) inside)
    exact plain_of_built read (built.congr same)
  · intro l mode s content tables nesting _ missed pushed kept above
    have begun := kept.withTables fun e member => TableCache.mem_of_get missed member
    -- a module of the part would be being linked already, and so lead to itself
    have outside : ¬ S l.path := by
      intro inside
      obtain ⟨i, q, onStack, same, -⟩ := Nesting.push_none pushed
      have qInside : S q := straight.respell (Path.same_symm same) inside
      have apart := straight.acyclic qInside (above q (List.mem_of_getElem? onStack) qInside)
      rw [same] at apart
      cases apart
    exact ⟨begun, fun inside => absurd inside outside, fun inside => absurd inside outside⟩
  · intro l mode s content tables level nesting m s' read missed pushed building kept above
    obtain ⟨-, rfl, rfl⟩ := Nesting.push_some pushed
    have begun := kept.withTables fun e member => TableCache.mem_of_get missed member
    by_cases inside : S l.path
    · have below : ∀ q, AsksFor t project l.path q → ∀ p ∈ s.nesting.stack ++ [l.path], S p →
          Relation.TransGen (AsksFor t project) p q := by
        intro q asks p member pInside
        rcases List.mem_append.mp member with member | isOwn
        · exact (above p member pInside).tail asks
        · rw [List.mem_singleton] at isOwn
          exact isOwn ▸ .single asks
      obtain ⟨kept', nesting, built⟩ := plain_built straight inside read building begun below
      refine ⟨kept'.finish straight (fun _ => built) _, fun _ => ?_,
        fun _ => plain_of_built read built⟩
      rw [nesting_finish, Nesting.pop, nesting]
      dsimp only
      rw [List.take_left]
      rfl
    · -- nothing of the part leads here, so nothing of it is being linked
      have outside : ∀ q ∈ s.nesting.stack ++ [l.path], ¬ S q := by
        intro q member qInside
        rcases List.mem_append.mp member with member | isOwn
        · exact inside (straight.leads qInside (above q member qInside))
        · rw [List.mem_singleton] at isOwn
          exact inside (isOwn ▸ qInside)
      have kept' := built_outside building begun outside
      exact ⟨kept'.finish straight (fun again => absurd again inside) _,
        fun again => absurd again inside, fun again => absurd again inside⟩

/-! ## Edits -/

/-- A path is that of a file of aliases of a project. -/
def ConfiguresAliases (project : Project) (q : Path) : Prop :=
  q.fileName?.getD "" ∈ aliasFiles ∧ ∃ dir, q.parent? = some dir ∧ dir.same project.root = true

theorem configuresAliases_iff {q : Path} :
    (aliasFiles.contains (q.fileName?.getD "") &&
      (q.parent?.map (·.same project.root)).getD false) = true ↔ ConfiguresAliases project q := by
  rw [Bool.and_eq_true, List.contains_iff_mem, ConfiguresAliases]
  cases q.parent? with
  | none => simp
  | some dir => simp

instance (project : Project) (q : Path) : Decidable (ConfiguresAliases project q) :=
  decidable_of_iff _ configuresAliases_iff

/-- Forgetting about a file of aliases forgets everything that may depend on aliases. -/
theorem invalidate_of_configures {q : Path} {atlas : Atlas}
    (h : ConfiguresAliases atlas.project q) :
    (atlas.invalidate q).2.aliases = none ∧ (atlas.invalidate q).2.locations.entries = [] ∧
      (atlas.invalidate q).2.tables.entries = [] := by
  unfold invalidate
  dsimp only
  rw [if_pos (configuresAliases_iff.mpr h)]
  exact ⟨rfl, rfl, rfl⟩

theorem isName_of_mem_aliasFiles {name : String} (member : name ∈ aliasFiles) :
    Path.IsName name.toList := by
  rw [aliasFiles, List.mem_cons, List.mem_singleton] at member
  rcases member with rfl | rfl <;> simp [Path.IsName]

/-- A file of aliases of a project is recognized by its normal path. -/
theorem configuresAliases_join (root : project.root.IsNormal) {name : String}
    (member : name ∈ aliasFiles) : ConfiguresAliases project (project.root / name) := by
  obtain ⟨normal, components⟩ := root.join (isName_of_mem_aliasFiles member)
  constructor
  · rw [Path.fileName?_join (isName_of_mem_aliasFiles member)]
    exact member
  · cases parent : (project.root / name).parent? with
    | none =>
      obtain ⟨names, areNames, isRoot⟩ := Path.isNormal_iff.mp root
      rw [isRoot, Path.components_ofNames areNames, ← isRoot] at components
      rcases Path.parent?_eq_none parent with none | none <;> simp [none] at components
    | some dir =>
      refine ⟨dir, rfl, ?_⟩
      rw [Path.same_iff, (Path.components_parent? parent).2.2, components, List.dropLast_concat]

section Edits

variable {q : Path} {t' : Tree} {atlas : Atlas}

/-- An edit of another file leaves the aliases as they are. -/
theorem Edit.projectAliases_eq (edit : Edit t q t') (root : project.root.IsNormal)
    (other : ¬ ConfiguresAliases project q) :
    projectAliases t' project.root = projectAliases t project.root := by
  obtain ⟨place, located, edited⟩ := edit.edited
  refine Resolution.projectAliases_edited edited fun name member there => other ?_
  have configures := configuresAliases_join root member
  have normal := (root.join (isName_of_mem_aliasFiles member)).1
  rwa [← Tree.locate?_inj normal edit.normal there located]

theorem Settled.edit (h : Settled t project atlas) (edit : Edit t q t')
    (aliases : projectAliases t' project.root = projectAliases t project.root) :
    Settled t' project atlas := by
  obtain ⟨place, -, edited⟩ := edit.edited
  refine ⟨h.sameProject, fun a read => aliases ▸ h.aliases a read, fun e member relative file => ?_⟩
  rw [IsRelative, aliases] at relative
  obtain ⟨meant, inContext⟩ := h.locations e member relative (edited.isFile_of_isFile file)
  refine ⟨?_, inContext⟩
  rw [fileMeant, aliases]
  exact Resolution.relativeFile_edited edited meant file

/-- After an edit, and with the edited file forgotten, what is kept agrees with the new tree. -/
theorem FaithfulOn.edit (h : FaithfulOn S t project atlas) (edit : Edit t q t')
    (root : project.root.IsNormal) (slashless : Slashless project.extensions) :
    FaithfulOn S t' project (atlas.invalidate q).2 := by
  have sameProject := (forgets_invalidate q atlas).project.trans h.settled.sameProject
  by_cases configures : ConfiguresAliases project q
  · obtain ⟨noAliases, noLocations, noTables⟩ :=
      invalidate_of_configures (h.settled.sameProject.symm ▸ configures)
    refine ⟨⟨sameProject, fun a read => ?_, fun e member => ?_⟩, fun e member => ?_⟩
    · rw [noAliases] at read
      cases read
    · rw [noLocations] at member
      cases member
    · rw [noTables] at member
      cases member
  · have aliases := edit.projectAliases_eq root configures
    refine ⟨(h.settled.edit edit aliases).forgets (forgets_invalidate q atlas), fun e member => ?_⟩
    obtain ⟨kept, different, independent⟩ := mem_invalidate member
    exact fun inside =>
      edit.plainBuilt aliases slashless (h.tables e kept inside) different independent

end Edits

/-! ## Answers -/

/-- The specifier that an operation asks for. -/
def Operation.specifier? : Operation → Option String
  | .resolve specifier _ _ => some specifier
  | .importModule specifier _ => some specifier
  | _ => none

/-- A query of a project in order, for a relative specifier. -/
structure Admissible (t : Tree) (project : Project) (operation : Operation) : Prop where
  orderly : Orderly t project
  relative : ∀ specifier ∈ operation.specifier?, IsRelative t project specifier

/-- The trees and atlases that a project can come to from a new atlas, by operations and by edits
of which the atlas is told; whenever something is asked, the project is in order. -/
inductive Lived (project : Project) : Tree → Atlas → Prop
  | start (t : Tree) : Lived project t { project }
  | operate {t : Tree} {atlas : Atlas} (operation : Operation) : Lived project t atlas →
    (operation.isQuery = true → Admissible t project operation) →
    Lived project t (perform t operation atlas).2
  | edit {t t' : Tree} {atlas : Atlas} {q : Path} : Lived project t atlas → Edit t q t' →
    Lived project t' (atlas.invalidate q).2

/-- Two answers are equal, contexts up to their spelling. -/
def Answer.Same : Answer → Answer → Prop
  | .location l, .location l' =>
    l.map (·.path) = l'.map (·.path) ∧
      sameContext (l.bind (·.context)) (l'.bind (·.context)) = true
  | a, b => a = b

theorem Lived.kept {atlas : Atlas} (root : project.root.IsNormal)
    (slashless : Slashless project.extensions) (h : Lived project t atlas) :
    Faithful t project atlas ∧ KeepsNormal atlas := by
  induction h with
  | start t => exact ⟨.start t project, slashless, fun e member => nomatch member⟩
  | @operate t atlas operation _ admissible ih =>
    obtain ⟨faithful, normal⟩ := ih
    refine ⟨?_, normal.perform t operation⟩
    cases query : operation.isQuery with
    | false => exact faithful.forgets (forgets_perform query t atlas)
    | true =>
      refine perform_keeps (fun resolving kept => kept.resolve resolving) (fun loads kept => ?_)
        (fun forgets kept => kept.forgets forgets) operation atlas faithful
      exact (FaithfulOn.loads (admissible query).orderly.straight loads kept
        fun q member => nomatch member).kept
  | edit _ edit ih =>
    obtain ⟨faithful, normal⟩ := ih
    exact ⟨faithful.edit edit root slashless, normal.forgets (forgets_invalidate _ _)⟩

/-- The table of a module of a part in order is what linking without keeping gives. -/
theorem exists_plain {atlas : Atlas} (straight : Straight t project S)
    (faithful : FaithfulOn S t project atlas) (normal : KeepsNormal atlas) {l : Location}
    (inside : S l.path) (mode : Mode) :
    ∃ m, Plain t project l.path mode m ∧ (atlas.loadTable t l mode).1 = m.map (·.table) := by
  obtain ⟨m, s', loading⟩ := exists_load normal t l mode
  have loads := FaithfulOn.loads straight ⟨_, loading⟩ faithful fun q member => nomatch member
  exact ⟨m, loads.plain inside, by rw [loadTable, loading]⟩

/-- Two atlases that agree with a tree have the same tables for one path. -/
theorem loadTable_eq {atlas atlas' : Atlas} (orderly : Orderly t project)
    (left : Faithful t project atlas ∧ KeepsNormal atlas)
    (right : Faithful t project atlas' ∧ KeepsNormal atlas') {l l' : Location}
    (same : l.path = l'.path) (mode : Mode) :
    (atlas.loadTable t l mode).1 = (atlas'.loadTable t l' mode).1 := by
  obtain ⟨m, plain, table⟩ := exists_plain orderly.straight left.1 left.2 trivial mode
  obtain ⟨m', plain', table'⟩ := exists_plain orderly.straight right.1 right.2 trivial mode
  rw [table, table', plain.unique (same ▸ plain')]

/-- Two atlases that agree with a tree resolve relative specifiers alike. -/
theorem resolve_same {atlas atlas' atlas₁ atlas₂ : Atlas} (left : Settled t project atlas)
    (right : Settled t project atlas') {specifier : String} {file : Path} {context : Option Path}
    {l l' : Option Location} (relative : IsRelative t project specifier)
    (found : atlas.resolve t specifier file context = (l, atlas₁))
    (found' : atlas'.resolve t specifier file context = (l', atlas₂)) :
    l.map (·.path) = l'.map (·.path) ∧
      sameContext (l.bind (·.context)) (l'.bind (·.context)) = true := by
  obtain ⟨meant, inContext⟩ := (left.resolve found).2 relative
  obtain ⟨meant', inContext'⟩ := (right.resolve found').2 relative
  have paths := meant.trans meant'.symm
  refine ⟨paths, ?_⟩
  cases l with
  | none =>
    cases l' with
    | none => rfl
    | some l' => cases paths
  | some l =>
    cases l' with
    | none => cases paths
    | some l' => exact sameContext_trans (inContext l rfl) (sameContext_symm (inContext' l' rfl))

/-- Two atlases that agree with a tree import the same tables. -/
theorem importModule_eq {atlas atlas' : Atlas} (orderly : Orderly t project)
    (left : Faithful t project atlas ∧ KeepsNormal atlas)
    (right : Faithful t project atlas' ∧ KeepsNormal atlas') {specifier : String}
    (relative : IsRelative t project specifier) (file : Path) :
    (atlas.importModule t specifier file).1 = (atlas'.importModule t specifier file).1 := by
  unfold importModule
  cases found : atlas.resolve t specifier file none with
  | mk l atlas₁ =>
    cases found' : atlas'.resolve t specifier file none with
    | mk l' atlas₂ =>
      have paths := (resolve_same left.1.settled right.1.settled relative found found').1
      cases l with
      | none =>
        cases l' with
        | none => rfl
        | some l' => cases paths
      | some l =>
        cases l' with
        | none => cases paths
        | some l' =>
          exact loadTable_eq orderly ⟨left.1.resolve found, (left.2.resolve found).1⟩
            ⟨right.1.resolve found', (right.2.resolve found').1⟩ (Option.some.inj paths) .full

/-- Where all specifiers are relative and no module leads back to itself, an atlas that was told of
every edit answers every query as a new one does. -/
theorem answers_fresh {atlas : Atlas} (root : project.root.IsNormal)
    (slashless : Slashless project.extensions) (lived : Lived project t atlas)
    (operation : Operation) (query : operation.isQuery = true)
    (admissible : Admissible t project operation) :
    Answer.Same (perform t operation atlas).1 (perform t operation { project }).1 := by
  have kept := lived.kept root slashless
  have fresh := (Lived.start t).kept root slashless
  cases operation with
  | resolve specifier file context =>
    exact resolve_same kept.1.settled fresh.1.settled (admissible.relative specifier rfl) rfl rfl
  | tableAt path mode =>
    exact congrArg Answer.table (loadTable_eq admissible.orderly kept fresh rfl mode)
  | importModule specifier file =>
    exact congrArg Answer.table
      (importModule_eq admissible.orderly kept fresh (admissible.relative specifier rfl) file)
  | _ => cases query

/-- It is enough to look at the texts of the files, if all that take from a file take from one file
by its whole path, and that one takes from none. -/
theorem orderly_of_texts (q : Path) (content : String) (read : t.read? q = some content)
    (texts : ∀ text ∈ t.texts, ∀ d ∈ Draft.possible .full text, ∀ specifier ∈ d.sources,
      text ≠ content ∧ IsRelative t project specifier ∧ (⟨specifier⟩ : Path).isAbsolute = true ∧
        (projectAliases t project.root).expand specifier = none ∧
        Resolution.fileFor t project.extensions (⟨specifier⟩ : Path).normalize = some q) :
    Orderly t project := by
  have taken : ∀ {p x}, TakesFrom t project p x →
      x = q ∧ ∃ text, t.read? p = some text ∧ text ≠ content := by
    rintro p x ⟨text, d, specifier, readP, isDraft, source, means⟩
    obtain ⟨other, relative, absolute, unaliased, file⟩ :=
      texts text (Tree.mem_texts readP) d (Draft.mem_possible isDraft) specifier source
    rw [meaning_eq relative, fileMeant, Resolution.relativeFile, Resolution.relativePath, unaliased]
      at means
    dsimp only at means
    rw [if_pos absolute, Option.bind_some, file] at means
    exact ⟨(Option.some.inj means).symm, text, readP, other⟩
  refine ⟨fun p text d readP isDraft specifier source =>
    (texts text (Tree.mem_texts readP) d (Draft.mem_possible isDraft) specifier source).2.1, ?_⟩
  intro p x leads
  obtain ⟨rfl, text, readP, other⟩ : x = q ∧ ∃ text, t.read? p = some text ∧ text ≠ content := by
    induction leads with
    | single takes => exact taken takes
    | tail _ takes ih =>
      obtain ⟨rfl, -⟩ := ih
      obtain ⟨-, text, readQ, other⟩ := taken takes
      exact absurd (Option.some.inj (readQ.symm.trans read)) other
  exact Bool.eq_false_iff.mpr fun same => other (Tree.read?_of_same same readP read)

/-- A module that exports everything of another, which has the given text. -/
def chainTree (text : String) : Tree :=
  (({} : Tree).write ⟨"/p/main.ts"⟩ (.text "export * from '/p/lib';")).write ⟨"/p/lib.ts"⟩
    (.text text)

/-- The question for the first module of the chain. -/
def askMain : Operation := .tableAt ⟨"/p/main.ts"⟩ .full

/-- An atlas that was asked for the first module of the chain and told of an edit of the other. -/
def toldAtlas : Atlas :=
  ((perform (chainTree "export const a = 1;") askMain { project := sample }).2.invalidate
    ⟨"/p/lib.ts"⟩).2

theorem answers_fresh_chain :
    Lived sample (chainTree "export const b = 2;") toldAtlas ∧
    Admissible (chainTree "export const b = 2;") sample askMain ∧
    Answer.Same (perform (chainTree "export const b = 2;") askMain toldAtlas).1
      (perform (chainTree "export const b = 2;") askMain { project := sample }).1 := by
  have before : Admissible (chainTree "export const a = 1;") sample askMain :=
    ⟨orderly_of_texts ⟨"/p/lib.ts"⟩ "export const a = 1;" (by decide +kernel) (by decide +kernel),
      fun _ h => nomatch h⟩
  have after : Admissible (chainTree "export const b = 2;") sample askMain :=
    ⟨orderly_of_texts ⟨"/p/lib.ts"⟩ "export const b = 2;" (by decide +kernel) (by decide +kernel),
      fun _ h => nomatch h⟩
  have edit : Edit (chainTree "export const a = 1;") ⟨"/p/lib.ts"⟩
      (chainTree "export const b = 2;") :=
    ⟨by decide +kernel, by decide +kernel, .inr ⟨.text "export const b = 2;", by decide +kernel⟩⟩
  have lived : Lived sample (chainTree "export const b = 2;") toldAtlas :=
    ((Lived.start _).operate askMain fun _ => before).edit edit
  exact ⟨lived, after, answers_fresh (by decide +kernel) (by decide) lived askMain rfl after⟩

end ModuleAtlas.Atlas
