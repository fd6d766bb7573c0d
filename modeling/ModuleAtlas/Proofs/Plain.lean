import ModuleAtlas.Proofs.Draft
import ModuleAtlas.Proofs.Settled

/-!
# Linking without keeping

`plain` links the module at a path by reading every file it leads to, each time anew, and keeps
nothing. What it gives is a function of the tree (`Plain.unique`) and of the path up to its spelling
(`PlainBuilt.congr`). It is what an atlas has to answer.

An edit of one file leaves the result of `plain` as it is, if the file is neither the module's nor
one of its dependencies (`Edit.plainBuilt`): whatever was read on the way is among them.
-/

namespace ModuleAtlas.Atlas

open Draft (Mode Slot)
open Resolution (Location Slashless)

variable {t : Tree} {project : Project}

/-- Asks for the module a relative specifier means, where nothing is kept. -/
def plainFetch (t : Tree) (project : Project) (plain : Path → Mode → Option (Option Linked))
    (p : Path) : Fetch Unit := fun specifier mode _ =>
  match fileMeant t project p specifier with
  | none => some ({}, ())
  | some q => (plain q mode).map fun m => (fetched ⟨q, none⟩ m, ())

/-- The module at a path, where nothing is kept. -/
def plain (t : Tree) (project : Project) : (fuel : Nat) → Path → Mode → Option (Option Linked)
  | 0, _, _ => none
  | fuel + 1, p, mode =>
    match t.read? p with
    | none => some none
    | some content =>
      (buildWith (plainFetch t project (plain t project fuel) p) id mode p content ()).map (·.1)

/-- Linking the module at a path, with enough fuel, gives `m`. -/
def Plain (t : Tree) (project : Project) (p : Path) (mode : Mode) (m : Option Linked) : Prop :=
  ∃ fuel, plain t project fuel p mode = some m

/-- The answer to a request of the module at `p`, where `Q` says which modules are at which
paths. -/
def PlainAnswer (t : Tree) (project : Project) (Q : Path → Mode → Option Linked → Prop) (p : Path)
    (specifier : String) (mode : Mode) (_ : Unit) (f : Fetched) (_ : Unit) : Prop :=
  (fileMeant t project p specifier = none ∧ f = {}) ∨
  ∃ q m, fileMeant t project p specifier = some q ∧ Q q mode m ∧ f = fetched ⟨q, none⟩ m

/-- What linking a content at a path gives. -/
def PlainBuilt (t : Tree) (project : Project) (mode : Mode) (p : Path) (content : String)
    (m : Option Linked) : Prop :=
  Built (PlainAnswer t project (Plain t project) p) id mode p content () m ()

/-! ## Fuel -/

theorem plainFetch_iff {plain : Path → Mode → Option (Option Linked)} {p : Path}
    {specifier : String} {mode : Mode} {u u' : Unit} {f : Fetched} :
    (plainFetch t project plain p).Gives specifier mode u f u' ↔
      PlainAnswer t project (fun q mode m => plain q mode = some m) p specifier mode u f u' := by
  unfold Fetch.Gives plainFetch PlainAnswer
  cases fileMeant t project p specifier with
  | none => simp [eq_comm]
  | some q =>
    dsimp only
    rw [Option.map_eq_some_iff]
    constructor
    · rintro ⟨m, load, whole⟩
      cases whole
      exact .inr ⟨q, m, rfl, load, rfl⟩
    · rintro (⟨none, -⟩ | ⟨q', m, meant, load, rfl⟩)
      · cases none
      · cases meant
        exact ⟨m, load, rfl⟩

theorem plain_succ {fuel : Nat} {p : Path} {mode : Mode} {m : Option Linked}
    (h : plain t project fuel p mode = some m) : plain t project (fuel + 1) p mode = some m := by
  induction fuel generalizing p mode m with
  | zero => cases h
  | succ fuel ih =>
    rw [plain] at h ⊢
    split at h
    · exact h
    · obtain ⟨built, building, rfl⟩ := Option.map_eq_some_iff.mp h
      refine Option.map_eq_some_iff.mpr ⟨built, buildWith_mono (fun gives => ?_) building, rfl⟩
      rw [plainFetch_iff] at gives ⊢
      rcases gives with none | ⟨q, m, meant, load, rfl⟩
      · exact .inl none
      · exact .inr ⟨q, m, meant, ih load, rfl⟩

theorem plain_of_le {fuel more : Nat} {p : Path} {mode : Mode} {m : Option Linked}
    (h : plain t project fuel p mode = some m) (le : fuel ≤ more) :
    plain t project more p mode = some m := by
  induction le with
  | refl => exact h
  | step _ ih => exact plain_succ ih

/-- The module at a path is a function of the tree. -/
theorem Plain.unique {p : Path} {mode : Mode} {m m' : Option Linked}
    (left : Plain t project p mode m) (right : Plain t project p mode m') : m = m' := by
  obtain ⟨fuel, left⟩ := left
  obtain ⟨fuel', right⟩ := right
  have common := (plain_of_le left (Nat.le_max_left fuel fuel')).symm.trans
    (plain_of_le right (Nat.le_max_right fuel fuel'))
  exact Option.some.inj common

/-- Answers that each need some fuel can all be had with one fuel. -/
theorem exists_fuel {p : Path} {d : Draft} {slots : List Slot} {u u' : Unit} {fs : List Fetched}
    (answered : Answered (PlainAnswer t project (Plain t project) p) d slots u fs u') :
    ∃ fuel, Answered (plainFetch t project (plain t project fuel) p).Gives d slots u fs u' := by
  have enough : ∀ {fuel more : Nat}, fuel ≤ more → ∀ {specifier mode u f u'},
      (plainFetch t project (plain t project fuel) p).Gives specifier mode u f u' →
      (plainFetch t project (plain t project more) p).Gives specifier mode u f u' := by
    intro fuel more le specifier mode u f u' gives
    rw [plainFetch_iff] at gives ⊢
    rcases gives with none | ⟨q, m, meant, load, rfl⟩
    · exact .inl none
    · exact .inr ⟨q, m, meant, plain_of_le load le, rfl⟩
  induction answered with
  | nil => exact ⟨0, .nil⟩
  | silent request _ ih =>
    obtain ⟨fuel, others⟩ := ih
    exact ⟨fuel, .silent request others⟩
  | @asked slot rest specifier mode u u₁ u' f fs request answer _ ih =>
    obtain ⟨fuel, others⟩ := ih
    have first : ∃ fuel,
        (plainFetch t project (plain t project fuel) p).Gives specifier mode u f u₁ := by
      rcases answer with none | ⟨q, m, meant, ⟨fuel, load⟩, rfl⟩
      · exact ⟨0, plainFetch_iff.mpr (.inl none)⟩
      · exact ⟨fuel, plainFetch_iff.mpr (.inr ⟨q, m, meant, load, rfl⟩)⟩
    obtain ⟨fuel', gives⟩ := first
    exact ⟨max fuel fuel', .asked request (enough (Nat.le_max_right _ _) gives)
      (others.mono (enough (Nat.le_max_left _ _)))⟩

/-- What holds of a module that cannot be read, and of a module linked from modules of which it
holds, holds of every module. -/
theorem plain_induction {P : Path → Mode → Option Linked → Prop}
    (unreadable : ∀ {p mode}, t.read? p = none → P p mode none)
    (built : ∀ {p mode content m}, t.read? p = some content →
      Built (PlainAnswer t project (fun q mode m => Plain t project q mode m ∧ P q mode m) p) id
        mode p content () m () → P p mode m)
    {p : Path} {mode : Mode} {m : Option Linked} (h : Plain t project p mode m) : P p mode m := by
  obtain ⟨fuel, h⟩ := h
  induction fuel generalizing p mode m with
  | zero => cases h
  | succ fuel ih =>
    rw [plain] at h
    split at h
    · next unread =>
      cases h
      exact unreadable unread
    · next content read =>
      obtain ⟨⟨m, u⟩, building, rfl⟩ := Option.map_eq_some_iff.mp h
      refine built read ((buildWith_iff.mp building).mono fun gives => ?_)
      rcases plainFetch_iff.mp gives with none | ⟨q, m, meant, load, rfl⟩
      · exact .inl none
      · exact .inr ⟨q, m, meant, ⟨⟨fuel, load⟩, ih load⟩, rfl⟩

theorem PlainAnswer.mono {Q Q' : Path → Mode → Option Linked → Prop}
    (weaken : ∀ {q mode m}, Q q mode m → Q' q mode m) {p : Path} {specifier : String} {mode : Mode}
    {u u' : Unit} {f : Fetched} (h : PlainAnswer t project Q p specifier mode u f u') :
    PlainAnswer t project Q' p specifier mode u f u' := by
  rcases h with none | ⟨q, m, meant, holds, rfl⟩
  · exact .inl none
  · exact .inr ⟨q, m, meant, weaken holds, rfl⟩

theorem plain_of_unread {p : Path} (unread : t.read? p = none) (mode : Mode) :
    Plain t project p mode none :=
  ⟨1, by rw [plain, unread]⟩

theorem plain_of_built {p : Path} {mode : Mode} {content : String} {m : Option Linked}
    (read : t.read? p = some content) (h : PlainBuilt t project mode p content m) :
    Plain t project p mode m := by
  have built : ∃ fuel,
      buildWith (plainFetch t project (plain t project fuel) p) id mode p content () =
        some (m, ()) := by
    cases h with
    | unsupported error => exact ⟨0, buildWith_iff.mpr (.unsupported error)⟩
    | plain ok settled => exact ⟨0, buildWith_iff.mpr (.plain ok settled)⟩
    | linked ok pending answered =>
      obtain ⟨fuel, answered⟩ := exists_fuel answered
      exact ⟨fuel, buildWith_iff.mpr (.linked ok pending answered)⟩
  obtain ⟨fuel, built⟩ := built
  refine ⟨fuel + 1, ?_⟩
  rw [plain, read]
  dsimp only
  rw [built]
  rfl

/-- A module is what linking its content gives. -/
theorem Plain.built {p : Path} {mode : Mode} {content : String} {m : Option Linked}
    (h : Plain t project p mode m) (read : t.read? p = some content) :
    PlainBuilt t project mode p content m := by
  refine plain_induction (P := fun p mode m => ∀ content, t.read? p = some content →
    PlainBuilt t project mode p content m) ?_ ?_ h content read
  · intro p mode unread content read
    rw [unread] at read
    cases read
  · intro p mode content m read building content' read'
    rw [read] at read'
    cases read'
    exact building.mono fun answer => answer.mono fun holds => holds.1

theorem PlainBuilt.eq_none {p : Path} {mode : Mode} {content : String} {m : Option Linked}
    (h : PlainBuilt t project mode p content m) (unknown : Draft.ofFile? mode p content = none) :
    m = none := by
  cases h with
  | unsupported error => rfl
  | plain ok settled =>
    rw [Draft.ofFile?_eq_some.mpr ok] at unknown
    cases unknown
  | linked ok pending answered =>
    rw [Draft.ofFile?_eq_some.mpr ok] at unknown
    cases unknown

/-- The draft of a file is taken as it is or linked. -/
theorem PlainBuilt.of_draft {p : Path} {mode : Mode} {content : String} {m : Option Linked}
    {d : Draft} (h : PlainBuilt t project mode p content m)
    (isDraft : Draft.ofFile? mode p content = some d) :
    (d.isPending = false ∧ m = some { table := d.unlinked }) ∨
      (d.isPending = true ∧ ∃ fs, m = some (linkedWith p d fs) ∧
        Answered (PlainAnswer t project (Plain t project) p) d d.slots () fs ()) := by
  have isOk := Draft.ofFile?_eq_some.mp isDraft
  cases h with
  | unsupported error =>
    rw [isOk] at error
    cases error
  | plain ok settled =>
    rw [isOk] at ok
    cases ok
    exact .inl ⟨settled, rfl⟩
  | linked ok pending answered =>
    rw [isOk] at ok
    cases ok
    exact .inr ⟨pending, _, rfl, answered⟩

theorem PlainAnswer.unique {p : Path} {specifier : String} {mode : Mode} {u u' v v' : Unit}
    {f f' : Fetched} (left : PlainAnswer t project (Plain t project) p specifier mode u f u')
    (right : PlainAnswer t project (Plain t project) p specifier mode v f' v') : f = f' := by
  rcases left with ⟨none, rfl⟩ | ⟨q, m, meant, plain, rfl⟩
  · rcases right with ⟨-, rfl⟩ | ⟨q', m', meant', -, -⟩
    · rfl
    · rw [none] at meant'
      cases meant'
  · rcases right with ⟨none, -⟩ | ⟨q', m', meant', plain', rfl⟩
    · rw [none] at meant
      cases meant
    · rw [meant] at meant'
      cases meant'
      rw [plain.unique plain']

/-! ## Spellings -/

theorem dependencySet_congr {own own' : Path} (same : own.same own' = true) (paths : List Path) :
    dependencySet own paths = dependencySet own' paths := by
  rw [dependencySet, dependencySet]
  congr 1
  funext p
  rw [Path.same_congr_right same]

/-- Spellings of one path give one module for one content. -/
theorem PlainBuilt.congr {p q : Path} {mode : Mode} {content : String} {m : Option Linked}
    (same : p.same q = true) (h : PlainBuilt t project mode p content m) :
    PlainBuilt t project mode q content m := by
  have ofFile? := Draft.ofFile?_congr same mode content
  cases h with
  | unsupported error =>
    rw [Draft.ofFile?_eq_none.mpr ⟨_, error⟩, eq_comm, Draft.ofFile?_eq_none] at ofFile?
    obtain ⟨e, error⟩ := ofFile?
    exact .unsupported error
  | plain ok settled =>
    rw [Draft.ofFile?_eq_some.mpr ok, eq_comm, Draft.ofFile?_eq_some] at ofFile?
    exact .plain ofFile? settled
  | linked ok pending answered =>
    rw [Draft.ofFile?_eq_some.mpr ok, eq_comm, Draft.ofFile?_eq_some] at ofFile?
    rw [linkedWith, dependencySet_congr same]
    refine .linked ofFile? pending (answered.mono fun answer => ?_)
    rwa [PlainAnswer, ← fileMeant_congr same]

/-! ## Edits -/

/-- A tree in which one file was overwritten or deleted, named by its normal path. -/
structure Edit (t : Tree) (q : Path) (t' : Tree) : Prop where
  normal : q.IsNormal
  file : t.isFile q = true
  change : t' = t.delete q ∨ ∃ content, t' = t.write q content

section Edits

variable {q : Path} {t' : Tree}

theorem Edit.edited (edit : Edit t q t') :
    ∃ place, t.locate? q = some place ∧ Tree.Edited t t' place := by
  obtain ⟨c, found⟩ := Tree.isFile_iff.mp edit.file
  obtain ⟨place, located, node⟩ := Tree.get?_eq_some found
  refine ⟨place, located, ?_⟩
  rcases edit.change with rfl | ⟨content, rfl⟩
  · exact Tree.edited_delete located node
  · obtain ⟨names, isName, rfl⟩ := Path.isNormal_iff.mp edit.normal
    exact Tree.edited_write isName located node content

/-- Another normal path does not lead to the edited file. -/
theorem Edit.away (edit : Edit t q t') {place : List String} (located : t.locate? q = some place)
    {x : Path} (normal : x.IsNormal) (different : x.same q = false) :
    t.locate? x ≠ some place := by
  intro there
  rw [Tree.locate?_inj normal edit.normal there located, Path.same_refl] at different
  cases different

theorem fileMeant_isNormal (slashless : Slashless project.extensions) {p x : Path}
    {specifier : String} (meant : fileMeant t project p specifier = some x) : x.IsNormal :=
  (Resolution.relativeFile_isNormal slashless meant).1

/-- What an edit leaves as it is: the modules that the edited file has no part in. -/
def Unedited (t' : Tree) (project : Project) (q x : Path) (mode : Mode) (m : Option Linked) :
    Prop :=
  x.IsNormal → x.same q = false →
    (∀ linked, m = some linked → among linked.dependencies q = false) →
    Plain t' project x mode m

theorem among_fetched_false {target : Location} {m : Option Linked}
    (h : among (fetched target m).dependencies q = false) :
    target.path.same q = false ∧
      ∀ linked, m = some linked → among linked.dependencies q = false := by
  cases m with
  | none =>
    rw [fetched, among, List.any_cons, Bool.or_eq_false_iff] at h
    refine ⟨h.1, ?_⟩
    rintro _ ⟨⟩
  | some m =>
    rw [fetched, among, List.any_cons, Bool.or_eq_false_iff] at h
    refine ⟨h.1, ?_⟩
    rintro _ ⟨⟩
    exact h.2

section OtherFiles

variable (edit : Edit t q t')
  (aliases : Resolution.projectAliases t' project.root = Resolution.projectAliases t project.root)
  (slashless : Slashless project.extensions)
include edit aliases slashless

/-- Where the aliases stay the same, a specifier means what it meant, unless that was the edited
file. -/
theorem Edit.fileMeant_eq {p : Path} {specifier : String}
    (other : ∀ x, fileMeant t project p specifier = some x → x.same q = false) :
    fileMeant t' project p specifier = fileMeant t project p specifier := by
  obtain ⟨place, located, edited⟩ := edit.edited
  have unaliased : fileMeant t' project p specifier =
      Resolution.relativeFile t' project (Resolution.projectAliases t project.root) p
        specifier := by
    rw [fileMeant, aliases]
  rw [unaliased]
  cases meant : fileMeant t project p specifier with
  | none => exact Resolution.relativeFile_edited_none edited meant
  | some x =>
    obtain ⟨normal, file⟩ := Resolution.relativeFile_isNormal slashless meant
    refine Resolution.relativeFile_edited edited meant ?_
    rwa [edited.isFile_eq (edit.away located normal (other x meant))]

/-- Answers that did not lead to the edited file stay the same. -/
theorem Edit.answered {p : Path} {d : Draft} {slots : List Slot} {u u' : Unit} {fs : List Fetched}
    (h : Answered (PlainAnswer t project (Unedited t' project q) p) d slots u fs u')
    (apart : among (pathsOf fs) q = false) :
    Answered (PlainAnswer t' project (Plain t' project) p) d slots u fs u' := by
  induction h with
  | nil => exact .nil
  | silent request _ ih => exact .silent request (ih apart)
  | @asked slot rest specifier mode u u₁ u' f fs request answer _ ih =>
    rw [pathsOf, List.flatMap_cons, among, List.any_append, Bool.or_eq_false_iff] at apart
    refine .asked request ?_ (ih apart.2)
    rcases answer with ⟨none, rfl⟩ | ⟨x, m, meant, unedited, rfl⟩
    · refine .inl ⟨?_, rfl⟩
      rw [edit.fileMeant_eq aliases slashless (by simp [none]), none]
    · obtain ⟨different, independent⟩ := among_fetched_false apart.1
      have normal := fileMeant_isNormal slashless meant
      refine .inr ⟨x, m, ?_, unedited normal different independent, rfl⟩
      rw [edit.fileMeant_eq aliases slashless, meant]
      rintro _ meant'
      cases meant.symm.trans meant'
      exact different

theorem Edit.built {mode : Mode} {p : Path} {content : String} {m : Option Linked}
    (h : Built (PlainAnswer t project (Unedited t' project q) p) id mode p content () m ())
    (different : p.same q = false)
    (independent : ∀ linked, m = some linked → among linked.dependencies q = false) :
    PlainBuilt t' project mode p content m := by
  cases h with
  | unsupported error => exact .unsupported error
  | plain ok settled => exact .plain ok settled
  | linked ok pending answered =>
    refine .linked ok pending (edit.answered aliases slashless answered ?_)
    -- the dependencies of a module leave out its own path, which is another one
    refine Bool.eq_false_iff.mpr fun led => ?_
    have depends := among_dependencySet.mpr ⟨led, by rwa [Path.same_comm]⟩
    exact Bool.false_ne_true ((independent _ rfl).symm.trans depends)

/-- An edit leaves every module as it is that the edited file has no part in. -/
theorem Edit.plain {x : Path} {mode : Mode} {m : Option Linked} (h : Plain t project x mode m) :
    Unedited t' project q x mode m := by
  obtain ⟨place, located, edited⟩ := edit.edited
  refine plain_induction (P := Unedited t' project q) ?_ ?_ h
  · intro p mode unread normal different _
    refine plain_of_unread ?_ mode
    rw [edited.read?_eq (edit.away located normal different), unread]
  · intro p mode content m read building normal different independent
    refine plain_of_built ?_ (edit.built aliases slashless (building.mono fun answer =>
      answer.mono fun holds => holds.2) different independent)
    rw [edited.read?_eq (edit.away located normal different), read]

theorem Edit.plainBuilt {mode : Mode} {p : Path} {content : String} {m : Linked}
    (h : PlainBuilt t project mode p content (some m)) (different : p.same q = false)
    (independent : among m.dependencies q = false) :
    PlainBuilt t' project mode p content (some m) := by
  refine edit.built aliases slashless (Built.mono (fun answer => answer.mono fun holds =>
    edit.plain aliases slashless holds) h) different ?_
  rintro _ ⟨⟩
  exact independent

end OtherFiles

end Edits

end ModuleAtlas.Atlas
