import ModuleAtlas.Draft.File
import ModuleAtlas.Proofs.Path
import ModuleAtlas.Tree.Basic

/-!
# What a draft depends on

The draft of a file is a function of its content and of the extension in its name, so two spellings
of a path give one draft (`ofFile?_congr`). Taking only the exports of a file leaves out its imports
and nothing else (`ofFile?_exportsOnly`): the slots are the same in both modes (`slots_ofFile?`).
-/

namespace ModuleAtlas.Draft

open Symbols Syntax

/-! ## Facts that are imports -/

/-- Whether a fact is an import. -/
def Fact.isImport : Fact → Bool
  | .imports _ => true
  | _ => false

theorem isImport_of_mem_importFacts {i : ImportStmt} {fact : Fact} (member : fact ∈ importFacts i) :
    fact.isImport = true := by
  unfold importFacts at member
  split at member
  · cases member
  · rw [List.mem_singleton] at member
    rw [member]
    rfl
  · split at member
    · cases member
    · simp only [List.mem_append, List.mem_map] at member
      rcases member with (⟨_, _, rfl⟩ | ⟨_, _, rfl⟩) | ⟨_, _, rfl⟩ <;> rfl

mutual

theorem isImport_exportFacts (d : Decl) : ∀ fact ∈ exportFacts d, fact.isImport = false := by
  cases d with
  | namespaceDecl c b n members =>
    intro fact member
    rw [exportFacts] at member
    rcases List.mem_cons.mp member with rfl | member
    · rfl
    · exact isImport_membersFacts members fact member
  | ambient c inner =>
    cases inner with
    | none => simp [exportFacts]
    | some d =>
      intro fact member
      rw [exportFacts] at member
      exact isImport_exportFacts d fact member
  | variableNames c lexical ds =>
    intro fact member
    rw [exportFacts] at member
    obtain ⟨name, -, rfl⟩ := List.mem_map.mp member
    rfl
  | _ => simp [exportFacts, exported, Fact.isImport]

theorem isImport_membersFacts (ss : List Stmt) :
    ∀ fact ∈ membersFacts ss, fact.isImport = false := by
  cases ss with
  | nil => simp [membersFacts]
  | cons s rest =>
    intro fact member
    rw [membersFacts] at member
    rcases List.mem_append.mp member with member | member
    · exact isImport_memberFacts s fact member
    · exact isImport_membersFacts rest fact member

theorem isImport_memberFacts (s : Stmt) : ∀ fact ∈ memberFacts s, fact.isImport = false := by
  cases s with
  | exportDecl c isDefault d =>
    intro fact member
    rw [memberFacts] at member
    exact isImport_exportFacts d fact member
  | _ => simp [memberFacts]

end

theorem isImport_declFacts (d : Decl) : ∀ fact ∈ declFacts d, fact.isImport = false := by
  induction d using declFacts.induct with
  | case6 c lexical ds =>
    intro fact member
    rw [declFacts] at member
    obtain ⟨name, -, rfl⟩ := List.mem_map.mp member
    rfl
  | case7 c b n members =>
    intro fact member
    rw [declFacts] at member
    rcases List.mem_cons.mp member with rfl | member
    · rfl
    · exact isImport_membersFacts members fact member
  | case8 c d ih =>
    rw [declFacts]
    exact ih
  | _ => simp [declFacts, Fact.isImport]

theorem isImport_expressionFacts (e : Expr) :
    ∀ fact ∈ expressionFacts e, fact.isImport = false := by
  unfold expressionFacts
  repeat' split
  all_goals simp [exported, Fact.isImport]

theorem isImport_namesFacts (form : ExportForm) :
    ∀ fact ∈ namesFacts form, fact.isImport = false := by
  intro fact member
  cases form with
  | names specifiers source =>
    obtain ⟨s, -, rfl⟩ := List.mem_map.mp member
    rfl
  | none => cases member
  | _ =>
    rw [namesFacts, List.mem_singleton] at member
    rw [member]
    rfl

/-- Where only exports are taken, a statement says what it says but for imports. -/
theorem statementFacts_exportsOnly (s : Stmt) :
    statementFacts .exportsOnly s = (statementFacts .full s).filter (!·.isImport) := by
  -- a statement that is no import says the same in both modes
  have unchanged : ∀ {facts : List Fact}, (∀ fact ∈ facts, fact.isImport = false) →
      facts = facts.filter (!·.isImport) := by
    intro facts others
    exact (List.filter_eq_self.mpr fun fact member => by rw [others fact member]; rfl).symm
  cases s with
  | importing i =>
    refine (List.filter_eq_nil_iff.mpr fun fact member => ?_).symm
    rw [isImport_of_mem_importFacts member]
    exact Bool.false_ne_true
  | declaration d => exact unchanged (isImport_declFacts d)
  | exportDecl c isDefault d =>
    cases isDefault with
    | true => rfl
    | false => exact unchanged (isImport_exportFacts d)
  | exportValue c value => rfl
  | exportNames c form => exact unchanged (isImport_namesFacts form)
  | expression c value => exact unchanged (isImport_expressionFacts value)
  | namespaceLine c d => exact unchanged (isImport_declFacts d)
  | plain => rfl

/-! ## Drafts without imports -/

/-- A draft without its imports. -/
def withoutImports (d : Draft) : Draft := { d with imports := [] }

theorem withoutImports_add (d : Draft) (fact : Fact) :
    (d.add fact).withoutImports =
      if fact.isImport then d.withoutImports else d.withoutImports.add fact := by
  cases fact <;> rfl

theorem withoutImports_foldl (d : Draft) (facts : List Fact) :
    (facts.foldl add d).withoutImports =
      (facts.filter (!·.isImport)).foldl add d.withoutImports := by
  induction facts generalizing d with
  | nil => rfl
  | cons fact facts ih =>
    rw [List.foldl_cons, ih, withoutImports_add]
    cases isImport : fact.isImport with
    | true => rw [List.filter_cons_of_neg (by simp [isImport]), if_pos rfl]
    | false =>
      rw [List.filter_cons_of_pos (by simp [isImport]), if_neg Bool.false_ne_true, List.foldl_cons]

theorem ofOutline_exportsOnly (o : Outline) :
    ofOutline .exportsOnly o = (ofOutline .full o).withoutImports := by
  have facts : o.statements.flatMap (statementFacts .exportsOnly) =
      (o.statements.flatMap (statementFacts .full)).filter (!·.isImport) := by
    rw [List.filter_flatMap]
    exact congrArg (o.statements.flatMap ·) (funext statementFacts_exportsOnly)
  rw [ofOutline, facts]
  exact congrArg withTypeSlices (withoutImports_foldl {} _).symm

/-! ## Files -/

/-- The draft of a file, if its language is known. -/
def ofFile? (mode : Mode) (path : Path) (content : String) : Option Draft :=
  (ofFile mode path content).toOption

/-- The draft of the file at a path of a tree, with its imports. -/
def ofTree? (t : Tree) (path : Path) : Option Draft := (t.read? path).bind (ofFile? .full path)

theorem ofFile?_eq_some {mode : Mode} {path : Path} {content : String} {d : Draft} :
    ofFile? mode path content = some d ↔ ofFile mode path content = .ok d := by
  unfold ofFile?
  cases ofFile mode path content <;> simp [Except.toOption]

theorem ofFile?_eq_none {mode : Mode} {path : Path} {content : String} :
    ofFile? mode path content = none ↔ ∃ e, ofFile mode path content = .error e := by
  unfold ofFile?
  cases ofFile mode path content <;> simp [Except.toOption]

theorem ofFile?_eq (mode : Mode) (path : Path) (content : String) :
    ofFile? mode path content =
      if path.extension? = some dataExtension then some (ofData content)
      else (path.extension?.bind Dialect.ofExtension?).map fun dialect =>
        ofOutline mode (Outline.read dialect (codeOf path content)) := by
  unfold ofFile? ofFile
  split
  · rfl
  · rw [dialectOf]
    cases path.extension?.bind Dialect.ofExtension? <;> rfl

/-- Spellings of one path give one draft. -/
theorem ofFile?_congr {p q : Path} (same : p.same q = true) (mode : Mode) (content : String) :
    ofFile? mode p content = ofFile? mode q content := by
  rw [ofFile?_eq, ofFile?_eq, codeOf, codeOf, Path.extension?_congr same]

/-- Taking only the exports of a file is taking the file without its imports. -/
theorem ofFile_exportsOnly (path : Path) (content : String) :
    ofFile .exportsOnly path content = (ofFile .full path content).map withoutImports := by
  unfold ofFile
  split
  · have data : (ofData content).withoutImports = ofData content := by
      unfold ofData
      split <;> rfl
    rw [Except.map, data]
  · cases dialectOf path with
    | error e => rfl
    | ok dialect => exact congrArg Except.ok (ofOutline_exportsOnly _)

theorem ofFile?_exportsOnly (path : Path) (content : String) :
    ofFile? .exportsOnly path content = (ofFile? .full path content).map withoutImports := by
  rw [ofFile?, ofFile_exportsOnly, ofFile?]
  cases ofFile .full path content <;> rfl

/-- Every mode takes the full draft of a file, with or without its imports. -/
theorem exists_full {mode : Mode} {path : Path} {content : String} {d : Draft}
    (h : ofFile? mode path content = some d) :
    ∃ whole, ofFile? .full path content = some whole ∧ d.slots = whole.slots ∧
      d.locals = whole.locals ∧ d.imports ⊆ whole.imports := by
  cases mode with
  | full => exact ⟨d, h, rfl, rfl, List.Subset.refl _⟩
  | exportsOnly =>
    rw [ofFile?_exportsOnly] at h
    obtain ⟨whole, isWhole, rfl⟩ := Option.map_eq_some_iff.mp h
    exact ⟨whole, isWhole, rfl, rfl, List.nil_subset _⟩

theorem slots_ofFile? (mode mode' : Mode) (path : Path) (content : String) :
    (ofFile? mode path content).map (·.slots) = (ofFile? mode' path content).map (·.slots) := by
  have full : ∀ mode, (ofFile? mode path content).map (·.slots) =
      (ofFile? .full path content).map (·.slots) := by
    intro mode
    cases mode with
    | full => rfl
    | exportsOnly =>
      rw [ofFile?_exportsOnly, Option.map_map]
      rfl
  rw [full mode, full mode']

/-! ## Sources -/

/-- The specifier of the module that a slot takes exports from. -/
def Slot.source? : Slot → Option String
  | .everything specifier => some specifier
  | .entry e =>
    match e.declaration with
    | .reference _ origin => origin
    | _ => none

/-- The specifiers of the modules that a draft imports from or exports from. -/
def sources (d : Draft) : List String :=
  d.imports.map (·.source) ++ d.slots.filterMap Slot.source?

/-! ## Texts -/

/-- The drafts that a text can have, whatever the name of its file. -/
def possible (mode : Mode) (content : String) : List Draft :=
  ofData content :: [Dialect.typescript, Dialect.tsx].flatMap fun dialect =>
    [content, Text.joinedScripts content].map fun code => ofOutline mode (Outline.read dialect code)

theorem mem_possible {mode : Mode} {path : Path} {content : String} {d : Draft}
    (h : ofFile? mode path content = some d) : d ∈ possible mode content := by
  rw [ofFile?_eq] at h
  rw [possible, List.mem_cons]
  split at h
  · cases h
    exact .inl rfl
  · obtain ⟨dialect, -, rfl⟩ := Option.map_eq_some_iff.mp h
    refine .inr (List.mem_flatMap.mpr ⟨dialect, by cases dialect <;> simp, ?_⟩)
    refine List.mem_map.mpr ⟨codeOf path content, ?_, rfl⟩
    rw [codeOf]
    split <;> simp

end ModuleAtlas.Draft
