import ModuleAtlas.Proofs.CursorPositions
import ModuleAtlas.Syntax.Program

/-!
# Where statements stand

A statement is read from one index of the text up to another, its code is the text between them,
and the pieces of it that a cursor is compared with lie inside (`StandsAt`). This is shown rule by
rule: `Ends`, `Reads` and `Holds` say of a reader what it contributes to a node, each has one lemma
for each way of putting readers together, and the proof for a rule of the grammar follows its text.

Reading item after item keeps the items in order (`Placed`). In bytes: each statement of a module
has its place in the text (`exists_standsAt`), and the statements stand one behind the other
(`pairwise_statements`).
-/

namespace ModuleAtlas.Syntax

/-! ## Tokens -/

namespace Source

theorem skipWhile_skipWhile (s : Source) (p : Char → Bool) (i : Nat) :
    s.skipWhile p (s.skipWhile p i) = s.skipWhile p i := by
  fun_induction skipWhile s p i with
  | case1 i inside passes ih => exact ih
  | case2 i inside fails => rw [skipWhile, dif_pos inside, if_neg fails]
  | case3 i outside => rw [skipWhile, dif_neg outside]

theorem le_blockCommentEnd {s : Source} {i e : Nat} (ends : s.blockCommentEnd i = some e) :
    i ≤ e := by
  fun_induction blockCommentEnd s i with
  | case1 i => cases ends; omega
  | case2 i _ _ ih => exact Nat.le_of_succ_le (ih ends)
  | case3 => cases ends

/-- A comment is not empty. -/
theorem lt_commentEnd {s : Source} {i e : Nat} (ends : s.commentEnd i = some e) : i < e := by
  unfold commentEnd at ends
  split at ends
  · cases ends
    exact Nat.lt_of_lt_of_le (by omega) (le_skipWhile _ _ _)
  · split at ends
    · exact Nat.lt_of_lt_of_le (by omega) (le_blockCommentEnd ends)
    · cases ends

theorem lt_size_of_looksAt {s : Source} {i : Nat} {c : Char} {rest : List Char}
    (looks : s.looksAt i (c :: rest) = true) : i < s.size := by
  rw [looksAt, Bool.and_eq_true, Bool.and_eq_true, decide_eq_true_iff] at looks
  exact looks.1.1

theorem lt_size_of_commentEnd {s : Source} {i e : Nat} (ends : s.commentEnd i = some e) :
    i < s.size := by
  unfold commentEnd at ends
  split at ends
  · next looks => exact lt_size_of_looksAt looks
  · split at ends
    · next looks => exact lt_size_of_looksAt looks
    · cases ends

/-- Where neither a blank nor a comment stands, a token starts. -/
theorem tokenStart_of_plain {s : Source} {i : Nat} (noBlank : s.skipWhile isGap i = i)
    (noComment : s.commentEnd i = none) : s.tokenStart i = i := by
  rw [tokenStart]
  simp only [noBlank, noComment]

theorem tokenStart_tokenStart (s : Source) (i : Nat) :
    s.tokenStart (s.tokenStart i) = s.tokenStart i := by
  fun_induction tokenStart s i with
  | case1 i j none => exact tokenStart_of_plain (skipWhile_skipWhile s isGap i) none
  | case2 i j e some ahead ih => exact ih
  | case3 i j e some stuck =>
    have behind : i ≤ j := le_skipWhile s isGap i
    have inside : j < s.chars.size := lt_size_of_commentEnd some
    have ahead := lt_commentEnd some
    omega

end Source

/-! ## Nodes and their pieces -/

/-- A piece of the text between two indices. -/
def Source.Encloses (s : Source) (i j : Nat) (f : Fragment) : Prop :=
  ∃ k l, i ≤ k ∧ k ≤ l ∧ l ≤ j ∧ f = s.fragment k l

theorem Source.Encloses.mono {s : Source} {i i' j j' : Nat} {f : Fragment} (h : s.Encloses i j f)
    (le : i' ≤ i) (le' : j ≤ j') : s.Encloses i' j' f := by
  obtain ⟨k, l, start, inOrder, stop, whole⟩ := h
  exact ⟨k, l, Nat.le_trans le start, inOrder, Nat.le_trans stop le', whole⟩

/-- The piece of a declaration that a cursor is compared with: its first variable. -/
def Decl.pieces : Decl → List Fragment
  | .variableNames _ _ (d :: _) => [d.code]
  | _ => []

/-- The pieces of a statement that a cursor is compared with. -/
def Stmt.pieces : Stmt → List Fragment
  | .declaration d => d.pieces
  | .importing i => i.source.toList
  | _ => []

/-- A node read from an index up to another one: its code is the text between them, and its pieces
are inside. -/
structure StandsAt (s : Source) (i j : Nat) (code : Fragment) (pieces : List Fragment) : Prop where
  inOrder : i ≤ j
  code : code = s.fragment i j
  pieces : ∀ f ∈ pieces, s.Encloses i j f

namespace Parser

section Reading

variable {α β : Type} {code : α → Fragment} {pieces : α → List Fragment} {start : Nat}

theorem run_bind {p : Parser α} {f : α → Parser β} {s : Source} {c c'' : Cursor} {b : β} :
    (p >>= f).run s c = some (b, c'') ↔
      ∃ a c', p.run s c = some (a, c') ∧ (f a).run s c' = some (b, c'') := by
  constructor
  · intro run
    simp only [bind, Parser.bind] at run
    split at run
    · cases run
    · next a c' first => exact ⟨a, c', first, run⟩
  · rintro ⟨a, c', first, rest⟩
    simp only [bind, Parser.bind, first]
    exact rest

theorem run_orElse {p q : Parser α} {s : Source} {c : Cursor} {r : α × Cursor}
    (h : (p <|> q).run s c = some r) : p.run s c = some r ∨ q.run s c = some r := by
  simp only [HOrElse.hOrElse, OrElse.orElse, Alternative.orElse, Parser.orElse] at h
  split at h
  · exact .inr h
  · next first => exact .inl (first.trans h)

theorem run_look {view : Source → Cursor → α} {s : Source} {c c' : Cursor} {a : α} :
    (look view).run s c = some (a, c') ↔ a = view s c ∧ c' = c := by
  simp [look, eq_comm]

theorem run_taking {read : Source → Nat → Option (α × Nat)}
    {ahead : ∀ s i j a, read s i = some (a, j) → i ≤ j} {s : Source} {c c' : Cursor} {a : α}
    (h : (taking read ahead).run s c = some (a, c')) :
    ∃ i j, read s i = some (a, j) ∧ i = s.tokenStart c.pos ∧ j = c'.pos := by
  simp only [taking] at h
  split at h
  · cases h
  · next found =>
    cases h
    exact ⟨_, _, found, rfl, rfl⟩

/-- A reader all of whose values satisfy a condition. -/
def Only (q : α → Prop) (p : Parser α) : Prop :=
  ∀ (s : Source) (c c' : Cursor) (a : α), p.run s c = some (a, c') → q a

/-- A reader whose values have their pieces between its start and its end. -/
def Holds (pieces : α → List Fragment) (p : Parser α) : Prop :=
  ∀ (s : Source) (c c' : Cursor) (a : α), p.run s c = some (a, c') →
    ∀ f ∈ pieces a, s.Encloses c.pos c'.pos f

/-- A reader of nodes that started at an index `start` and may have gone further. -/
def Ends (code : α → Fragment) (pieces : α → List Fragment) (start : Nat) (p : Parser α) : Prop :=
  ∀ (s : Source) (c c' : Cursor) (a : α), start ≤ c.pos → p.run s c = some (a, c') →
    StandsAt s start c'.pos (code a) (pieces a)

/-- A reader of nodes that start at the next token. -/
def Reads (code : α → Fragment) (pieces : α → List Fragment) (p : Parser α) : Prop :=
  ∀ (s : Source) (c c' : Cursor) (a : α), p.run s c = some (a, c') →
    StandsAt s (s.tokenStart c.pos) c'.pos (code a) (pieces a)

namespace Only

variable {q : α → Prop}

theorem bind {p : Parser β} {f : β → Parser α} (h : ∀ b, Only q (f b)) : Only q (p >>= f) := by
  intro s c c' a run
  obtain ⟨b, c₁, -, rest⟩ := run_bind.mp run
  exact h b s c₁ c' a rest

theorem pure {a : α} (h : q a) : Only q (Pure.pure a : Parser α) := by
  intro s c c' b run
  obtain ⟨rfl, -⟩ := run_look.mp run
  exact h

end Only

namespace Holds

theorem bind {p : Parser β} {f : β → Parser α} (h : ∀ b, Holds pieces (f b)) :
    Holds pieces (p >>= f) := by
  intro s c c' a run piece member
  obtain ⟨b, c₁, first, rest⟩ := run_bind.mp run
  exact (h b s c₁ c' a rest piece member).mono (p.forward first) (Nat.le_refl _)

/-- The pieces come from the first reader, and the second only passes them on. -/
theorem pass {passed : β → List Fragment} {p : Parser β} {f : β → Parser α}
    (first : Holds passed p) (second : ∀ b, Only (pieces · ⊆ passed b) (f b)) :
    Holds pieces (p >>= f) := by
  intro s c c' a run piece member
  obtain ⟨b, c₁, run₁, run₂⟩ := run_bind.mp run
  have inside := first s c c₁ b run₁ piece (second b s c₁ c' a run₂ member)
  exact inside.mono (Nat.le_refl _) ((f b).forward run₂)

theorem orElse {p q : Parser α} (first : Holds pieces p) (second : Holds pieces q) :
    Holds pieces (p <|> q) := by
  intro s c c' a run
  exact (run_orElse run).elim (first s c c' a) (second s c c' a)

theorem ite {b : Prop} [Decidable b] {p q : Parser α} (first : Holds pieces p)
    (second : Holds pieces q) : Holds pieces (if b then p else q) := by
  split
  · exact first
  · exact second

theorem pure {a : α} (none : pieces a = []) : Holds pieces (Pure.pure a : Parser α) := by
  intro s c c' b run piece member
  obtain ⟨rfl, -⟩ := run_look.mp run
  rw [none] at member
  cases member

end Holds

namespace Ends

theorem bind {p : Parser β} {f : β → Parser α} (h : ∀ b, Ends code pieces start (f b)) :
    Ends code pieces start (p >>= f) := by
  intro s c c' a started run
  obtain ⟨b, c₁, first, rest⟩ := run_bind.mp run
  exact h b s c₁ c' a (Nat.le_trans started (p.forward first)) rest

/-- The pieces come from the first reader, and the second adds the code. -/
theorem pass {passed : β → List Fragment} {p : Parser β} {f : β → Parser α}
    (first : Holds passed p) (coded : ∀ b, Ends code (fun _ => []) start (f b))
    (second : ∀ b, Only (pieces · ⊆ passed b) (f b)) : Ends code pieces start (p >>= f) := by
  intro s c c' a started run
  obtain ⟨b, c₁, run₁, run₂⟩ := run_bind.mp run
  have standing := coded b s c₁ c' a (Nat.le_trans started (p.forward run₁)) run₂
  refine ⟨standing.inOrder, standing.code, fun piece member => ?_⟩
  have inside := first s c c₁ b run₁ piece (second b s c₁ c' a run₂ member)
  exact inside.mono started ((f b).forward run₂)

theorem orElse {p q : Parser α} (first : Ends code pieces start p)
    (second : Ends code pieces start q) : Ends code pieces start (p <|> q) := by
  intro s c c' a started run
  exact (run_orElse run).elim (first s c c' a started) (second s c c' a started)

theorem ite {b : Prop} [Decidable b] {p q : Parser α} (first : Ends code pieces start p)
    (second : Ends code pieces start q) : Ends code pieces start (if b then p else q) := by
  split
  · exact first
  · exact second

/-- The node gets its code at the end, and has no pieces of interest. -/
theorem since {node : Fragment → α} (stored : ∀ f, code (node f) = f ∧ pieces (node f) = []) :
    Ends code pieces start (Parser.since start >>= fun f => pure (node f)) := by
  intro s c c' a started run
  obtain ⟨f, c₁, first, rest⟩ := run_bind.mp run
  obtain ⟨rfl, rfl⟩ := run_look.mp first
  obtain ⟨rfl, rfl⟩ := run_look.mp rest
  obtain ⟨hasCode, noPieces⟩ := stored (s.fragment start c'.pos)
  refine ⟨started, hasCode, ?_⟩
  rw [noPieces]
  exact fun f member => absurd member List.not_mem_nil

end Ends

namespace Reads

theorem token {f : Nat → Parser α} (h : ∀ start, Ends code pieces start (f start)) :
    Reads code pieces (Parser.token >>= f) := by
  intro s c c' a run
  obtain ⟨i, c₁, first, rest⟩ := run_bind.mp run
  cases first
  exact h _ s _ c' a (Nat.le_refl _) rest

theorem look {view : Source → Cursor → β} {f : β → Parser α} (h : ∀ b, Reads code pieces (f b)) :
    Reads code pieces (Parser.look view >>= f) := by
  intro s c c' a run
  obtain ⟨b, c₁, first, rest⟩ := run_bind.mp run
  obtain ⟨-, rfl⟩ := run_look.mp first
  exact h b s c₁ c' a rest

theorem require {b : Bool} {p : Unit → Parser α} (h : Reads code pieces (p ())) :
    Reads code pieces (Parser.require b >>= p) := by
  cases b with
  | false =>
    intro s c c' a run
    obtain ⟨u, c₁, first, -⟩ := run_bind.mp run
    cases first
  | true => exact look fun _ => h

theorem orElse {p q : Parser α} (first : Reads code pieces p) (second : Reads code pieces q) :
    Reads code pieces (p <|> q) := by
  intro s c c' a run
  exact (run_orElse run).elim (first s c c' a) (second s c c' a)

end Reads

/-- A reader of nodes that start at the current index, where a token starts. -/
def StartsHere (code : α → Fragment) (pieces : α → List Fragment) (start : Nat) (p : Parser α) :
    Prop :=
  ∀ (s : Source) (c c' : Cursor) (a : α), c.pos = start → s.tokenStart start = start →
    p.run s c = some (a, c') → StandsAt s start c'.pos (code a) (pieces a)

theorem Ends.startsHere {p : Parser α} (h : Ends code pieces start p) :
    StartsHere code pieces start p :=
  fun s c c' a here _ run => h s c c' a (Nat.le_of_eq here.symm) run

theorem Reads.startsHere {p : Parser α} (h : Reads code pieces p) :
    StartsHere code pieces start p := by
  intro s c c' a here atToken run
  have standing := h s c c' a run
  rwa [here, atToken] at standing

theorem StartsHere.look {view : Source → Cursor → β} {f : β → Parser α}
    (h : ∀ b, StartsHere code pieces start (f b)) :
    StartsHere code pieces start (Parser.look view >>= f) := by
  intro s c c' a here atToken run
  obtain ⟨b, c₁, first, rest⟩ := run_bind.mp run
  obtain ⟨-, rfl⟩ := run_look.mp first
  exact h b s c₁ c' a here atToken rest

theorem StartsHere.reads {f : Nat → Parser α}
    (h : ∀ start, StartsHere code pieces start (f start)) :
    Reads code pieces (Parser.token >>= f) := by
  intro s c c' a run
  obtain ⟨i, c₁, first, rest⟩ := run_bind.mp run
  cases first
  exact h _ s _ c' a rfl (s.tokenStart_tokenStart _) rest

/-! ## Readers that only look ahead -/

/-- A reader that takes nothing. -/
def Still (p : Parser α) : Prop :=
  ∀ (s : Source) (c c' : Cursor) (a : α), p.run s c = some (a, c') → c' = c

theorem still_look {view : Source → Cursor → α} : Still (look view) :=
  fun _ _ _ _ run => (run_look.mp run).2

theorem Still.bind {p : Parser β} {f : β → Parser α} (first : Still p) (rest : ∀ b, Still (f b)) :
    Still (p >>= f) := by
  intro s c c' a run
  obtain ⟨b, c₁, run₁, run₂⟩ := run_bind.mp run
  rw [rest b s c₁ c' a run₂, first s c c₁ b run₁]

theorem still_loop {init : α} {step : α → Parser (Option α)} (h : ∀ a, Still (step a)) :
    Still (loop init step) := by
  have within (n : Nat) : ∀ a, Still (loopWithin step n a) := by
    induction n with
    | zero => exact fun a => still_look
    | succ n ih =>
      refine fun a => .bind (h a) fun b => ?_
      cases b with
      | none => exact still_look
      | some b => exact ih b
  exact fun s c c' a run => within (s.size + 2) init s c c' a run

end Reading

theorem still_lineEnd (operators : Bool) : Still (lineEnd operators) := by
  refine .bind still_look fun s => .bind still_look fun start => .bind (still_loop fun a => ?_)
    fun _ => still_look
  obtain ⟨i, found, done⟩ := a
  dsimp only
  split
  · exact still_look
  · split
    · exact still_look
    · split <;> exact still_look

/-! ## Literals -/

theorem holds_stringLiteral : Holds (fun f => [f]) stringLiteral := by
  intro s c c' f run piece member
  obtain rfl := List.mem_singleton.mp member
  obtain ⟨i, j, found, atToken, atEnd⟩ := run_taking run
  obtain ⟨k, ends, whole⟩ := Option.map_eq_some_iff.mp found
  cases whole
  exact ⟨i, j, atToken ▸ Source.le_tokenStart s _, Nat.le_of_lt (Source.lt_stringEnd ends),
    Nat.le_of_eq atEnd, rfl⟩

theorem holds_fromClause : Holds (fun f => [f]) fromClause := .bind fun _ => holds_stringLiteral

/-! ## Declarations -/

/-- A reader of declarations that start at the next token. -/
abbrev ReadsDecl : Parser Decl → Prop := Reads Decl.code Decl.pieces

theorem readsDecl_functionDecl (r : Rules) : ReadsDecl (functionDecl r) :=
  .token fun _ => .bind fun _ => .bind fun _ => .bind fun _ => .bind fun _ => .bind fun _ =>
    .bind fun _ => .ite (.bind fun _ => .since fun _ => ⟨rfl, rfl⟩)
      (.bind fun _ => .bind fun _ => .since fun _ => ⟨rfl, rfl⟩)

theorem readsDecl_classDecl (r : Rules) : ReadsDecl (classDecl r) :=
  .token fun _ => .bind fun _ => .bind fun _ => .bind fun _ => .bind fun _ => .bind fun _ =>
    .bind fun _ => .bind fun _ => .ite (.bind fun _ => .since fun _ => ⟨rfl, rfl⟩)
      (.since fun _ => ⟨rfl, rfl⟩)

theorem readsDecl_interfaceDecl (r : Rules) : ReadsDecl (interfaceDecl r) :=
  .token fun _ => .bind fun _ => .bind fun _ => .bind fun _ => .bind fun _ =>
    .ite (.bind fun _ => .bind fun _ => .since fun _ => ⟨rfl, rfl⟩)
      (.bind fun _ => .since fun _ => ⟨rfl, rfl⟩)

theorem readsDecl_typeAliasDecl (r : Rules) : ReadsDecl (typeAliasDecl r) :=
  .token fun _ => .bind fun _ => .bind fun _ => .bind fun _ => .bind fun _ => .bind fun _ =>
    .bind fun _ => .since fun _ => ⟨rfl, rfl⟩

theorem readsDecl_enumDecl (r : Rules) : ReadsDecl (enumDecl r) :=
  .token fun _ => .bind fun _ => .bind fun _ => .bind fun _ => .bind fun _ => .bind fun _ =>
    .since fun _ => ⟨rfl, rfl⟩

theorem reads_declarator (r : Rules) (ctx : Context) :
    Reads Declarator.code (fun _ => []) (declarator r ctx) :=
  .token fun _ => .bind fun _ => .bind fun _ => .bind fun _ => .bind fun _ => .bind fun _ =>
    .bind fun _ => .since fun _ => ⟨rfl, rfl⟩

theorem holds_declarator (r : Rules) (ctx : Context) :
    Holds (fun d => [Declarator.code d]) (declarator r ctx) := by
  intro s c c' d run f member
  obtain rfl := List.mem_singleton.mp member
  obtain ⟨inOrder, code, -⟩ := reads_declarator r ctx s c c' d run
  exact ⟨_, _, Source.le_tokenStart s _, inOrder, Nat.le_refl _, code⟩

theorem holds_declarators (r : Rules) (ctx : Context) :
    Holds (fun ds => (ds.head?.map Declarator.code).toList) (declarators r ctx) :=
  .pass (holds_declarator r ctx) fun _ => .bind fun _ => .pure (List.Subset.refl _)

theorem readsDecl_variableDecl (r : Rules) : ReadsDecl (variableDecl r) := by
  refine .token fun start => .bind fun lexical => .pass (holds_declarators r .statement)
    (fun vars => .bind fun _ => .since fun _ => ⟨rfl, rfl⟩)
    fun vars => .bind fun _ => .bind fun code => .pure ?_
  cases vars with
  | nil => exact List.nil_subset _
  | cons d ds => exact List.Subset.refl _

theorem readsDecl_namespaceDecl (r : Rules) : ReadsDecl (namespaceDecl r) :=
  .token fun _ => .bind fun _ => .bind fun _ => .bind fun _ =>
    .ite (.bind fun _ => .since fun _ => ⟨rfl, rfl⟩)
      (.bind fun _ => .since fun _ => ⟨rfl, rfl⟩)

theorem readsDecl_importAliasDecl : ReadsDecl importAliasDecl :=
  .token fun _ => .bind fun _ => .bind fun _ => .bind fun _ => .bind fun _ => .bind fun _ =>
    .since fun _ => ⟨rfl, rfl⟩

theorem readsDecl_plainDecl (r : Rules) : ReadsDecl (plainDecl r) := by
  refine .look fun name => ?_
  split
  · exact readsDecl_functionDecl r
  · exact readsDecl_functionDecl r
  · exact readsDecl_classDecl r
  · exact readsDecl_classDecl r
  · exact readsDecl_interfaceDecl r
  · exact readsDecl_typeAliasDecl r
  · exact readsDecl_enumDecl r
  · exact .orElse (readsDecl_enumDecl r) (readsDecl_variableDecl r)
  · exact readsDecl_variableDecl r
  · exact readsDecl_variableDecl r
  · exact readsDecl_namespaceDecl r
  · exact readsDecl_namespaceDecl r
  · exact readsDecl_importAliasDecl
  · exact .look fun c => .require (readsDecl_classDecl r)

theorem readsDecl_ambientDecl (r : Rules) : ReadsDecl (ambientDecl r) :=
  .token fun _ => .bind fun _ => .bind fun _ => .ite (.bind fun _ => .since fun _ => ⟨rfl, rfl⟩)
    (.bind fun _ => .ite (.bind fun _ => .bind fun _ => .since fun _ => ⟨rfl, rfl⟩)
      (.bind fun _ => .since fun _ => ⟨rfl, rfl⟩))

theorem readsDecl_declarationRule (r : Rules) : ReadsDecl (declarationRule r) := by
  refine .look fun name => ?_
  split
  · exact readsDecl_ambientDecl r
  · exact readsDecl_plainDecl r

/-! ## Imports -/

/-- A reader of what an import statement binds, with the literal it ends with. -/
abbrev HoldsLiteral : Parser (ImportForm × Option Fragment) → Prop := Holds (·.2.toList)

theorem holdsLiteral_of_literal {p : Parser Fragment} (form : ImportForm)
    (literal : Holds (fun f => [f]) p) :
    HoldsLiteral (p >>= fun source => pure (form, some source)) :=
  .pass literal fun _ => .pure (List.Subset.refl _)

theorem holdsLiteral_importForm : HoldsLiteral importForm := by
  have fromLiteral (form : ImportForm) := holdsLiteral_of_literal form holds_fromClause
  refine .orElse ?bare (.orElse ?whole (.orElse ?named (.orElse ?required ?default)))
  case bare => exact holdsLiteral_of_literal _ holds_stringLiteral
  case whole => exact .bind fun _ => fromLiteral _
  case named => exact .bind fun _ => fromLiteral _
  case required =>
    exact .bind fun _ => .bind fun _ => .bind fun _ => .bind fun _ => .bind fun _ => .bind fun _ =>
      .pure rfl
  case default =>
    exact .bind fun _ => .bind fun _ => .ite
      (.orElse (.bind fun _ => fromLiteral _) (.bind fun _ => fromLiteral _)) (fromLiteral _)

theorem holdsLiteral_strayWordImport : HoldsLiteral strayWordImport :=
  .bind fun _ => .pass holds_stringLiteral fun _ => .bind fun _ => .pure (List.Subset.refl _)

/-! ## Statements -/

/-- A reader of statements that start at the next token. -/
abbrev ReadsStmt : Parser Stmt → Prop := Reads Stmt.code Stmt.pieces

theorem readsStmt_importStmt (r : Rules) : ReadsStmt (importStmt r) := by
  have literal : HoldsLiteral (importForm <|>
      (do
        word "type" <|> word "typeof"
        importForm) <|> strayWordImport) :=
    .orElse holdsLiteral_importForm
      (.orElse (.bind fun _ => holdsLiteral_importForm) holdsLiteral_strayWordImport)
  exact .token fun _ => .bind fun _ => .pass literal
    (fun _ => .bind fun _ => .bind fun _ => .since fun _ => ⟨rfl, rfl⟩)
    fun _ => .bind fun _ => .bind fun _ => .bind fun _ => .pure (List.Subset.refl _)

theorem readsStmt_exportStmt (r : Rules) : ReadsStmt (exportStmt r) := by
  refine .token fun start => .bind fun _ => .bind fun _ => .orElse ?named (.orElse ?defaultDecl
    (.orElse ?value ?decl))
  case named => exact .bind fun _ => .since fun _ => ⟨rfl, rfl⟩
  case defaultDecl => exact .bind fun _ => .bind fun _ => .since fun _ => ⟨rfl, rfl⟩
  case value => exact .bind fun _ => .bind fun _ => .bind fun _ => .since fun _ => ⟨rfl, rfl⟩
  case decl => exact .bind fun _ => .since fun _ => ⟨rfl, rfl⟩

theorem ends_plainStmt (start : Nat) (kind : PlainKind) :
    Ends Stmt.code Stmt.pieces start (plainStmt start kind) := .since fun _ => ⟨rfl, rfl⟩

theorem readsStmt_ifStmt (r : Rules) : ReadsStmt (ifStmt r) :=
  .token fun _ => .bind fun _ => .bind fun _ => .bind fun _ => .bind fun _ =>
    .ite (.bind fun _ => ends_plainStmt _ _) (ends_plainStmt _ _)

theorem readsStmt_forStmt (r : Rules) : ReadsStmt (forStmt r) :=
  .token fun _ => .bind fun _ => .bind fun _ => .bind fun _ => .bind fun _ => .bind fun _ =>
    ends_plainStmt _ _

theorem readsStmt_whileStmt (r : Rules) : ReadsStmt (whileStmt r) :=
  .token fun _ => .bind fun _ => .bind fun _ => .bind fun _ => ends_plainStmt _ _

theorem readsStmt_doStmt (r : Rules) : ReadsStmt (doStmt r) :=
  .token fun _ => .bind fun _ => .bind fun _ => .bind fun _ => .bind fun _ => .bind fun _ =>
    ends_plainStmt _ _

theorem readsStmt_switchStmt (r : Rules) : ReadsStmt (switchStmt r) :=
  .token fun _ => .bind fun _ => .bind fun _ => .bind fun _ => .bind fun _ => .bind fun _ =>
    ends_plainStmt _ _

theorem readsStmt_tryStmt (r : Rules) : ReadsStmt (tryStmt r) := by
  refine .token fun start => .bind fun _ => .bind fun _ => .bind fun _ => ?_
  have handled : Ends Stmt.code Stmt.pieces start (do
      if ← took (word "finally") then discard <| block r true false
      plainStmt start .tryStatement) :=
    .bind fun _ => .ite (.bind fun _ => ends_plainStmt _ _) (ends_plainStmt _ _)
  exact .ite (.bind fun _ => .bind fun _ => handled) handled

theorem readsStmt_withStmt (r : Rules) : ReadsStmt (withStmt r) :=
  .token fun _ => .bind fun _ => .bind fun _ => .bind fun _ => ends_plainStmt _ _

theorem readsStmt_jumpStmt (keyword : String) (kind : PlainKind) :
    ReadsStmt (jumpStmt keyword kind) :=
  .token fun _ => .bind fun _ => .bind fun _ =>
    .ite (.bind fun _ => .bind fun _ => ends_plainStmt _ _) (.bind fun _ => ends_plainStmt _ _)

theorem readsStmt_valueStmt (r : Rules) (keyword : String) (kind : PlainKind) :
    ReadsStmt (valueStmt r keyword kind) :=
  .token fun _ => .bind fun _ => .bind fun _ =>
    .ite (.bind fun _ => .bind fun _ => ends_plainStmt _ _)
      (.bind fun _ => .bind fun _ => ends_plainStmt _ _)

theorem readsStmt_labeledStmt (r : Rules) : ReadsStmt (labeledStmt r) :=
  .token fun _ => .bind fun _ => .bind fun _ => .bind fun _ => ends_plainStmt _ _

theorem readsStmt_expressionStmt (r : Rules) : ReadsStmt (expressionStmt r) :=
  .token fun _ => .bind fun _ => .bind fun _ => .since fun _ => ⟨rfl, rfl⟩

theorem readsStmt_declarationStmt (r : Rules) : ReadsStmt (declarationStmt r) := by
  -- the code is that of the declaration, so it matters that both start at one index
  refine StartsHere.reads fun start => ?_
  intro s c c' stmt here atToken run
  obtain ⟨decl, c₁, declared, run⟩ := run_bind.mp run
  have standing := (readsDecl_declarationRule r).startsHere s c c₁ decl here atToken declared
  have plain : c' = c₁ → stmt = .declaration decl →
      StandsAt s start c'.pos stmt.code stmt.pieces := by
    rintro rfl rfl
    exact standing
  split at run
  · obtain ⟨ended, c₂, line, rest⟩ := run_bind.mp run
    obtain rfl := still_lineEnd true s c₁ c₂ ended line
    cases ended with
    | some i =>
      refine Ends.bind (fun _ => ?_) s c₂ c' stmt standing.inOrder rest
      exact .since fun _ => ⟨rfl, rfl⟩
    | none =>
      obtain ⟨isDecl, same⟩ := run_look.mp rest
      exact plain same isDecl
  · obtain ⟨isDecl, same⟩ := run_look.mp run
    exact plain same isDecl

theorem readsStmt_statementRule (r : Rules) : ReadsStmt (statementRule r) := by
  have declared := readsStmt_declarationStmt r
  have expressed := readsStmt_expressionStmt r
  refine StartsHere.reads fun start => .look fun c => ?_
  split
  · exact Ends.startsHere (.bind fun _ => ends_plainStmt _ _)
  split
  · exact Ends.startsHere (.bind fun _ => ends_plainStmt _ _)
  split
  · exact (Reads.orElse (readsStmt_exportStmt r) (.orElse declared expressed)).startsHere
  refine .look fun name => Reads.startsHere ?_
  split
  · exact expressed
  · exact .orElse (readsStmt_importStmt r) (.orElse declared expressed)
  · exact readsStmt_exportStmt r
  · exact readsStmt_ifStmt r
  · exact readsStmt_forStmt r
  · exact readsStmt_whileStmt r
  · exact readsStmt_doStmt r
  · exact readsStmt_switchStmt r
  · exact readsStmt_tryStmt r
  · exact readsStmt_withStmt r
  · exact readsStmt_jumpStmt _ _
  · exact readsStmt_jumpStmt _ _
  · exact readsStmt_valueStmt r _ _
  · exact readsStmt_valueStmt r _ _
  · exact readsStmt_jumpStmt _ _
  · exact .orElse declared (.orElse (readsStmt_labeledStmt r) expressed)

theorem readsStmt_upTo (depth : Nat) : ReadsStmt (Rules.upTo depth).statement := by
  intro s c c' stmt run
  cases depth with
  | zero => cases run
  | succ depth => exact readsStmt_statementRule (Rules.upTo depth) s c c' stmt run

end Parser

/-! ## Items -/

/-- The pieces of an item that a cursor is compared with. -/
def Item.pieces : Item → List Fragment
  | .statement stmt => stmt.pieces
  | _ => []

/-- Items that were read one after the other, last first, each with the index where it starts; the
last one ends at `stop` or before. -/
inductive Placed (s : Source) : Nat → List (Item × Nat) → Prop where
  | nil {stop : Nat} : Placed s stop []
  | cons {item : Item} {i j stop : Nat} {rest : List (Item × Nat)}
      (standing : StandsAt s i j item.code item.pieces) (ends : j ≤ stop)
      (before : Placed s i rest) : Placed s stop ((item, i) :: rest)

section Items

variable {s : Source} {i j stop stop' : Nat} {items : List (Item × Nat)}

theorem Placed.mono (h : Placed s stop items) (le : stop ≤ stop') : Placed s stop' items := by
  cases h with
  | nil => exact .nil
  | cons standing ends before => exact .cons standing (Nat.le_trans ends le) before

/-- An item that is no statement has no pieces. -/
theorem standsAt_fragment {item : Item} (inOrder : i ≤ j) (code : item.code = s.fragment i j)
    (plain : item.pieces = []) : StandsAt s i j item.code item.pieces := by
  refine ⟨inOrder, code, ?_⟩
  rw [plain]
  exact fun f member => absurd member List.not_mem_nil

theorem placed_addBroken (h : Placed s i items) (inOrder : i ≤ j) :
    Placed s j (Parser.addBroken s i j items) := by
  unfold Parser.addBroken
  split
  · cases h with
    | cons standing ends before =>
      have := standing.inOrder
      exact .cons (standsAt_fragment (by omega) rfl rfl) (Nat.le_refl _) before
  · exact .cons (standsAt_fragment inOrder rfl rfl) (Nat.le_refl _) h

theorem Source.lt_anyTokenEnd (s : Source) (i : Nat) : i < s.anyTokenEnd i := by
  simp only [anyTokenEnd]
  split
  · assumption
  split
  · assumption
  split
  · next found => exact lt_stringEnd found
  · exact Nat.lt_succ_self i

theorem Source.le_markupCommentEnd (ends : s.markupCommentEnd i = some j) : i ≤ j := by
  unfold markupCommentEnd at ends
  split at ends
  · cases ends
    exact le_skipWhile _ _ _
  · cases ends

theorem Source.le_scriptLineEnd (ends : s.scriptLineEnd i = some j) : i ≤ j := by
  unfold scriptLineEnd at ends
  split at ends
  · cases ends
    exact le_skipWhile _ _ _
  · cases ends

theorem placed_itemsFrom {r : Rules} (reads : Parser.ReadsStmt r.statement) (fuel : Nat)
    (c : Cursor) (acc : List (Item × Nat)) (h : Placed s c.pos acc) :
    Placed s (Parser.itemsFrom r s fuel c acc).2.pos (Parser.itemsFrom r s fuel c acc).1 := by
  -- what was read so far is placed before the cursor, and stays so when the cursor moves on
  induction fuel generalizing c acc with
  | zero => exact h
  | succ fuel ih =>
    have further := h.mono (s.le_skipWhile Source.isGap c.pos)
    simp only [Parser.itemsFrom]
    split
    · exact h
    split
    · next e comment =>
      have inOrder := Nat.le_of_lt (Source.lt_commentEnd comment)
      exact ih _ _ (.cons (standsAt_fragment inOrder rfl rfl) (Nat.le_refl _) further)
    next noComment =>
    split
    · next e markup =>
      have inOrder := Source.le_markupCommentEnd markup
      exact ih _ _ (.cons (standsAt_fragment inOrder rfl rfl) (Nat.le_refl _) further)
    split
    · next stmt c' run =>
      have standing := reads s _ c' stmt run
      rw [Source.tokenStart_of_plain (s.skipWhile_skipWhile _ _) noComment] at standing
      exact ih _ _ (.cons standing (Nat.le_refl _) further)
    · have inOrder := Nat.le_of_lt (s.lt_anyTokenEnd (s.skipWhile Source.isGap c.pos))
      exact ih _ _ (placed_addBroken further inOrder)

theorem exists_placed (s : Source) :
    ∃ stop items, Placed s stop items ∧
      (Outline.ofSource s).items = items.reverse.map Prod.fst := by
  have reads := Parser.readsStmt_upTo (8 * (s.size + 4))
  simp only [Outline.ofSource]
  split
  · next e script =>
    have inOrder := Source.le_scriptLineEnd script
    refine ⟨_, _, placed_itemsFrom reads _ _ _ ?_, rfl⟩
    exact .cons (standsAt_fragment inOrder rfl rfl) (Nat.le_refl _) .nil
  · exact ⟨_, _, placed_itemsFrom reads _ _ _ .nil, rfl⟩

theorem Placed.standsAt (h : Placed s stop items) {entry : Item × Nat} (member : entry ∈ items) :
    ∃ j, j ≤ stop ∧ StandsAt s entry.2 j entry.1.code entry.1.pieces := by
  induction h with
  | nil => exact absurd member List.not_mem_nil
  | cons standing ends before ih =>
    rcases List.mem_cons.mp member with rfl | member
    · exact ⟨_, ends, standing⟩
    · obtain ⟨j, inTime, found⟩ := ih member
      have inOrder := standing.inOrder
      exact ⟨j, by omega, found⟩

end Items

/-! ## Bytes -/

namespace Source

open Text

/-- The offset of a character is the number of bytes before it. -/
theorem toList_offsets (cs : List Char) (done : Array Nat) (n : Nat) :
    let sums := cs.foldl (fun acc c => (acc.1.push acc.2, acc.2 + c.utf8Size)) (done, n)
    (sums.1.push sums.2).toList =
      done.toList ++ (List.range (cs.length + 1)).map fun i => n + byteCount (cs.take i) := by
  induction cs generalizing done n with
  | nil => simp [byteCount]
  | cons c cs ih =>
    simp only [List.foldl_cons]
    rw [ih, Array.toList_push, List.length_cons, List.range_succ_eq_map (n := cs.length + 1)]
    simp [byteCount, Nat.add_assoc, Function.comp_def]

theorem byteOffset_ofString (dialect : Dialect) (text : String) (i : Nat) :
    (ofString dialect text).byteOffset i = byteCount (text.toList.take i) := by
  have offsets := toList_offsets text.toList #[] 0
  have size : (ofString dialect text).size = text.toList.length := by simp [size, ofString]
  have sums : (ofString dialect text).offsets.toList =
      (List.range (text.toList.length + 1)).map fun i => byteCount (text.toList.take i) := by
    simpa [ofString] using offsets
  have inside : min i text.toList.length < text.toList.length + 1 := by omega
  rw [byteOffset, size, Array.getD_eq_getD_getElem?, ← Array.getElem?_toList, sums,
    List.getElem?_map, List.getElem?_range inside, Option.map_some, Option.getD_some,
    ← List.take_eq_take_min]

theorem toList_slice_ofString (dialect : Dialect) (text : String) (i j : Nat) :
    ((ofString dialect text).slice i j).toList = (text.toList.take j).drop i := by
  simp [slice, ofString, List.drop_take]

variable {dialect : Dialect} {text : String} {i j : Nat}

theorem take_eq_take_append_drop (cs : List Char) (inOrder : i ≤ j) :
    cs.take j = cs.take i ++ (cs.take j).drop i := by
  calc cs.take j = (cs.take j).take i ++ (cs.take j).drop i := (List.take_append_drop i _).symm
    _ = cs.take i ++ (cs.take j).drop i := by rw [List.take_take, Nat.min_eq_left inOrder]

theorem byteCount_take_le (cs : List Char) (inOrder : i ≤ j) :
    byteCount (cs.take i) ≤ byteCount (cs.take j) := by
  rw [take_eq_take_append_drop cs inOrder, byteCount_append]
  exact Nat.le_add_right _ _

/-- The text is what stands before a piece, the piece, and what stands behind it. -/
theorem toList_around_fragment (dialect : Dialect) (text : String) (inOrder : i ≤ j) :
    text.toList = text.toList.take i ++ ((ofString dialect text).fragment i j).text.toList ++
      text.toList.drop j := by
  rw [fragment, toList_slice_ofString, ← take_eq_take_append_drop _ inOrder,
    List.take_append_drop]

theorem start_fragment (dialect : Dialect) (text : String) (i j : Nat) :
    ((ofString dialect text).fragment i j).start = byteCount (text.toList.take i) :=
  byteOffset_ofString dialect text i

theorem stop_fragment (dialect : Dialect) (text : String) (inOrder : i ≤ j) :
    ((ofString dialect text).fragment i j).stop = byteCount (text.toList.take j) := by
  rw [Fragment.stop, start_fragment, ← byteCount_toList, fragment, toList_slice_ofString,
    ← byteCount_append, ← take_eq_take_append_drop _ inOrder]

/-- A piece inside of another one starts and stops inside of it. -/
theorem Encloses.bytes {f : Fragment} (h : (ofString dialect text).Encloses i j f) :
    byteCount (text.toList.take i) ≤ f.start ∧ f.stop ≤ byteCount (text.toList.take j) := by
  obtain ⟨k, l, start, inOrder, stop, rfl⟩ := h
  rw [start_fragment, stop_fragment dialect text inOrder]
  exact ⟨byteCount_take_le _ start, byteCount_take_le _ stop⟩

end Source

section Statements

variable {dialect : Dialect} {text : String} {stmt : Stmt}

open Text Source

theorem StandsAt.bytes {i j : Nat} {code : Fragment} {pieces : List Fragment}
    (h : StandsAt (ofString dialect text) i j code pieces) :
    code.start = byteCount (text.toList.take i) ∧ code.stop = byteCount (text.toList.take j) := by
  rw [h.code, start_fragment, stop_fragment dialect text h.inOrder]
  exact ⟨rfl, rfl⟩

theorem Placed.pairwise {stop : Nat} {items : List (Item × Nat)}
    (h : Placed (ofString dialect text) stop items) :
    items.Pairwise fun b a => a.1.code.stop ≤ b.1.code.start := by
  induction h with
  | nil => exact .nil
  | @cons item i j stop rest standing ends before ih =>
    refine .cons (fun entry member => ?_) ih
    obtain ⟨k, inTime, earlier⟩ := before.standsAt member
    rw [earlier.bytes.2, standing.bytes.1]
    exact byteCount_take_le _ inTime

theorem mem_statements {o : Outline} : stmt ∈ o.statements ↔ Item.statement stmt ∈ o.items := by
  rw [Outline.statements, List.mem_filterMap]
  constructor
  · rintro ⟨item, isItem, isStmt⟩
    cases item with
    | statement other =>
      cases isStmt
      exact isItem
    | _ => cases isStmt
  · intro isItem
    exact ⟨_, isItem, rfl⟩

/-- Each statement stands somewhere in the text, with its pieces. -/
theorem exists_standsAt (member : stmt ∈ (Outline.read dialect text).statements) :
    ∃ i j, StandsAt (ofString dialect text) i j stmt.code stmt.pieces := by
  obtain ⟨stop, items, placed, whole⟩ := exists_placed (ofString dialect text)
  rw [mem_statements, Outline.read, whole, List.mem_map] at member
  obtain ⟨⟨item, i⟩, isEntry, rfl⟩ := member
  obtain ⟨j, -, standing⟩ := placed.standsAt (List.mem_reverse.mp isEntry)
  exact ⟨i, j, standing⟩

/-- A piece of a statement is inside of it. -/
theorem inside_of_mem_pieces (member : stmt ∈ (Outline.read dialect text).statements)
    {f : Fragment} (isPiece : f ∈ stmt.pieces) :
    stmt.code.start ≤ f.start ∧ f.stop ≤ stmt.code.stop := by
  obtain ⟨i, j, standing⟩ := exists_standsAt member
  rw [standing.bytes.1, standing.bytes.2]
  exact (standing.pieces f isPiece).bytes

theorem stop_le_of_mem_statements (member : stmt ∈ (Outline.read dialect text).statements) :
    stmt.code.stop ≤ text.utf8ByteSize := by
  obtain ⟨i, j, standing⟩ := exists_standsAt member
  calc stmt.code.stop = byteCount (text.toList.take j) := standing.bytes.2
    _ ≤ byteCount (text.toList.take j) + byteCount (text.toList.drop j) := Nat.le_add_right _ _
    _ = text.utf8ByteSize := by rw [← byteCount_append, List.take_append_drop, byteCount_toList]

/-- The statements of a module stand one behind the other. -/
theorem pairwise_statements (dialect : Dialect) (text : String) :
    (Outline.read dialect text).statements.Pairwise fun a b => a.code.stop ≤ b.code.start := by
  obtain ⟨stop, items, placed, whole⟩ := exists_placed (ofString dialect text)
  have inOrder : (Outline.read dialect text).items.Pairwise
      fun a b => a.code.stop ≤ b.code.start := by
    rw [Outline.read, whole, List.pairwise_map, List.pairwise_reverse]
    exact placed.pairwise
  refine inOrder.filterMap _ fun item item' le stmt isStmt stmt' isStmt' => ?_
  cases item with
  | statement =>
    cases item' with
    | statement =>
      cases isStmt
      cases isStmt'
      exact le
    | _ => cases isStmt'
  | _ => cases isStmt

end Statements

end ModuleAtlas.Syntax
