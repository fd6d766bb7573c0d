import ModuleAtlas.ImportSite
import ModuleAtlas.Proofs.Scripts
import ModuleAtlas.Proofs.Statements

/-!
# Imports in the scripts of a component

A script block of a component is read as a module of its own, and its statements are then compared
with a cursor in the whole text: all offsets are moved by the block's, and the pieces are cut out of
the whole text. Strictly inside an import statement, the lookup in the component gives what the
lookup in the block alone gives (`inComponent_eq_inModule`).

Both lookups come down to that one statement. Blocks follow one another, and so do the statements
of a block, so none of the others has the cursor in it; in the block alone a declaration with a call
of `require` could answer too, but it would have to hold the cursor as well.
-/

namespace ModuleAtlas

/-! ## Cutting pieces out of a text -/

namespace Text

theorem splitAtByte_append (front rest : List Char) :
    splitAtByte (byteCount front) (front ++ rest) = some (front, rest) := by
  induction front with
  | nil => cases rest <;> rfl
  | cons c front ih =>
    have positive := Char.utf8Size_pos c
    have nonzero : ¬ byteCount (c :: front) = 0 := by
      rw [byteCount]
      omega
    have enough : c.utf8Size ≤ byteCount (c :: front) := Nat.le_add_right _ _
    have left : byteCount (c :: front) - c.utf8Size = byteCount front := by
      rw [byteCount]
      omega
    rw [List.cons_append, splitAtByte, if_neg nonzero, if_pos enough, left, ih]
    rfl

theorem piece?_of_toList {text : String} {front piece rest : List Char}
    (whole : text.toList = front ++ piece ++ rest) :
    piece? text (byteCount front) (byteCount front + byteCount piece) =
      some (String.ofList piece) := by
  have atStart : splitAtByte (byteCount front) text.toList = some (front, piece ++ rest) := by
    rw [whole, List.append_assoc, splitAtByte_append]
  have atStop : splitAtByte (byteCount front + byteCount piece - byteCount front) (piece ++ rest) =
      some (piece, rest) := by
    rw [Nat.add_sub_cancel_left, splitAtByte_append]
  rw [piece?, guard, if_pos (Nat.le_add_right _ _), atStart]
  simp only [Option.bind_eq_bind, Option.bind_some, atStop, Option.pure_def]

end Text

open Syntax Text

namespace ImportSite

/-! ## The site of one statement -/

theorem touches_iff {f : Fragment} {offset : Nat} :
    f.touches offset = true ↔ f.start ≤ offset ∧ offset ≤ f.stop := by
  simp [Fragment.touches]

theorem surrounds_iff {f : Fragment} {offset : Nat} :
    f.surrounds offset = true ↔ f.start < offset ∧ offset < f.stop := by
  simp [Fragment.surrounds]

theorem start_shift (f : Fragment) (n : Nat) : (f.shift n).start = f.start + n := rfl

theorem stop_shift (f : Fragment) (n : Nat) : (f.shift n).stop = f.stop + n :=
  Nat.add_right_comm f.start n f.text.utf8ByteSize

theorem touches_shift (f : Fragment) {n offset : Nat} (inside : n ≤ offset) :
    (f.shift n).touches offset = f.touches (offset - n) := by
  rw [Bool.eq_iff_iff, touches_iff, touches_iff, start_shift, stop_shift]
  omega

section Statement

variable {dialect : Dialect} {content : String} {i : ImportStmt}

/-- The pieces of a part of a text are cut out of the whole text. -/
theorem piece?_fragment (dialect : Dialect) {text : String} {before behind : List Char}
    (whole : text.toList = before ++ content.toList ++ behind) {i j : Nat} (inOrder : i ≤ j) :
    piece? text (byteCount (content.toList.take i) + byteCount before)
        (byteCount (content.toList.take j) + byteCount before) =
      some ((Source.ofString dialect content).fragment i j).text := by
  have part := Source.toList_around_fragment dialect content inOrder
  generalize isPiece : ((Source.ofString dialect content).fragment i j).text = piece at part ⊢
  have around : text.toList = (before ++ content.toList.take i) ++ piece.toList ++
      (content.toList.drop j ++ behind) := by
    calc text.toList
        = before ++ (content.toList.take i ++ piece.toList ++ content.toList.drop j) ++ behind := by
          rw [← part]
          exact whole
      _ = _ := by simp only [List.append_assoc]
  have cut := piece?_of_toList around
  have stop := Source.stop_fragment dialect content inOrder
  rw [Fragment.stop, isPiece, Source.start_fragment, ← byteCount_toList] at stop
  rw [byteCount_append, String.ofList_toList] at cut
  rw [← cut, ← stop]
  congr 1
  · exact Nat.add_comm _ _
  · omega

/-- The site of an import statement has its pieces from the module, wherever the module's text
stands. -/
theorem exists_importsText
    (isImport : Stmt.importing i ∈ (Outline.read dialect content).statements) :
    ∃ importsText, ∀ (text : String) (before behind : List Char) (offset : Nat),
      text.toList = before ++ content.toList ++ behind →
        ofImport text (byteCount before) offset i = i.source.map fun literal =>
          { importsText
            specifier := withoutQuotes literal.text
            inSpecifier := (literal.shift (byteCount before)).touches offset } := by
  cases given : i.source with
  | none =>
    refine ⟨"", fun text before behind offset whole => ?_⟩
    simp [ofImport, given]
  | some literal =>
    obtain ⟨a, b, standing⟩ := exists_standsAt isImport
    have isPiece : literal ∈ (Stmt.importing i).pieces := Option.mem_toList.mpr given
    obtain ⟨k, l, start, inOrder, -, isLiteral⟩ := standing.pieces literal isPiece
    refine ⟨((Source.ofString dialect content).fragment a k).text,
      fun text before behind offset whole => ?_⟩
    have head := piece?_fragment dialect whole start
    have specifier := piece?_fragment dialect whole inOrder
    have codeStart : i.code.start = byteCount (content.toList.take a) := standing.bytes.1
    have literalStart : literal.start = byteCount (content.toList.take k) := by
      rw [isLiteral, Source.start_fragment]
    have literalStop : literal.stop = byteCount (content.toList.take l) := by
      rw [isLiteral, Source.stop_fragment dialect content inOrder]
    rw [← codeStart, ← literalStart] at head
    rw [← literalStart, ← literalStop, ← isLiteral] at specifier
    simp [ofImport, given, start_shift, stop_shift, head, specifier]

/-- Away from a statement, it is no site. -/
theorem ofStatement_of_outside {stmt : Stmt} {offset : Nat}
    (member : stmt ∈ (Outline.read dialect content).statements)
    (outside : ¬ stmt.code.touches offset = true) : ofStatement content offset stmt = none := by
  cases stmt with
  | importing i => exact if_neg outside
  | declaration d =>
    cases d with
    | variableNames code keyword declarators =>
      cases declarators with
      | nil => rfl
      | cons d rest =>
        have away : ¬ d.code.touches offset = true := by
          intro touched
          have inside := inside_of_mem_pieces member (List.mem_singleton_self d.code)
          rw [touches_iff] at outside touched
          omega
        exact if_neg away
    | _ => rfl
  | _ => rfl

end Statement

/-! ## The site in a module -/

section Module

variable {dialect : Dialect} {content : String} {i : ImportStmt}

/-- Inside of an import statement no other statement is a site. -/
theorem inModule_eq_ofImport {offset : Nat}
    (isImport : Stmt.importing i ∈ (Outline.read dialect content).statements)
    (inside : i.code.surrounds offset = true) :
    inModule dialect content offset = ofImport content 0 offset i := by
  rw [surrounds_iff] at inside
  have away (stmt : Stmt) (member : stmt ∈ (Outline.read dialect content).statements)
      (apart : stmt.code.stop ≤ i.code.start ∨ i.code.stop ≤ stmt.code.start) :
      ofStatement content offset stmt = none := by
    refine ofStatement_of_outside member fun touched => ?_
    rw [touches_iff] at touched
    omega
  have here : ofStatement content offset (.importing i) = ofImport content 0 offset i := by
    refine if_pos (touches_iff.mpr ?_)
    omega
  obtain ⟨earlier, later, whole⟩ := List.append_of_mem isImport
  have ordered := pairwise_statements dialect content
  rw [whole, List.pairwise_append, List.pairwise_cons] at ordered
  obtain ⟨-, ⟨behind, -⟩, ahead⟩ := ordered
  have noneEarlier : earlier.findSome? (ofStatement content offset) = none := by
    refine List.findSome?_eq_none_iff.mpr fun stmt member => away stmt ?_ (.inl ?_)
    · exact whole ▸ List.mem_append_left _ member
    · exact ahead stmt member _ List.mem_cons_self
  have noneLater : later.findSome? (ofStatement content offset) = none := by
    refine List.findSome?_eq_none_iff.mpr fun stmt member => away stmt ?_ (.inr ?_)
    · exact whole ▸ List.mem_append_right _ (List.mem_cons_of_mem _ member)
    · exact behind stmt member
  rw [inModule, whole, List.findSome?_append, noneEarlier, Option.none_or, List.findSome?_cons,
    here, noneLater]
  cases ofImport content 0 offset i <;> rfl

theorem mem_importsOf :
    i ∈ importsOf dialect content ↔
      Stmt.importing i ∈ (Outline.read dialect content).statements := by
  rw [importsOf, List.mem_filterMap]
  constructor
  · rintro ⟨stmt, member, isImport⟩
    cases stmt with
    | importing other =>
      cases isImport
      exact member
    | _ => cases isImport
  · intro member
    exact ⟨_, member, rfl⟩

theorem pairwise_importsOf (dialect : Dialect) (content : String) :
    (importsOf dialect content).Pairwise fun a b => a.code.stop ≤ b.code.start := by
  refine (pairwise_statements dialect content).filterMap _ fun a b le i isImport j isImport' => ?_
  cases a with
  | importing =>
    cases b with
    | importing =>
      cases isImport
      cases isImport'
      exact le
    | _ => cases isImport'
  | _ => cases isImport

/-- An offset is strictly inside of one import statement at most. -/
theorem find?_importsOf {base offset : Nat}
    (isImport : Stmt.importing i ∈ (Outline.read dialect content).statements)
    (inside : (i.code.shift base).surrounds offset = true) :
    (importsOf dialect content).find? (fun j => (j.code.shift base).surrounds offset) = some i := by
  obtain ⟨earlier, later, whole⟩ := List.append_of_mem (mem_importsOf.mpr isImport)
  have ordered := pairwise_importsOf dialect content
  rw [whole, List.pairwise_append] at ordered
  refine List.find?_eq_some_iff_append.mpr ⟨inside, earlier, later, whole, fun j member => ?_⟩
  have ahead := ordered.2.2 j member i List.mem_cons_self
  rw [Bool.not_eq_true', Bool.eq_false_iff]
  intro other
  rw [surrounds_iff, start_shift, stop_shift] at inside other
  omega

end Module

/-! ## The site in a component -/

/-- Inside of an import statement of a block no other block is searched. -/
theorem inComponent_eq_ofImport {text : String} {block : Script} {i : ImportStmt} {offset : Nat}
    (isBlock : block ∈ scripts text)
    (isImport : Stmt.importing i ∈ (Outline.read .tsx block.content).statements)
    (inside : (i.code.shift block.offset).surrounds offset = true) :
    inComponent text offset = ofImport text block.offset offset i := by
  -- only earlier blocks are in the way: the first block with an answer is taken
  obtain ⟨earlier, later, whole⟩ := List.append_of_mem isBlock
  have ordered := pairwise_scripts text
  rw [whole, List.pairwise_append] at ordered
  have behindBlock : block.offset < offset := by
    rw [surrounds_iff, start_shift] at inside
    omega
  have noneEarlier : earlier.findSome? (fun b =>
      ((importsOf .tsx b.content).find? fun j => (j.code.shift b.offset).surrounds offset).map
        fun j => (b.offset, j)) = none := by
    refine List.findSome?_eq_none_iff.mpr fun b member => ?_
    rw [Option.map_eq_none_iff, List.find?_eq_none]
    intro j isImport' other
    have ahead := ordered.2.2 b member block List.mem_cons_self
    have ends := stop_le_of_mem_statements (mem_importsOf.mp isImport')
    have ends' : (Stmt.importing j).code.stop = j.code.stop := rfl
    rw [surrounds_iff, stop_shift] at other
    rw [Script.stop] at ahead
    omega
  rw [inComponent, whole, List.findSome?_append, noneEarlier, Option.none_or, List.findSome?_cons,
    find?_importsOf isImport inside]
  rfl

/-- Strictly inside an import statement of a block, the lookup in the component gives what the
lookup in the block alone gives: the site of that statement. -/
theorem inComponent_eq_inModule {text : String} {block : Script} {i : ImportStmt} {offset : Nat}
    (isBlock : block ∈ scripts text)
    (isImport : Stmt.importing i ∈ (Outline.read .tsx block.content).statements)
    (inside : (i.code.shift block.offset).surrounds offset = true) :
    inComponent text offset = inModule .tsx block.content (offset - block.offset) ∧
      (inComponent text offset).map (·.specifier) =
        i.source.map fun literal => withoutQuotes literal.text := by
  have insideBlock : i.code.surrounds (offset - block.offset) = true := by
    rw [surrounds_iff, start_shift, stop_shift] at inside
    exact surrounds_iff.mpr (by omega)
  have behindStart : block.offset ≤ offset := by
    rw [surrounds_iff, start_shift] at inside
    omega
  obtain ⟨before, behind, whole, isOffset⟩ := exists_around_scripts isBlock
  obtain ⟨importsText, site⟩ := exists_importsText isImport
  have alone : block.content.toList = [] ++ block.content.toList ++ [] := by simp
  have inText := site text before _ offset whole
  have inBlock := site block.content [] [] (offset - block.offset) alone
  rw [← isOffset] at inText
  rw [inComponent_eq_ofImport isBlock isImport inside, inModule_eq_ofImport isImport insideBlock]
  constructor
  · refine inText.trans (Eq.trans ?_ inBlock.symm)
    congr 1
    funext literal
    rw [touches_shift literal behindStart]
    rfl
  · rw [inText, Option.map_map]
    rfl

/-- A component with two scripts and letters of two bytes before each import. -/
def pageText : String :=
  "é<script>import a from \"a\"</script><script setup>/* ö */import b from \"b\";</script>"

theorem inComponent_in_second_script :
    let block : Script := ⟨50, "/* ö */import b from \"b\";"⟩
    let statement : ImportStmt :=
      ⟨⟨8, "import b from \"b\";"⟩, .clause (some "b") none [], some ⟨22, "\"b\""⟩⟩
    block ∈ scripts pageText ∧
      Stmt.importing statement ∈ (Outline.read .tsx block.content).statements ∧
      (statement.code.shift block.offset).surrounds 60 = true ∧
      inComponent pageText 60 = inModule .tsx block.content 10 ∧
      (inComponent pageText 60).map (·.specifier) = some "b" := by
  intro block statement
  have isBlock : block ∈ scripts pageText := by decide +kernel
  have isImport : Stmt.importing statement ∈ (Outline.read .tsx block.content).statements :=
    mem_importsOf.mp (by decide +kernel)
  have inside : (statement.code.shift block.offset).surrounds 60 = true := by decide
  obtain ⟨same, specifier⟩ := inComponent_eq_inModule isBlock isImport inside
  exact ⟨isBlock, isImport, inside, same, specifier⟩

end ImportSite

end ModuleAtlas
