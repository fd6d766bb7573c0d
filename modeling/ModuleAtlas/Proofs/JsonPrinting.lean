import Mathlib.Data.List.Forall2
import ModuleAtlas.Json.Printer
import ModuleAtlas.Proofs.JsonSpelling

/-!
# Printed JSON

The text of a value, in whatever layout, is a text of some tree with nothing but blanks between the
tokens (`Prints`). So a value that has no numbers, no key twice in one object, and no deeper nesting
than the reader takes (`Simple`) is read back from its text (`parse?_render`).
-/

namespace ModuleAtlas.Json

/-! ## Strings -/

/-- How a character is written is one part of a string, which stands for it. -/
theorem exists_part (c : Char) :
    ∃ p : StringPart, p.text = escapeChar c ∧
      ∀ ps, StringPart.decode (p :: ps) = (StringPart.decode ps).map (c :: ·) := by
  unfold escapeChar
  split_ifs with quote backslash backspace feed newline carriage tab control
  · subst quote
    exact ⟨.short '"' (by decide), rfl, fun ps => rfl⟩
  · subst backslash
    exact ⟨.short '\\' (by decide), rfl, fun ps => rfl⟩
  · subst backspace
    exact ⟨.short 'b' (by decide), rfl, fun ps => rfl⟩
  · subst feed
    exact ⟨.short 'f' (by decide), rfl, fun ps => rfl⟩
  · subst newline
    exact ⟨.short 'n' (by decide), rfl, fun ps => rfl⟩
  · subst carriage
    exact ⟨.short 'r' (by decide), rfl, fun ps => rfl⟩
  · subst tab
    exact ⟨.short 't' (by decide), rfl, fun ps => rfl⟩
  · have digits : ∀ n < 0x20, hex4 ('0' :: '0' :: hexByte n) = some (n, []) := by decide
    refine ⟨.code '0' '0' _ _ c.toNat (digits _ control), rfl, fun ps => ?_⟩
    rw [StringPart.decode.eq_def]
    dsimp only
    rw [if_neg (by omega), if_neg (by omega), Char.ofNat_toNat]
  · exact ⟨.plain c ⟨quote, backslash, control⟩, rfl, fun ps => rfl⟩

theorem exists_parts_of_chars (cs : List Char) :
    ∃ ps, partsText ps = cs.flatMap escapeChar ∧ StringPart.decode ps = some cs := by
  induction cs with
  | nil => exact ⟨[], rfl, rfl⟩
  | cons c cs ih =>
    obtain ⟨p, text, stands⟩ := exists_part c
    obtain ⟨ps, texts, decoded⟩ := ih
    refine ⟨p :: ps, ?_, ?_⟩
    · rw [partsText_cons, text, texts, List.flatMap_cons]
    · rw [stands, decoded, Option.map_some]

theorem exists_parts_of_string (s : String) :
    ∃ ps, (Atom.string ps).text = (renderString s).toList ∧
      StringPart.decode ps = some s.toList := by
  obtain ⟨ps, text, decoded⟩ := exists_parts_of_chars s.toList
  refine ⟨ps, ?_, decoded⟩
  rw [Atom.text, text, renderString, String.toList_ofList, List.cons_append]

/-! ## Printed tokens -/

/-- A text of the given tokens: behind any blanks, and whatever follows it, it shows them. -/
def Prints (ks : List Token) (text : List Char) : Prop :=
  ∀ blank rest, (∀ c ∈ blank, isSpace c = true) → Shows ks (blank ++ text ++ rest) rest

theorem prints_token (k : Token) : Prints [k] k.text := by
  intro blank rest space
  refine .cons ?_ (shows_nil rest)
  rw [List.append_assoc, skipSpace, List.dropWhile_append_of_pos space]
  exact skipSpace_token k rest

namespace Prints

variable {ks ks' : List Token} {text text' gap : List Char}

theorem indent (prints : Prints ks text) (space : ∀ c ∈ gap, isSpace c = true) :
    Prints ks (gap ++ text) := by
  intro blank rest before
  have shows := prints (blank ++ gap) rest (List.forall_mem_append.mpr ⟨before, space⟩)
  rwa [List.append_assoc blank] at shows

theorem append (prints : Prints ks text) (prints' : Prints ks' text') :
    Prints (ks ++ ks') (text ++ text') := by
  intro blank rest before
  have first := prints blank (text' ++ rest) before
  have second := prints' [] rest (by simp)
  rw [List.nil_append] at second
  have both := first.append second
  rwa [← List.append_assoc, List.append_assoc blank] at both

/-- What is printed is read. -/
theorem parse?_eq {t : Tree} {text : String} {v : Value} (prints : Prints t.tokens text.toList)
    (value : t.value? maxDepth = some v) : parse? text = some v := by
  obtain ⟨ps, plain, tokens, whole⟩ := prints [] [] (by simp)
  have written : text = String.ofList (piecesText ps ++ fillersText []) := by
    rw [fillersText, List.flatMap_nil, ← whole, List.append_nil, List.nil_append,
      String.ofList_toList]
  have noComma : ps.any Piece.hasComma = false := by
    simpa only [List.any_eq_false, Bool.not_eq_true] using fun p isIn => (plain p isIn).2
  rw [written, parse?_pieces t (fun p isIn => (plain p isIn).1) tokens (by simp), noComma]
  exact value

end Prints

/-! ## Lists -/

theorem isSpace_of_mem_newline (l : Layout) : ∀ c ∈ l.newline.toList, isSpace c = true := by
  intro c member
  cases l with
  | line => cases member
  | indented depth =>
    rw [Layout.newline, String.toList_ofList] at member
    rcases List.mem_cons.mp member with rfl | member
    · rfl
    · rw [List.eq_of_mem_replicate member]
      rfl

/-- Items with commas between them and blanks before each. -/
theorem prints_separated {tokens : List (List Token)} {texts : List (List Char)} {gap : List Char}
    (space : ∀ c ∈ gap, isSpace c = true) (each : List.Forall₂ Prints tokens texts)
    (some : texts ≠ []) : Prints (separated tokens) ([','].intercalate (texts.map (gap ++ ·))) := by
  induction each with
  | nil => exact absurd rfl some
  | @cons first text more texts prints each ih =>
    cases each with
    | nil =>
      rw [List.map_singleton, List.intercalate_singleton, separated, List.flatMap_nil,
        List.append_nil]
      exact prints.indent space
    | @cons second text' more texts prints' each =>
      have behind := ih (List.cons_ne_nil _ _)
      have whole := ((prints.indent space).append (prints_token .comma)).append behind
      rw [List.map_cons, List.map_cons, List.intercalate_cons_cons]
      rw [List.map_cons] at whole
      simpa only [separated, Token.text, List.flatMap_cons, List.append_assoc, List.cons_append,
        List.nil_append] using whole

/-- Items in brackets. -/
theorem prints_bracket (l : Layout) (b : Bracket) {openMark closeMark : String}
    (opens : openMark.toList = [b.opening]) (closes : closeMark.toList = [b.closing])
    {tokens : List (List Token)} {texts : List String}
    (each : List.Forall₂ (fun ks text => Prints ks text.toList) tokens texts) :
    Prints (.opening b :: (separated tokens ++ [.closing b]))
      (bracket l openMark closeMark texts).toList := by
  have opening : Prints [.opening b] openMark.toList := opens ▸ prints_token (.opening b)
  have closing : Prints [.closing b] closeMark.toList := closes ▸ prints_token (.closing b)
  unfold bracket
  cases texts with
  | nil =>
    cases each
    rw [List.isEmpty_nil, if_pos rfl, String.toList_append]
    exact opening.append closing
  | cons text texts =>
    have items := prints_separated (isSpace_of_mem_newline l.deeper)
      (List.forall₂_map_right_iff.mpr each) (by simp)
    have whole := (opening.append items).append (closing.indent (isSpace_of_mem_newline l))
    rw [List.isEmpty_cons, if_neg Bool.false_ne_true]
    have comma : ",".toList = [','] := rfl
    simpa only [String.toList_append, String.toList_intercalate, comma, List.map_map,
      Function.comp_def, List.append_assoc, List.cons_append, List.nil_append] using whole

/-! ## Values -/

/-- A value without numbers, without repeated keys, whose arrays and objects nest at most `depth`
deep. -/
inductive Simple : (depth : Nat) → Value → Prop
  | null {depth : Nat} : Simple depth .null
  | bool {depth : Nat} (b : Bool) : Simple depth (.bool b)
  | string {depth : Nat} (s : String) : Simple depth (.string s)
  | array {depth : Nat} {items : List Value} (each : ∀ v ∈ items, Simple depth v) :
      Simple (depth + 1) (.array items)
  | object {depth : Nat} {fields : List (String × Value)} (each : ∀ f ∈ fields, Simple depth f.2)
      (distinct : (fields.map (·.1)).Nodup) : Simple (depth + 1) (.object fields)

theorem renderItems_eq (l : Layout) (vs : List Value) : renderItems l vs = vs.map (render l) := by
  induction vs with
  | nil => rfl
  | cons v vs ih => rw [renderItems, ih, List.map_cons]

theorem renderFields_eq (l : Layout) (fs : List (String × Value)) :
    renderFields l fs = fs.map fun f => renderString f.1 ++ l.colon ++ render l f.2 := by
  induction fs with
  | nil => rfl
  | cons f fs ih => rw [renderFields, ih, List.map_cons]

section Lists

variable {α β : Type}

theorem exists_forall₂ {R : α → β → Prop} {as : List α} (each : ∀ a ∈ as, ∃ b, R a b) :
    ∃ bs, List.Forall₂ R as bs := by
  induction as with
  | nil => exact ⟨[], .nil⟩
  | cons a as ih =>
    obtain ⟨⟨b, isFirst⟩, each⟩ := List.forall_mem_cons.mp each |>.imp_right ih
    obtain ⟨bs, rest⟩ := each
    exact ⟨b :: bs, .cons isFirst rest⟩

theorem mapM_of_forall₂ {f : β → Option α} {as : List α} {bs : List β}
    (each : List.Forall₂ (fun a b => f b = some a) as bs) : bs.mapM f = some as := by
  induction each with
  | nil => rfl
  | cons isFirst _ ih =>
    rw [mapM_cons_option, isFirst, ih]
    rfl

end Lists

/-- Fields with distinct keys stay as they are. -/
theorem mergeFields_of_nodup {fields : List (String × Value)}
    (distinct : (fields.map (·.1)).Nodup) : mergeFields fields = fields := by
  have behind : ∀ front : List (String × Value), ((front ++ fields).map (·.1)).Nodup →
      fields.foldl (fun acc f => insertField acc f.1 f.2) front = front ++ fields := by
    clear distinct
    induction fields with
    | nil => simp
    | cons f fields ih =>
      intro front distinct
      have new : front.any (·.1 == f.1) = false := by
        rw [List.map_append, List.nodup_append] at distinct
        rw [List.any_eq_false]
        intro g member same
        exact distinct.2.2 g.1 (List.mem_map_of_mem member) f.1 List.mem_cons_self
          (beq_iff_eq.mp same)
      rw [List.foldl_cons, insertField, if_neg (by simp [new]), ih _ (by simpa using distinct)]
      simp
  exact behind [] distinct

/-- A key and a value are printed as a field of them. -/
theorem exists_printed_field {depth : Nat} {f : String × Value} {l : Layout}
    (printed : ∃ t : Tree, t.value? depth = some f.2 ∧ Prints t.tokens (render l f.2).toList) :
    ∃ field, Tree.fieldValue? (Tree.value? depth) field = some f ∧
      Prints (Tree.tokensOfField field) (renderString f.1 ++ l.colon ++ render l f.2).toList := by
  obtain ⟨t, value, prints⟩ := printed
  obtain ⟨ps, text, decoded⟩ := exists_parts_of_string f.1
  refine ⟨(ps, t), ?_, ?_⟩
  · rw [Tree.fieldValue?, decoded, Option.bind_some, value, Option.map_some, String.ofList_toList]
  · have key : Prints [.atom (.string ps)] (renderString f.1).toList := text ▸ prints_token _
    have colon : Prints (.colon :: t.tokens) (l.colon ++ render l f.2).toList := by
      rw [String.toList_append]
      cases l with
      | line => exact (prints_token .colon).append prints
      | indented n =>
        have behind : Prints t.tokens ([' '] ++ (render (.indented n) f.2).toList) :=
          prints.indent fun c member => List.mem_singleton.mp member ▸ rfl
        rw [Layout.colon]
        exact (prints_token .colon).append behind
    rw [String.append_assoc, String.toList_append]
    exact key.append colon

/-- A value is printed as a tree of the same value. -/
theorem exists_printed {depth : Nat} {v : Value} (simple : Simple depth v) (l : Layout) :
    ∃ t : Tree, t.value? (depth + 1) = some v ∧ Prints t.tokens (render l v).toList := by
  induction simple generalizing l with
  | null =>
    refine ⟨.atom .null, rfl, ?_⟩
    rw [Tree.tokens, render]
    exact prints_token (.atom .null)
  | bool b =>
    refine ⟨.atom (.bool b), rfl, ?_⟩
    rw [Tree.tokens]
    cases b with
    | true => rw [render]; exact prints_token (.atom (.bool true))
    | false => rw [render]; exact prints_token (.atom (.bool false))
  | string s =>
    obtain ⟨ps, text, decoded⟩ := exists_parts_of_string s
    refine ⟨.atom (.string ps), ?_, ?_⟩
    · rw [Tree.value?, Atom.value?, decoded, Option.map_some, String.ofList_toList]
    · rw [Tree.tokens, render, ← text]
      exact prints_token (.atom (.string ps))
  | @array depth items each ih =>
    obtain ⟨ts, printed⟩ := exists_forall₂ fun v member => ih v member l.deeper
    refine ⟨.array ts, ?_, ?_⟩
    · rw [Tree.value?, mapM_of_forall₂ (printed.imp fun _ _ h => h.1), Option.map_some]
    · rw [Tree.tokens, Tree.itemTokens_eq, render, renderItems_eq]
      refine prints_bracket l .array rfl rfl ?_
      rw [List.forall₂_map_left_iff, List.forall₂_map_right_iff]
      exact (printed.imp fun _ _ h => h.2).flip
  | @object depth fields each distinct ih =>
    obtain ⟨ts, printed⟩ := exists_forall₂ fun f member =>
      exists_printed_field (ih f member l.deeper)
    refine ⟨.object ts, ?_, ?_⟩
    · rw [Tree.value?, mapM_of_forall₂ (printed.imp fun _ _ h => h.1), Option.map_some,
        mergeFields_of_nodup distinct]
    · rw [Tree.tokens, Tree.fieldTokens_eq, render, renderFields_eq]
      refine prints_bracket l .object rfl rfl ?_
      rw [List.forall₂_map_left_iff, List.forall₂_map_right_iff]
      exact (printed.imp fun _ _ h => h.2).flip

/-- A value is read back from its text in any layout. -/
theorem parse?_render {v : Value} (simple : Simple (maxDepth - 1) v) (l : Layout) :
    parse? (render l v) = some v := by
  obtain ⟨t, value, prints⟩ := exists_printed simple l
  exact prints.parse?_eq value

end ModuleAtlas.Json
