import ModuleAtlas.Proofs.CursorPositions

/-!
# How script blocks divide a text

A script element is an opening tag `<script …>`, whose attributes hold no `>`, a content, and a
closing tag. Reading the blocks of a text from left to right divides it into elements with gaps
before them and a rest (`scripts_divide`): the blocks are the contents of the elements at the
offsets where they stand, no content goes beyond the first closing tag, and nothing was passed over,
as neither a gap nor the rest holds a whole element.

Each part is cut off at the first place of a word, so that every later place of the word is still in
what remains (`splitBefore_eq_some`). That is why nothing is passed over: where an element stands,
all three words are found, each no later than in that element (`firstScript_eq_none`).
-/

namespace ModuleAtlas.Text

/-! ## The first place of a word -/

section FirstPlace

variable {word cs before rest : List Char}

theorem splitBefore_eq_none : splitBefore word cs = none ↔ ¬ word <:+: cs := by
  induction cs with
  | nil => simp [splitBefore]
  | cons c cs ih =>
    rw [splitBefore, List.infix_cons_iff, ← List.isPrefixOf_iff_prefix]
    split
    · next here => simp [here]
    · next elsewhere => rw [Option.map_eq_none_iff, ih, or_iff_right elsewhere]

/-- A text is divided before the first place of a word: every place of the word is in the rest. -/
theorem splitBefore_eq_some (found : splitBefore word cs = some (before, rest)) :
    cs = before ++ rest ∧ word <+: rest ∧
      ∀ later, later <:+ cs → word <+: later → later <:+ rest := by
  induction cs generalizing before with
  | nil =>
    rw [splitBefore] at found
    split at found
    · next empty =>
      cases found
      rw [List.isEmpty_iff] at empty
      exact ⟨rfl, empty ▸ List.nil_prefix, fun _ part _ => part⟩
    · cases found
  | cons c cs ih =>
    rw [splitBefore] at found
    split at found
    · next here =>
      cases found
      exact ⟨rfl, List.isPrefixOf_iff_prefix.mp here, fun _ part _ => part⟩
    · next elsewhere =>
      obtain ⟨⟨front, back⟩, further, whole⟩ := Option.map_eq_some_iff.mp found
      cases whole
      obtain ⟨rfl, starts, first⟩ := ih further
      refine ⟨rfl, starts, fun later part starts' => ?_⟩
      rcases List.suffix_cons_iff.mp part with rfl | part
      · exact absurd (List.isPrefixOf_iff_prefix.mpr starts') elsewhere
      · exact first later part starts'

/-- The word does not stand before its first place. -/
theorem not_infix_of_splitBefore (nonempty : word ≠ [])
    (found : splitBefore word cs = some (before, rest)) : ¬ word <:+: before := by
  rintro ⟨front, back, rfl⟩
  obtain ⟨rfl, -, first⟩ := splitBefore_eq_some found
  have part : word ++ back ++ rest <:+ front ++ word ++ back ++ rest :=
    ⟨front, by simp only [List.append_assoc]⟩
  have shorter := (first _ part ⟨back ++ rest, (List.append_assoc ..).symm⟩).length_le
  have := List.length_pos_of_ne_nil nonempty
  simp only [List.length_append] at shorter
  omega

/-- Where a word stands in a text, the text is divided before a place of the word that is no
later. -/
theorem exists_splitBefore {behind : List Char} (stands : word ++ behind <:+ cs) :
    ∃ before rest, splitBefore word cs = some (before, word ++ rest) ∧ behind <:+ rest := by
  have starts : word <+: word ++ behind := List.prefix_append _ _
  cases found : splitBefore word cs with
  | none => exact absurd (starts.isInfix.trans stands.isInfix) (splitBefore_eq_none.mp found)
  | some place =>
    obtain ⟨before, at'⟩ := place
    obtain ⟨-, ⟨rest, rfl⟩, first⟩ := splitBefore_eq_some found
    have later := first _ stands starts
    have shorter := later.length_le
    simp only [List.length_append] at shorter
    exact ⟨before, rest, rfl, List.suffix_of_suffix_length_le
      ((List.suffix_append _ _).trans later) (List.suffix_append _ _) (by omega)⟩

end FirstPlace

/-! ## Elements -/

/-- A script element as it stands in a text. -/
structure Element where
  attributes : List Char
  content : List Char
  /-- The opening tag ends at the first `>`. -/
  ends : '>' ∉ attributes

namespace Element

/-- What stands before the content of an element. -/
def openingTag (e : Element) : List Char := scriptOpen ++ e.attributes ++ ['>']

/-- The whole text of an element. -/
def text (e : Element) : List Char := e.openingTag ++ e.content ++ scriptClose

end Element

/-- Whether a whole script element stands somewhere in a text. -/
def HoldsElement (cs : List Char) : Prop := ∃ e : Element, e.text <:+: cs

theorem not_holdsElement_of_not_infix {cs : List Char} (absent : ¬ scriptOpen <:+: cs) :
    ¬ HoldsElement cs := by
  rintro ⟨e, inside⟩
  have starts : scriptOpen <+: e.text := by
    simp only [Element.text, Element.openingTag, List.append_assoc]
    exact List.prefix_append _ _
  exact absent (starts.isInfix.trans inside)

theorem firstScript_eq_some {cs lead content rest : List Char}
    (found : firstScript cs = some (lead, content, rest)) :
    ∃ (gap : List Char) (e : Element), lead = gap ++ e.openingTag ∧ content = e.content ∧
      cs = gap ++ e.text ++ rest ∧ ¬ scriptClose <:+: e.content ∧ ¬ HoldsElement gap := by
  simp only [firstScript, Option.bind_eq_bind, Option.bind_eq_some_iff, Prod.exists] at found
  obtain ⟨gap, tag, first, attributes, tail, second, body, tail', third, whole⟩ := found
  cases whole
  obtain ⟨rfl, opens, -⟩ := splitBefore_eq_some first
  obtain ⟨tag', ends, -⟩ := splitBefore_eq_some second
  obtain ⟨tail'', closes, -⟩ := splitBefore_eq_some third
  have unclosed : '>' ∉ attributes := by
    intro member
    obtain ⟨front, back, rfl⟩ := List.append_of_mem member
    exact not_infix_of_splitBefore (List.cons_ne_nil _ _) second ⟨front, back, by simp⟩
  refine ⟨gap, ⟨attributes, content, unclosed⟩, ?_, rfl, ?_,
    not_infix_of_splitBefore (by decide) third,
    not_holdsElement_of_not_infix (not_infix_of_splitBefore (by decide) first)⟩
  · simp only [Element.openingTag, List.append_assoc]
  · have step₁ := List.prefix_iff_eq_append.mp opens
    have step₂ := List.prefix_iff_eq_append.mp ends
    have step₃ := List.prefix_iff_eq_append.mp closes
    rw [List.length_singleton] at step₂
    rw [tag'] at step₁
    rw [tail''] at step₂
    simp only [Element.text, Element.openingTag, List.append_assoc, step₃, step₂, step₁]

theorem firstScript_eq_none {cs : List Char} (missing : firstScript cs = none) :
    ¬ HoldsElement cs := by
  rintro ⟨e, front, back, rfl⟩
  have opens : scriptOpen ++ (e.attributes ++ (['>'] ++ (e.content ++ (scriptClose ++ back)))) <:+
      front ++ e.text ++ back :=
    ⟨front, by simp only [Element.text, Element.openingTag, List.append_assoc]⟩
  -- each word is found in what the one before leaves, as the element's own place of it is there
  obtain ⟨gap, tag, first, inTag⟩ := exists_splitBefore opens
  obtain ⟨attributes, tail, second, inTail⟩ :=
    exists_splitBefore ((List.suffix_append _ _).trans inTag)
  obtain ⟨content, rest, third, -⟩ := exists_splitBefore ((List.suffix_append _ _).trans inTail)
  simp only [firstScript, first, second, third, Option.bind_eq_bind, Option.bind_some,
    List.drop_left, List.singleton_append, List.drop_succ_cons, List.drop_zero] at missing
  cases missing

/-! ## Layouts -/

/-- The byte offset behind the content of a block. -/
def Script.stop (b : Script) : Nat := b.offset + b.content.utf8ByteSize

/-- Script elements, each with the gap before it. -/
abbrev Layout := List (List Char × Element)

namespace Layout

/-- The text of a layout. -/
def text (layout : Layout) : List Char := layout.flatMap fun p => p.1 ++ p.2.text

/-- The blocks of a layout that stands at a byte offset. -/
def blocks (offset : Nat) : Layout → List Script
  | [] => []
  | (gap, e) :: layout =>
    ⟨offset + byteCount (gap ++ e.openingTag), String.ofList e.content⟩ ::
      blocks (offset + byteCount (gap ++ e.text)) layout

theorem text_cons (gap : List Char) (e : Element) (layout : Layout) :
    text ((gap, e) :: layout) = gap ++ e.text ++ text layout := by
  rw [text, List.flatMap_cons, text]

end Layout

/-- What makes a layout and a rest the division of a text into its script elements: contents end
before the first closing tag, and no whole element is left between them. -/
structure Divides (layout : Layout) (rest cs : List Char) : Prop where
  whole : cs = layout.text ++ rest
  contents : ∀ p ∈ layout, ¬ scriptClose <:+: p.2.content
  gaps : ∀ p ∈ layout, ¬ HoldsElement p.1
  rest : ¬ HoldsElement rest

/-- One element after another is cut off the text, as long as there is one. -/
theorem exists_divides (fuel offset : Nat) (cs : List Char) (enough : cs.length < fuel) :
    ∃ layout rest, Divides layout rest cs ∧ scriptsFrom fuel offset cs = layout.blocks offset := by
  induction fuel generalizing offset cs with
  | zero => exact absurd enough (Nat.not_lt_zero _)
  | succ fuel ih =>
    rw [scriptsFrom]
    split
    · next lead content behind found =>
      obtain ⟨gap, e, rfl, rfl, rfl, ended, empty⟩ := firstScript_eq_some found
      have shorter : behind.length < fuel := by
        have : 0 < scriptClose.length := by decide
        simp only [Element.text, List.length_append] at enough
        omega
      obtain ⟨layout, rest, divides, blocks⟩ :=
        ih (offset + byteCount (gap ++ e.text)) behind shorter
      have next : offset + byteCount (gap ++ e.openingTag) + byteCount e.content +
          byteCount scriptClose = offset + byteCount (gap ++ e.text) := by
        simp only [Element.text, byteCount_append, Nat.add_assoc]
      refine ⟨(gap, e) :: layout, rest, ⟨?_, ?_, ?_, divides.rest⟩, ?_⟩
      · rw [divides.whole, Layout.text_cons, List.append_assoc _ layout.text]
      · exact List.forall_mem_cons.mpr ⟨ended, divides.contents⟩
      · exact List.forall_mem_cons.mpr ⟨empty, divides.gaps⟩
      · rw [Layout.blocks, ← blocks]
        simp only [next]
    · next missing =>
      exact ⟨[], cs, ⟨rfl, by simp, by simp, firstScript_eq_none missing⟩, rfl⟩

namespace Layout

/-- A block of a layout has its content at its offset, with its closing tag behind it. -/
theorem exists_around {layout : Layout} {offset : Nat} {b : Script}
    (isBlock : b ∈ layout.blocks offset) :
    ∃ before behind, layout.text = before ++ b.content.toList ++ scriptClose ++ behind ∧
      b.offset = offset + byteCount before := by
  induction layout generalizing offset with
  | nil => cases isBlock
  | cons p layout ih =>
    obtain ⟨gap, e⟩ := p
    rw [text_cons]
    rcases List.mem_cons.mp isBlock with rfl | isBlock
    · refine ⟨gap ++ e.openingTag, text layout, ?_, rfl⟩
      simp only [Element.text, String.toList_ofList, List.append_assoc]
    · obtain ⟨before, behind, whole, at'⟩ := ih isBlock
      refine ⟨gap ++ e.text ++ before, behind, ?_, ?_⟩
      · rw [whole]
        simp only [List.append_assoc]
      · rw [at', byteCount_append _ before, Nat.add_assoc]

/-- The first block of a layout stands behind an opening tag, and so do all others. -/
theorem lt_offset {layout : Layout} {offset : Nat} {b : Script}
    (isBlock : b ∈ layout.blocks offset) : offset + byteCount scriptOpen < b.offset := by
  induction layout generalizing offset with
  | nil => cases isBlock
  | cons p layout ih =>
    obtain ⟨gap, e⟩ := p
    rcases List.mem_cons.mp isBlock with rfl | isBlock
    · have tag : byteCount ['>'] = 1 := by decide
      simp only [Element.openingTag, byteCount_append]
      omega
    · have := ih isBlock
      omega

theorem pairwise_blocks (layout : Layout) (offset : Nat) :
    (layout.blocks offset).Pairwise fun a b => a.stop + byteCount scriptClose < b.offset := by
  induction layout generalizing offset with
  | nil => exact .nil
  | cons p layout ih =>
    obtain ⟨gap, e⟩ := p
    refine List.pairwise_cons.mpr ⟨fun b isBlock => ?_, ih _⟩
    have later := lt_offset isBlock
    simp only [Element.text, byteCount_append] at later
    simp only [Script.stop, ← byteCount_toList, String.toList_ofList, byteCount_append]
    omega

end Layout

/-! ## Blocks of a text -/

theorem exists_divides_scripts (text : String) :
    ∃ layout rest, Divides layout rest text.toList ∧ scripts text = layout.blocks 0 :=
  exists_divides (text.length + 1) 0 text.toList (by rw [String.length_toList]; omega)

/-- Blocks come one after the other, each behind the closing tag of the one before. -/
theorem pairwise_scripts (text : String) :
    (scripts text).Pairwise fun a b => a.stop + byteCount scriptClose < b.offset := by
  obtain ⟨layout, rest, -, blocks⟩ := exists_divides_scripts text
  rw [blocks]
  exact layout.pairwise_blocks 0

/-- What stands in the text around a block. -/
theorem exists_around_scripts {text : String} {b : Script} (isBlock : b ∈ scripts text) :
    ∃ before behind, text.toList = before ++ b.content.toList ++ (scriptClose ++ behind) ∧
      b.offset = byteCount before := by
  obtain ⟨layout, rest, divides, blocks⟩ := exists_divides_scripts text
  rw [blocks] at isBlock
  obtain ⟨before, behind, whole, at'⟩ := layout.exists_around isBlock
  refine ⟨before, behind ++ rest, ?_, at'.trans (Nat.zero_add _)⟩
  rw [divides.whole, whole]
  simp only [List.append_assoc]

theorem extract_of_toList {text : String} {before piece behind : List Char}
    (whole : text.toList = before ++ piece ++ behind) :
    text.toByteArray.extract (byteCount before) (byteCount before + byteCount piece) =
      (String.ofList piece).toByteArray := by
  have parts : text = String.ofList before ++ (String.ofList piece ++ String.ofList behind) := by
    apply String.toList_inj.mp
    simp only [whole, String.toList_append, String.toList_ofList, List.append_assoc]
  have size (cs : List Char) : byteCount cs = (String.ofList cs).toByteArray.size := by
    rw [String.size_toByteArray, ← byteCount_toList, String.toList_ofList]
  rw [parts, size, size, String.toByteArray_append, String.toByteArray_append]
  exact (ByteArray.extract_append_size_add (i := 0)).trans (ByteArray.extract_append_eq_left rfl)

/-- The script blocks of a text are the contents of the script elements into which it is divided,
from left to right. They come one after the other, each behind the closing tag of the one before,
and the bytes of the text from the offset of a block on are those of its content and of a closing
tag. -/
theorem scripts_divide (text : String) :
    (∃ layout rest, Divides layout rest text.toList ∧ scripts text = layout.blocks 0) ∧
    (scripts text).Pairwise (fun a b => a.stop + byteCount scriptClose < b.offset) ∧
    ∀ b ∈ scripts text,
      text.toByteArray.extract b.offset b.stop = b.content.toByteArray ∧
      text.toByteArray.extract b.stop (b.stop + byteCount scriptClose) =
        (String.ofList scriptClose).toByteArray := by
  refine ⟨exists_divides_scripts text, pairwise_scripts text, fun b isBlock => ?_⟩
  obtain ⟨before, behind, whole, at'⟩ := exists_around_scripts isBlock
  have stop : b.stop = byteCount (before ++ b.content.toList) := by
    rw [Script.stop, at', byteCount_append, byteCount_toList]
  constructor
  · rw [at', stop, byteCount_append, extract_of_toList whole, String.ofList_toList]
  · rw [stop]
    exact extract_of_toList (by rw [whole, List.append_assoc _ scriptClose])

example : scripts "é<script s>a</script ></script>, <script>b" = [⟨12, "a</script >"⟩] := by decide

end ModuleAtlas.Text
