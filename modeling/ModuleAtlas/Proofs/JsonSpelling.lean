import ModuleAtlas.Proofs.JsonGrammar
import ModuleAtlas.Text.Blank

/-!
# JSON texts

A text of a tree is its tokens with something before each of them (`Piece`, `Spelling`): blanks,
comments, and before a closing bracket also a trailing comma. The reader knows blanks only. On a
text with nothing but blanks between the tokens it gives the value of the tree, and on one that
still has a trailing comma it gives nothing (`readValue_pieces`, `parse?_pieces`). It accepts no
other texts than those without a comma too many (`exists_spelling`, `parse?_eq_some_iff`).
-/

namespace ModuleAtlas.Json

/-! ## Between tokens -/

/-- What may stand between tokens. -/
inductive Filler where
  | blank (c : Char) (space : isSpace c = true)
  /-- A comment up to the end of its line. -/
  | line (comment : List Char) (unbroken : '\n' ∉ comment)
  /-- A comment up to the first star with a slash behind it. -/
  | block (comment : List Char) (inside : ¬ ['*', '/'] <:+: comment)

namespace Filler

/-- How a filler is written. -/
def text : Filler → List Char
  | blank c _ => [c]
  | line comment _ => '/' :: '/' :: (comment ++ ['\n'])
  | block comment _ => '/' :: '*' :: (comment ++ ['*', '/'])

/-- Whether a filler is no comment. -/
def isBlank : Filler → Bool
  | blank _ _ => true
  | _ => false

end Filler

/-- How fillers are written. -/
def fillersText (fs : List Filler) : List Char := fs.flatMap Filler.text

/-- How a trailing comma is written, with what stands behind it. -/
def trailingText : Option (List Filler) → List Char
  | none => []
  | some behind => ',' :: fillersText behind

/-- A token and what stands before it: fillers, and before a closing bracket perhaps a trailing
comma and further fillers. -/
structure Piece where
  gap : List Filler
  trailing : Option (List Filler)
  token : Token
  closes : trailing.isSome → token.isClosing

namespace Piece

/-- How a piece is written. -/
def text (p : Piece) : List Char :=
  fillersText p.gap ++ (trailingText p.trailing ++ p.token.text)

/-- Whether a trailing comma stands before the token. -/
def hasComma (p : Piece) : Bool := p.trailing.isSome

/-- There are no comments in the piece. -/
def IsBlank (p : Piece) : Prop :=
  (∀ f ∈ p.gap, f.isBlank) ∧ ∀ behind ∈ p.trailing, ∀ f ∈ behind, f.isBlank

theorem trailing_eq_none {p : Piece} (other : p.token.isClosing = false) : p.trailing = none := by
  rw [← Option.not_isSome_iff_eq_none]
  intro comma
  rw [p.closes comma] at other
  cases other

end Piece

/-- How pieces are written. -/
def piecesText (ps : List Piece) : List Char := ps.flatMap Piece.text

theorem piecesText_append (ps qs : List Piece) :
    piecesText (ps ++ qs) = piecesText ps ++ piecesText qs := List.flatMap_append

theorem piecesText_cons (p : Piece) (ps : List Piece) (cs : List Char) :
    piecesText (p :: ps) ++ cs = p.text ++ (piecesText ps ++ cs) := by
  rw [piecesText, List.flatMap_cons, List.append_assoc]
  rfl

/-- A text of a tree: its tokens with something before each of them, and at the end further fillers
and perhaps a comment that is open up to the end of the text. -/
structure Spelling (t : Tree) where
  pieces : List Piece
  last : List Filler
  openComment : Option (List Char)
  tokens_eq : pieces.map Piece.token = t.tokens
  unbroken : ∀ comment ∈ openComment, '\n' ∉ comment

namespace Spelling

variable {t : Tree}

/-- How the end of a text is written. -/
def lastText (sp : Spelling t) : List Char :=
  fillersText sp.last ++ sp.openComment.elim [] fun comment => '/' :: '/' :: comment

/-- The text of a spelling. -/
def text (sp : Spelling t) : String := String.ofList (piecesText sp.pieces ++ sp.lastText)

/-- A spelling with nothing but blanks between the tokens. -/
structure IsJson (sp : Spelling t) : Prop where
  blank : ∀ p ∈ sp.pieces, p.IsBlank
  plain : ∀ p ∈ sp.pieces, p.hasComma = false
  blankLast : ∀ f ∈ sp.last, f.isBlank
  closed : sp.openComment = none

end Spelling

/-! ## The first character of a token -/

theorem not_blank_of_isDigit {c : Char} (digit : c.isDigit) : Text.isBlank c = false := by
  have bounds : 48 ≤ c.toNat ∧ c.toNat ≤ 57 := by
    simpa [Char.isDigit, UInt32.le_iff_toNat_le] using digit
  simp only [Text.isBlank, Bool.or_eq_false_iff, Bool.and_eq_false_imp, decide_eq_true_eq,
    decide_eq_false_iff_not, beq_eq_false_iff_ne]
  omega

theorem isSpace_cases {c : Char} (space : isSpace c = true) :
    c = ' ' ∨ c = '\n' ∨ c = '\t' ∨ c = '\r' := by
  simpa [isSpace, or_assoc] using space

theorem isBlank_of_isSpace {c : Char} (space : isSpace c = true) : Text.isBlank c = true := by
  rcases isSpace_cases space with rfl | rfl | rfl | rfl <;> rfl

/-- A character that tokens start with: it is no blank, and closes a bracket just if the token
does. -/
structure Leads (k : Token) (c : Char) : Prop where
  notBlank : Text.isBlank c = false
  closes : k.isClosing = (c == ']' || c == '\x7d')

theorem Leads.not_space {k : Token} {c : Char} (leads : Leads k c) : isSpace c = false := by
  rw [← Bool.not_eq_true]
  intro space
  have := leads.notBlank
  rw [isBlank_of_isSpace space] at this
  cases this

theorem Numeral.exists_first (n : Numeral) :
    ∃ c cs, n.text = c :: cs ∧ (c = '-' ∨ c.isDigit) := by
  rw [text]
  cases n.negative with
  | true => exact ⟨'-', _, rfl, .inl rfl⟩
  | false =>
    obtain ⟨d, ds, whole⟩ := List.exists_cons_of_ne_nil n.nonempty
    rw [whole]
    exact ⟨d, _, rfl, .inr (n.wholeDigits d (whole ▸ List.mem_cons_self))⟩

theorem Token.exists_first (k : Token) : ∃ c cs, k.text = c :: cs ∧ Leads k c := by
  match k with
  | .atom .null => exact ⟨'n', _, rfl, rfl, rfl⟩
  | .atom (.bool true) => exact ⟨'t', _, rfl, rfl, rfl⟩
  | .atom (.bool false) => exact ⟨'f', _, rfl, rfl, rfl⟩
  | .atom (.string ps) => exact ⟨'"', _, rfl, rfl, rfl⟩
  | .opening .array => exact ⟨'[', _, rfl, rfl, rfl⟩
  | .opening .object => exact ⟨'\x7b', _, rfl, rfl, rfl⟩
  | .closing .array => exact ⟨']', _, rfl, rfl, rfl⟩
  | .closing .object => exact ⟨'\x7d', _, rfl, rfl, rfl⟩
  | .comma => exact ⟨',', _, rfl, rfl, rfl⟩
  | .colon => exact ⟨':', _, rfl, rfl, rfl⟩
  | .atom (.number n) =>
    obtain ⟨c, cs, first, kind⟩ := n.exists_first
    refine ⟨c, cs, first, ?_⟩
    rcases kind with rfl | digit
    · exact ⟨rfl, rfl⟩
    · refine ⟨not_blank_of_isDigit digit, ?_⟩
      have noBracket : c ≠ ']' := by rintro rfl; cases digit
      have noBrace : c ≠ '\x7d' := by rintro rfl; cases digit
      simp [isClosing, noBracket, noBrace]

/-! ## Passing over blanks -/

theorem isSpace_of_mem_fillersText {fs : List Filler} (blank : ∀ f ∈ fs, f.isBlank) {c : Char}
    (isIn : c ∈ fillersText fs) : isSpace c = true := by
  obtain ⟨f, member, isIn⟩ := List.mem_flatMap.mp isIn
  match f, blank f member with
  | .blank d space, _ => rwa [List.mem_singleton.mp isIn]

theorem skipSpace_fillers {fs : List Filler} (blank : ∀ f ∈ fs, f.isBlank) (cs : Rest) :
    skipSpace (fillersText fs ++ cs) = skipSpace cs :=
  List.dropWhile_append_of_pos fun _ isIn => isSpace_of_mem_fillersText blank isIn

theorem skipSpace_token (k : Token) (cs : Rest) : skipSpace (k.text ++ cs) = k.text ++ cs := by
  obtain ⟨c, more, first, leads⟩ := k.exists_first
  rw [first, List.cons_append, skipSpace, List.dropWhile_cons, leads.not_space]
  rfl

/-- A piece without a trailing comma is its token with blanks before it. -/
theorem skipSpace_piece {p : Piece} (blank : p.IsBlank) (plain : p.trailing = none) (cs : Rest) :
    skipSpace (p.text ++ cs) = p.token.text ++ cs := by
  rw [Piece.text, plain, List.append_assoc, skipSpace_fillers blank.1]
  exact skipSpace_token p.token cs

/-- A piece with a trailing comma shows the comma first. -/
theorem skipSpace_comma {p : Piece} (blank : p.IsBlank) {behind : List Filler}
    (comma : p.trailing = some behind) (cs : Rest) :
    skipSpace (p.text ++ cs) = ',' :: (fillersText behind ++ (p.token.text ++ cs)) := by
  rw [Piece.text, comma, List.append_assoc, skipSpace_fillers blank.1, trailingText,
    List.cons_append, List.cons_append, List.append_assoc, skipSpace, List.dropWhile_cons]
  rfl

/-- Blanks and what stops a number stop a number. -/
theorem stops_fillers {fs : List Filler} (blank : ∀ f ∈ fs, f.isBlank) {cs : Rest}
    (stops : Stops cs) : Stops (fillersText fs ++ cs) := by
  match kept : fillersText fs with
  | [] => exact stops
  | c :: more =>
    have space : isSpace c := isSpace_of_mem_fillersText blank (kept ▸ List.mem_cons_self)
    intro d isFirst
    obtain rfl := Option.some.inj isFirst
    rcases isSpace_cases space with rfl | rfl | rfl | rfl <;> decide

/-- What stands before a mark does not continue a number, and neither does the mark. -/
theorem stops_piece {p : Piece} (blank : p.IsBlank)
    (mark : p.token = .comma ∨ ∃ b, p.token = .closing b) (cs : Rest) : Stops (p.text ++ cs) := by
  rw [Piece.text, List.append_assoc]
  refine stops_fillers blank.1 fun c isFirst => ?_
  have kinds : c = ',' ∨ c = ']' ∨ c = '\x7d' := by
    match comma : p.trailing with
    | some behind =>
      rw [comma] at isFirst
      exact .inl (Option.some.inj isFirst).symm
    | none =>
      rw [comma] at isFirst
      rcases mark with mark | ⟨b, mark⟩
      · rw [mark] at isFirst
        exact .inl (Option.some.inj isFirst).symm
      · rw [mark] at isFirst
        obtain rfl := Option.some.inj isFirst
        cases b
        · exact .inr (.inl rfl)
        · exact .inr (.inr rfl)
  rcases kinds with rfl | rfl | rfl <;> decide

/-! ## Atoms -/

/-- What starts no word and no bracket can only be a number. -/
theorem readValue_else {depth : Nat} {c : Char} (noWord : c ∉ ['n', 't', 'f', '"'])
    (noBracket : depth < 2 ∨ c ∉ ['[', '\x7b']) (cs : Rest) :
    readValue depth (c :: cs) = (readNumber (c :: cs)).map fun (n, cs) => (Value.number n, cs) := by
  simp only [List.mem_cons, List.not_mem_nil, or_false, not_or] at noWord noBracket
  rw [readValue.eq_def]
  split <;> rename_i start
  · exact absurd (List.cons.inj start).1 noWord.1
  · exact absurd (List.cons.inj start).1 noWord.2.1
  · exact absurd (List.cons.inj start).1 noWord.2.2.1
  · exact absurd (List.cons.inj start).1 noWord.2.2.2
  · rcases noBracket with deep | noBracket
    · omega
    · exact absurd (List.cons.inj start).1 noBracket.1
  · rcases noBracket with deep | noBracket
    · omega
    · exact absurd (List.cons.inj start).1 noBracket.2
  · rfl

theorem readValue_number (depth : Nat) {c : Char} (kind : c = '-' ∨ c.isDigit) (cs : Rest) :
    readValue depth (c :: cs) = (readNumber (c :: cs)).map fun (n, cs) => (Value.number n, cs) := by
  have other : ∀ ds : List Char, (∀ d ∈ ds, d ≠ '-' ∧ d.isDigit = false) → c ∉ ds := by
    intro ds others isIn
    rcases kind with rfl | digit
    · exact (others _ isIn).1 rfl
    · rw [(others _ isIn).2] at digit
      cases digit
  exact readValue_else (other _ (by simp)) (.inr (other _ (by simp))) cs

theorem readNumber_none {c : Char} (noSign : c ≠ '-') (noDigit : c.isDigit = false) (cs : Rest) :
    readNumber (c :: cs) = none := by
  have digits : takeDigits ([] ++ c :: cs) = ([], c :: cs) :=
    takeDigits_append (fun _ isIn => nomatch isIn) fun d isFirst => by
      obtain rfl := Option.some.inj isFirst
      exact noDigit
  have noSign' : (c :: cs).head? ≠ some '-' := fun sign => noSign (Option.some.inj sign)
  rw [List.nil_append] at digits
  rw [readNumber_unsigned noSign', readUnsigned, digits]
  rfl

/-- A comma or a closing bracket is no value. -/
theorem readValue_mark (depth : Nat) {c : Char} (mark : c = ',' ∨ c = ']' ∨ c = '\x7d')
    (cs : Rest) : readValue depth (c :: cs) = none := by
  rcases mark with rfl | rfl | rfl <;>
    rw [readValue_else (by decide) (.inr (by decide)), readNumber_none (by decide) (by decide),
      Option.map_none]

/-- Brackets that nest too deep are not read. -/
theorem readValue_deep {depth : Nat} (deep : depth < 2) (b : Bracket) (cs : Rest) :
    readValue depth (b.opening :: cs) = none := by
  cases b <;>
    rw [Bracket.opening, readValue_else (by decide) (.inl deep),
      readNumber_none (by decide) (by decide), Option.map_none]

theorem expect_append (word : List Char) (cs : Rest) : expect word (word ++ cs) = some cs := by
  induction word with
  | nil => rfl
  | cons c word ih => rw [List.cons_append, expect, if_pos rfl, ih]

/-- An atom is read from its own text, whatever follows it. -/
theorem readValue_atom (depth : Nat) (a : Atom) {cs : Rest} (stops : Stops cs) :
    readValue depth (a.text ++ cs) = a.value?.map (·, cs) := by
  match a with
  | .null =>
    have start : Atom.null.text ++ cs = 'n' :: ("ull".toList ++ cs) := rfl
    rw [start, readValue, expect_append]
    rfl
  | .bool true =>
    have start : (Atom.bool true).text ++ cs = 't' :: ("rue".toList ++ cs) := rfl
    rw [start, readValue, expect_append]
    rfl
  | .bool false =>
    have start : (Atom.bool false).text ++ cs = 'f' :: ("alse".toList ++ cs) := rfl
    rw [start, readValue, expect_append]
    rfl
  | .string ps =>
    rw [Atom.text_string, readValue, readString_append, Atom.value?, Option.map_map, Option.map_map]
    rfl
  | .number n =>
    obtain ⟨c, more, first, kind⟩ := n.exists_first
    have read := readNumber_append n stops
    rw [first, List.cons_append] at read
    rw [Atom.text, first, List.cons_append, readValue_number depth kind, read, Atom.value?,
      Option.map_map, Option.map_map]
    rfl

/-! ## Lists in brackets -/

section Brackets

variable {α β : Type} {item : Rest → Option (β × Rest)} {tokensOf : α → List Token}
  {valueOf : α → Option β}

/-- A reader of items that gives their values from texts with blanks between the tokens, and
nothing when there is a trailing comma. -/
def Reads (item : Rest → Option (β × Rest)) (tokensOf : α → List Token)
    (valueOf : α → Option β) : Prop :=
  ∀ (a : α) (ps : List Piece) (cs : Rest), (∀ p ∈ ps, p.IsBlank) → ps.map Piece.token = tokensOf a →
    Stops cs → item (skipSpace (piecesText ps ++ cs)) =
      if ps.any Piece.hasComma then none else (valueOf a).map (·, cs)

/-- A reader of items that does not take marks for items. -/
def Refuses (item : Rest → Option (β × Rest)) : Prop :=
  ∀ (c : Char), c = ',' ∨ c = ']' ∨ c = '\x7d' → ∀ cs, item (c :: cs) = none

theorem Bracket.closing_mark (b : Bracket) :
    b.closing = ',' ∨ b.closing = ']' ∨ b.closing = '\x7d' := by
  cases b
  · exact .inr (.inl rfl)
  · exact .inr (.inr rfl)

theorem Bracket.closing_ne_comma (b : Bracket) : ',' ≠ b.closing := by cases b <;> decide

/-- What is done behind an item: a closing mark ends the list, and a comma leads to another item. -/
def afterItem (close : Char) (item : Rest → Option (β × Rest)) (fuel : Nat) (acc : List β) :
    Rest → Option (List β × Rest)
  | c :: cs =>
    if c = close then some (acc.reverse, cs)
    else if c = ',' then itemsUntil close item fuel cs acc
    else none
  | [] => none

/-- One item is read, and what follows it decides how to go on. -/
theorem itemsUntil_step (reads : Reads item tokensOf valueOf) {a : α} {ps qs : List Piece}
    {cs : Rest} (blank : ∀ p ∈ ps, p.IsBlank) (tokens : ps.map Piece.token = tokensOf a)
    (stops : Stops (piecesText qs ++ cs)) (close : Char) (fuel : Nat) (acc : List β) :
    itemsUntil close item (fuel + 1) (piecesText (ps ++ qs) ++ cs) acc =
      if ps.any Piece.hasComma then none
      else (valueOf a).bind fun v =>
        afterItem close item fuel (v :: acc) (skipSpace (piecesText qs ++ cs)) := by
  rw [itemsUntil, piecesText_append, List.append_assoc, reads a ps _ blank tokens stops]
  by_cases comma : ps.any Piece.hasComma
  · rw [if_pos comma, if_pos comma]
  · rw [if_neg comma, if_neg comma]
    cases valueOf a with
    | none => rfl
    | some v =>
      simp only [Option.map_some, Option.bind_some]
      cases skipSpace (piecesText qs ++ cs) <;> rfl

/-- A closing bracket ends a list, unless a trailing comma stands before it. -/
theorem afterItem_closing (refuses : Refuses item) {b : Bracket} {q : Piece} (blank : q.IsBlank)
    (isClosing : q.token = .closing b) (fuel : Nat) (acc : List β) (cs : Rest) :
    afterItem b.closing item fuel acc (skipSpace (q.text ++ cs)) =
      if q.hasComma then none else some (acc.reverse, cs) := by
  match comma : q.trailing with
  | none =>
    have plain : q.hasComma = false := by rw [Piece.hasComma, comma]; rfl
    rw [skipSpace_piece blank comma, isClosing, plain]
    exact if_pos rfl
  | some behind =>
    have kept : q.hasComma = true := by rw [Piece.hasComma, comma]; rfl
    rw [skipSpace_comma blank comma, isClosing, kept, afterItem, if_neg b.closing_ne_comma,
      if_pos rfl, if_pos rfl]
    -- Behind the comma an item is looked for, and the bracket is none.
    cases fuel with
    | zero => rfl
    | succ fuel =>
      rw [itemsUntil, skipSpace_fillers (blank.2 behind comma), skipSpace_token]
      exact (refuses _ b.closing_mark cs).symm ▸ rfl

/-- A comma leads to another item. -/
theorem afterItem_comma (b : Bracket) {q : Piece} (blank : q.IsBlank) (isComma : q.token = .comma)
    (fuel : Nat) (acc : List β) (cs : Rest) :
    afterItem b.closing item fuel acc (skipSpace (q.text ++ cs)) =
      itemsUntil b.closing item fuel cs acc := by
  have plain : q.trailing = none := Piece.trailing_eq_none (by rw [isComma]; rfl)
  rw [skipSpace_piece blank plain, isComma, Token.text, List.cons_append, List.nil_append,
    afterItem, if_neg b.closing_ne_comma, if_pos rfl]

theorem mapM_cons_option (f : α → Option β) (a : α) (as : List α) :
    (a :: as).mapM f = (f a).bind fun b => (as.mapM f).map (b :: ·) := by
  rw [List.mapM_cons]
  cases f a with
  | none => rfl
  | some b => cases as.mapM f <;> rfl

/-- The items behind an opening bracket are read up to the closing one. -/
theorem itemsUntil_pieces (reads : Reads item tokensOf valueOf) (refuses : Refuses item)
    (b : Bracket) (a : α) (as : List α) (ps : List Piece) (cs : Rest)
    (blank : ∀ p ∈ ps, p.IsBlank)
    (tokens : ps.map Piece.token =
      tokensOf a ++ ((as.flatMap fun a => .comma :: tokensOf a) ++ [.closing b]))
    (fuel : Nat) (enough : as.length ≤ fuel) (acc : List β) :
    itemsUntil b.closing item (fuel + 1) (piecesText ps ++ cs) acc =
      if ps.any Piece.hasComma then none
      else ((a :: as).mapM valueOf).map fun vs => (acc.reverse ++ vs, cs) := by
  induction as generalizing a ps fuel acc with
  | nil =>
    obtain ⟨ps, qs, rfl, ofItem, ofRest⟩ := List.map_eq_append_iff.mp tokens
    obtain ⟨q, qs, rfl, isClosing, none⟩ := List.map_eq_cons_iff.mp ofRest
    obtain rfl := List.map_eq_nil_iff.mp none
    have blankQ : q.IsBlank := blank q (by simp)
    have stops : Stops (piecesText [q] ++ cs) := by
      rw [piecesText_cons]
      exact stops_piece blankQ (.inr ⟨b, isClosing⟩) _
    rw [itemsUntil_step reads (fun p isIn => blank p (List.mem_append_left _ isIn)) ofItem stops,
      piecesText_cons, List.any_append, mapM_cons_option]
    simp only [afterItem_closing refuses blankQ isClosing, List.any_cons, List.any_nil,
      Bool.or_false]
    cases valueOf a <;> cases ps.any Piece.hasComma <;> cases q.hasComma <;> simp [piecesText]
  | cons a' as ih =>
    rw [List.flatMap_cons, List.append_assoc, List.cons_append] at tokens
    obtain ⟨ps, qs, rfl, ofItem, ofRest⟩ := List.map_eq_append_iff.mp tokens
    obtain ⟨q, qs, rfl, isComma, ofItems⟩ := List.map_eq_cons_iff.mp ofRest
    have blankQ : q.IsBlank := blank q (by simp)
    have stops : Stops (piecesText (q :: qs) ++ cs) := by
      rw [piecesText_cons]
      exact stops_piece blankQ (.inl isComma) _
    obtain ⟨fuel, rfl⟩ := Nat.exists_eq_add_one.mpr (Nat.zero_lt_of_lt enough)
    have plain : q.hasComma = false := by
      rw [Piece.hasComma, Piece.trailing_eq_none (by rw [isComma]; rfl)]
      rfl
    have rest := ih a' qs (fun p isIn => blank p (by simp [isIn])) ofItems fuel
      (Nat.le_of_succ_le_succ enough)
    rw [itemsUntil_step reads (fun p isIn => blank p (List.mem_append_left _ isIn)) ofItem stops,
      piecesText_cons, List.any_append, mapM_cons_option]
    simp only [afterItem_comma b blankQ isComma, rest, List.any_cons, plain, Bool.false_or]
    cases valueOf a <;> cases ps.any Piece.hasComma <;> cases qs.any Piece.hasComma <;>
      cases (a' :: as).mapM valueOf <;> simp

theorem Piece.text_ne_nil (p : Piece) : p.text ≠ [] := by
  obtain ⟨c, more, first, -⟩ := p.token.exists_first
  rw [text, first]
  exact List.append_ne_nil_of_right_ne_nil _
    (List.append_ne_nil_of_right_ne_nil _ (List.cons_ne_nil c more))

/-- A text has at least as many characters as items. -/
theorem length_items_le {a : α} {as : List α} {b : Bracket} {ps : List Piece}
    (tokens : ps.map Piece.token =
      tokensOf a ++ ((as.flatMap fun a => .comma :: tokensOf a) ++ [.closing b])) (cs : Rest) :
    as.length ≤ (piecesText ps ++ cs).length := by
  have commas : as.length ≤ (as.flatMap fun a => Token.comma :: tokensOf a).length :=
    length_le_flatMap (fun a => List.cons_ne_nil _ _) as
  have pieces : ps.length ≤ (piecesText ps).length := length_le_flatMap Piece.text_ne_nil ps
  have count := congrArg List.length tokens
  simp only [List.length_map, List.length_append] at count
  rw [List.length_append]
  omega

/-- A list in brackets is read behind its opening bracket. -/
theorem bracketed_pieces (reads : Reads item tokensOf valueOf) (refuses : Refuses item)
    (starts : ∀ a, ∃ k ks, tokensOf a = k :: ks ∧ k.isClosing = false)
    (b : Bracket) (as : List α) (ps : List Piece) (cs : Rest) (blank : ∀ p ∈ ps, p.IsBlank)
    (tokens : ps.map Piece.token = separated (as.map tokensOf) ++ [.closing b]) :
    bracketed b.closing item (piecesText ps ++ cs) =
      if ps.any Piece.hasComma then none else (as.mapM valueOf).map (·, cs) := by
  match as with
  | [] =>
    obtain ⟨q, qs, rfl, isClosing, none⟩ := List.map_eq_cons_iff.mp tokens
    obtain rfl := List.map_eq_nil_iff.mp none
    have blankQ : q.IsBlank := blank q List.mem_cons_self
    rw [List.any_cons, List.any_nil, Bool.or_false, piecesText_cons, bracketed]
    match comma : q.trailing with
    | .none =>
      have plain : q.hasComma = false := by rw [Piece.hasComma, comma]; rfl
      rw [skipSpace_piece blankQ comma, isClosing, plain]
      exact if_pos rfl
    | some behind =>
      have kept : q.hasComma = true := by rw [Piece.hasComma, comma]; rfl
      rw [skipSpace_comma blankQ comma, kept, if_pos rfl]
      simp only [if_neg b.closing_ne_comma, itemsUntil, skipSpace_comma blankQ comma,
        refuses ',' (.inl rfl)]
  | a :: as =>
    rw [List.map_cons, separated, List.append_assoc, List.flatMap_map] at tokens
    obtain ⟨k, ks, start, notClosing⟩ := starts a
    have items := itemsUntil_pieces reads refuses b a as ps cs blank tokens _
      (length_items_le tokens cs) []
    rw [start, List.cons_append] at tokens
    obtain ⟨p, qs, rfl, isFirst, -⟩ := List.map_eq_cons_iff.mp tokens
    obtain ⟨c, more, first, leads⟩ := k.exists_first
    have other : c ≠ b.closing := by
      rintro rfl
      have := leads.closes
      rw [notClosing] at this
      cases b <;> cases this
    have plain : p.trailing = none := Piece.trailing_eq_none (by rw [isFirst, notClosing])
    have shown : skipSpace (piecesText (p :: qs) ++ cs) = c :: (more ++ (piecesText qs ++ cs)) := by
      rw [piecesText_cons, skipSpace_piece (blank p List.mem_cons_self) plain, isFirst, first]
      rfl
    rw [bracketed, shown]
    exact (if_neg other).trans items

end Brackets

/-! ## Trees -/

theorem refuses_readValue (depth : Nat) : Refuses (readValue depth) :=
  fun _ mark cs => readValue_mark depth mark cs

theorem refuses_readField {α : Type} (value : Rest → Option (α × Rest)) :
    Refuses (readField value) := by
  rintro c (rfl | rfl | rfl) cs <;> rfl

theorem Tree.exists_start (t : Tree) : ∃ k ks, t.tokens = k :: ks ∧ k.isClosing = false := by
  cases t with
  | atom a => exact ⟨_, _, rfl, rfl⟩
  | array items => exact ⟨_, _, rfl, rfl⟩
  | object fields => exact ⟨_, _, rfl, rfl⟩

/-- A key, a colon and a value are read as a field. -/
theorem reads_readField {depth : Nat}
    (reads : Reads (readValue depth) Tree.tokens (Tree.value? depth)) :
    Reads (readField (readValue depth)) Tree.tokensOfField
      (Tree.fieldValue? (Tree.value? depth)) := by
  intro (key, t) ps cs blank tokens stops
  obtain ⟨p, qs, rfl, isKey, rest⟩ := List.map_eq_cons_iff.mp tokens
  obtain ⟨q, qs, rfl, isColon, ofValue⟩ := List.map_eq_cons_iff.mp rest
  have plainP : p.trailing = none := Piece.trailing_eq_none (by rw [isKey]; rfl)
  have plainQ : q.trailing = none := Piece.trailing_eq_none (by rw [isColon]; rfl)
  have value := reads t qs cs (fun r isIn => blank r (by simp [isIn])) ofValue stops
  have colon : skipSpace (piecesText (q :: qs) ++ cs) = ':' :: (piecesText qs ++ cs) := by
    rw [piecesText_cons, skipSpace_piece (blank q (by simp)) plainQ, isColon]
    rfl
  have commas : (p :: q :: qs).any Piece.hasComma = qs.any Piece.hasComma := by
    simp [Piece.hasComma, plainP, plainQ]
  rw [piecesText_cons, skipSpace_piece (blank p List.mem_cons_self) plainP, isKey, Token.text,
    Atom.text_string, commas, readField, readString_append, Tree.fieldValue?]
  cases StringPart.decode key with
  | none => simp
  | some s =>
    simp only [Option.map_some, colon, value, Option.bind_some]
    cases qs.any Piece.hasComma <;> simp [Function.comp_def]

/-- A piece with an opening bracket shows the bracket first, and leaves the pieces behind it. -/
theorem exists_behind_opening {ps : List Piece} {b : Bracket} {ks : List Token}
    (blank : ∀ p ∈ ps, p.IsBlank) (tokens : ps.map Piece.token = .opening b :: ks) (cs : Rest) :
    ∃ qs, (∀ q ∈ qs, q.IsBlank) ∧ qs.map Piece.token = ks ∧
      ps.any Piece.hasComma = qs.any Piece.hasComma ∧
      skipSpace (piecesText ps ++ cs) = b.opening :: (piecesText qs ++ cs) := by
  obtain ⟨p, qs, rfl, isOpening, rest⟩ := List.map_eq_cons_iff.mp tokens
  have plain : p.trailing = none := Piece.trailing_eq_none (by rw [isOpening]; rfl)
  refine ⟨qs, fun q isIn => blank q (List.mem_cons_of_mem p isIn), rest, ?_, ?_⟩
  · rw [List.any_cons, Piece.hasComma, plain, Option.isSome_none, Bool.false_or]
  · rw [piecesText_cons, skipSpace_piece (blank p List.mem_cons_self) plain, isOpening]
    rfl

/-- A tree is read from any of its texts that has nothing but blanks between the tokens, whatever
follows it; with a trailing comma left in it, it is not read. -/
theorem readValue_pieces (depth : Nat) :
    Reads (readValue depth) Tree.tokens (Tree.value? depth) := by
  intro t ps cs blank tokens stops
  -- Along the depth that the reader has left; the items of a list have one level less.
  match depth, t with
  | _, .atom a =>
    obtain ⟨p, qs, rfl, isAtom, none⟩ := List.map_eq_cons_iff.mp tokens
    obtain rfl := List.map_eq_nil_iff.mp none
    have plain : p.trailing = .none := Piece.trailing_eq_none (by rw [isAtom]; rfl)
    rw [piecesText_cons, skipSpace_piece (blank p List.mem_cons_self) plain, isAtom, List.any_cons,
      Piece.hasComma, plain, Tree.value?]
    exact readValue_atom _ a stops
  | depth + 2, .array items =>
    rw [Tree.tokens, Tree.itemTokens_eq] at tokens
    obtain ⟨qs, blank, tokens, commas, shown⟩ := exists_behind_opening blank tokens cs
    have list := bracketed_pieces (readValue_pieces (depth + 1)) (refuses_readValue _)
      Tree.exists_start .array items qs cs blank tokens
    rw [Bracket.closing] at list
    rw [shown, commas, Bracket.opening, readValue, list, Tree.value?]
    cases qs.any Piece.hasComma <;> simp [Function.comp_def]
  | depth + 2, .object fields =>
    rw [Tree.tokens, Tree.fieldTokens_eq] at tokens
    obtain ⟨qs, blank, tokens, commas, shown⟩ := exists_behind_opening blank tokens cs
    have list := bracketed_pieces (reads_readField (readValue_pieces (depth + 1)))
      (refuses_readField _) (fun field => ⟨_, _, rfl, rfl⟩) .object fields qs cs blank tokens
    rw [Bracket.closing] at list
    rw [shown, commas, Bracket.opening, readValue, list, Tree.value?]
    cases qs.any Piece.hasComma <;> simp [Function.comp_def]
  | 0, .array _ | 1, .array _ | 0, .object _ | 1, .object _ =>
    obtain ⟨qs, -, -, -, shown⟩ := exists_behind_opening blank tokens cs
    rw [shown, readValue_deep (by decide)]
    exact (ite_self _).symm

/-- The value of a text with nothing but blanks between the tokens is that of its tree, unless a
trailing comma is left in it. -/
theorem parse?_pieces (t : Tree) {ps : List Piece} {last : List Filler}
    (blank : ∀ p ∈ ps, p.IsBlank) (tokens : ps.map Piece.token = t.tokens)
    (blankLast : ∀ f ∈ last, f.isBlank) :
    parse? (String.ofList (piecesText ps ++ fillersText last)) =
      if ps.any Piece.hasComma then none else t.value? maxDepth := by
  have stops : Stops (fillersText last) := by
    have := stops_fillers blankLast stops_nil
    rwa [List.append_nil] at this
  have nothing : skipSpace (fillersText last) = [] := by
    have := skipSpace_fillers blankLast []
    rwa [List.append_nil] at this
  rw [parse?, String.toList_ofList, readValue_pieces maxDepth t ps _ blank tokens stops]
  by_cases comma : ps.any Piece.hasComma
  · rw [if_pos comma, if_pos comma]
  · rw [if_neg comma, if_neg comma]
    cases t.value? maxDepth with
    | none => rfl
    | some v => simp only [Option.map_some, nothing, List.isEmpty_nil, if_true]

/-! ## Nothing else is read -/

/-- A piece that is a token with blanks before it. -/
def Piece.IsPlain (p : Piece) : Prop := p.IsBlank ∧ p.hasComma = false

/-- The space at the front of a text, as fillers. -/
theorem exists_fillers (cs : Rest) :
    ∃ fs : List Filler, (∀ f ∈ fs, f.isBlank) ∧ cs = fillersText fs ++ skipSpace cs := by
  induction cs with
  | nil => exact ⟨[], by simp, rfl⟩
  | cons c cs ih =>
    by_cases space : isSpace c = true
    · obtain ⟨fs, blank, whole⟩ := ih
      refine ⟨.blank c space :: fs, List.forall_mem_cons.mpr ⟨rfl, blank⟩, ?_⟩
      rw [skipSpace, List.dropWhile_cons, if_pos space]
      exact congrArg (c :: ·) whole
    · refine ⟨[], by simp, ?_⟩
      rw [skipSpace, List.dropWhile_cons, if_neg space]
      rfl

/-- A token that shows behind space is a piece. -/
theorem exists_piece {k : Token} {cs rest : Rest} (shown : skipSpace cs = k.text ++ rest) :
    ∃ p : Piece, p.IsPlain ∧ p.token = k ∧ cs = p.text ++ rest := by
  obtain ⟨fs, blank, whole⟩ := exists_fillers cs
  refine ⟨⟨fs, none, k, by simp⟩, ⟨⟨blank, by simp⟩, rfl⟩, rfl, ?_⟩
  rw [shown] at whole
  rw [Piece.text, List.append_assoc]
  exact whole

section Yields

variable {α β : Type} {item : Rest → Option (β × Rest)} {tokensOf : α → List Token}

/-- A text with the given tokens, with nothing but blanks between them, is in front of another. -/
def Shows (tokens : List Token) (cs rest : Rest) : Prop :=
  ∃ ps : List Piece, (∀ p ∈ ps, p.IsPlain) ∧ ps.map Piece.token = tokens ∧
    cs = piecesText ps ++ rest

theorem shows_nil (rest : Rest) : Shows [] rest rest := ⟨[], by simp, rfl, rfl⟩

theorem Shows.cons {k : Token} {ks : List Token} {cs more rest : Rest}
    (shown : skipSpace cs = k.text ++ more) (shows : Shows ks more rest) :
    Shows (k :: ks) cs rest := by
  obtain ⟨p, plain, isToken, rfl⟩ := exists_piece shown
  obtain ⟨ps, plains, tokens, rfl⟩ := shows
  refine ⟨p :: ps, List.forall_mem_cons.mpr ⟨plain, plains⟩, ?_, (piecesText_cons p ps rest).symm⟩
  rw [List.map_cons, isToken, tokens]

theorem Shows.append {ks ks' : List Token} {cs more rest : Rest} (shows : Shows ks cs more)
    (shows' : Shows ks' more rest) : Shows (ks ++ ks') cs rest := by
  obtain ⟨ps, plain, tokens, rfl⟩ := shows
  obtain ⟨qs, plain', tokens', rfl⟩ := shows'
  refine ⟨ps ++ qs, List.forall_mem_append.mpr ⟨plain, plain'⟩, ?_, ?_⟩
  · rw [List.map_append, tokens, tokens']
  · rw [piecesText_append, List.append_assoc]

/-- A reader of items that accepts nothing but the tokens of some item. -/
def Yields (item : Rest → Option (β × Rest)) (tokensOf : α → List Token) : Prop :=
  ∀ (cs : Rest) (v : β) (rest : Rest), item (skipSpace cs) = some (v, rest) →
    ∃ a, Shows (tokensOf a) cs rest

theorem exists_items (yields : Yields item tokensOf) (b : Bracket) {fuel : Nat} {cs rest : Rest}
    {acc vs : List β} (read : itemsUntil b.closing item fuel cs acc = some (vs, rest)) :
    ∃ (a : α) (as : List α), Shows
      (tokensOf a ++ ((as.flatMap fun a => .comma :: tokensOf a) ++ [.closing b])) cs rest := by
  induction fuel generalizing cs acc with
  | zero => cases read
  | succ fuel ih =>
    rw [itemsUntil] at read
    split at read
    · cases read
    · next v more one =>
      obtain ⟨a, first⟩ := yields cs v more one
      split at read
      · next c behind shown =>
        split at read
        · next closes =>
          cases read
          rw [closes] at shown
          exact ⟨a, [], first.append (Shows.cons shown (shows_nil rest))⟩
        · split at read
          · next isComma =>
            rw [isComma] at shown
            obtain ⟨a', as, others⟩ := ih read
            refine ⟨a, a' :: as, first.append ?_⟩
            rw [List.flatMap_cons, List.append_assoc, List.cons_append]
            exact .cons shown others
          · cases read
      · cases read

theorem exists_bracketed (yields : Yields item tokensOf) (b : Bracket) {cs rest : Rest}
    {vs : List β} (read : bracketed b.closing item cs = some (vs, rest)) :
    ∃ as : List α, Shows (separated (as.map tokensOf) ++ [.closing b]) cs rest := by
  rw [bracketed] at read
  split at read
  · next c more shown =>
    split at read
    · next closes =>
      cases read
      rw [closes] at shown
      exact ⟨[], .cons shown (shows_nil rest)⟩
    · obtain ⟨a, as, shows⟩ := exists_items yields b read
      refine ⟨a :: as, ?_⟩
      rw [List.map_cons, separated, List.append_assoc, List.flatMap_map]
      exact shows
  · cases read

end Yields

theorem exists_string {cs rest : Rest} {s : String} (read : readString cs = some (s, rest)) :
    ∃ ps, cs = (Token.atom (.string ps)).text ++ rest := by
  unfold readString at read
  split at read
  · obtain ⟨ps, rfl⟩ := exists_parts read
    exact ⟨ps, (Atom.text_string ps rest).symm⟩
  · cases read

theorem yields_readField {depth : Nat} (yields : Yields (readValue depth) Tree.tokens) :
    Yields (readField (readValue depth)) Tree.tokensOfField := by
  intro cs v rest read
  rw [readField] at read
  split at read
  · cases read
  · next key more string =>
    obtain ⟨parts, shown⟩ := exists_string string
    split at read
    · next behind colon =>
      obtain ⟨⟨v, rest⟩, value, same⟩ := Option.map_eq_some_iff.mp read
      obtain rfl := (Prod.mk.inj same).2
      obtain ⟨t, shows⟩ := yields _ _ _ value
      exact ⟨(parts, t), .cons shown (.cons colon shows)⟩
    · cases read

theorem eq_append_of_expect {word cs rest : Rest} (read : expect word cs = some rest) :
    cs = word ++ rest := by
  induction word generalizing cs with
  | nil => exact Option.some.inj read
  | cons c word ih =>
    match cs with
    | [] => cases read
    | d :: cs =>
      rw [expect] at read
      split at read
      · next same => rw [ih read, same, List.cons_append]
      · cases read

/-- What is read as a value are the tokens of a tree. -/
theorem yields_readValue (depth : Nat) : Yields (readValue depth) Tree.tokens := by
  intro cs v rest read
  have atom : ∀ a : Atom, skipSpace cs = a.text ++ rest →
      ∃ t : Tree, Shows t.tokens cs rest := fun a shown =>
    ⟨.atom a, .cons shown (shows_nil rest)⟩
  have word : ∀ (c : Char) (word : List Char) (a : Atom) (more : Rest) (v' : Value),
      a.text = c :: word → skipSpace cs = c :: more →
      (expect word more).map (v', ·) = some (v, rest) → ∃ t : Tree, Shows t.tokens cs rest := by
    intro c word a more v' isWord shown read
    obtain ⟨rest, known, same⟩ := Option.map_eq_some_iff.mp read
    obtain rfl := (Prod.mk.inj same).2
    exact atom a (by rw [shown, isWord, eq_append_of_expect known, List.cons_append])
  rw [readValue.eq_def] at read
  split at read
  · next shown => exact word _ _ .null _ _ rfl shown read
  · next shown => exact word _ _ (.bool true) _ _ rfl shown read
  · next shown => exact word _ _ (.bool false) _ _ rfl shown read
  · next more shown =>
    obtain ⟨⟨s, rest⟩, string, same⟩ := Option.map_eq_some_iff.mp read
    obtain rfl := (Prod.mk.inj same).2
    obtain ⟨ps, whole⟩ := exists_string string
    exact atom (.string ps) (shown.trans whole)
  · next depth more shown =>
    obtain ⟨⟨vs, rest⟩, list, same⟩ := Option.map_eq_some_iff.mp read
    obtain rfl := (Prod.mk.inj same).2
    obtain ⟨items, shows⟩ := exists_bracketed (yields_readValue (depth + 1)) .array list
    refine ⟨.array items, ?_⟩
    rw [Tree.tokens, Tree.itemTokens_eq]
    exact Shows.cons shown shows
  · next depth more shown =>
    obtain ⟨⟨vs, rest⟩, list, same⟩ := Option.map_eq_some_iff.mp read
    obtain rfl := (Prod.mk.inj same).2
    obtain ⟨fields, shows⟩ :=
      exists_bracketed (yields_readField (yields_readValue (depth + 1))) .object list
    refine ⟨.object fields, ?_⟩
    rw [Tree.tokens, Tree.fieldTokens_eq]
    exact Shows.cons shown shows
  · obtain ⟨⟨n, rest⟩, number, same⟩ := Option.map_eq_some_iff.mp read
    obtain rfl := (Prod.mk.inj same).2
    obtain ⟨n, whole⟩ := exists_numeral number
    exact atom (.number n) whole

/-- Every text that is accepted is a text of some tree, with nothing but blanks between the
tokens. -/
theorem exists_spelling {text : String} {v : Value} (read : parse? text = some v) :
    ∃ (t : Tree) (sp : Spelling t), sp.IsJson ∧ sp.text = text := by
  rw [parse?] at read
  split at read
  · next v' rest value =>
    split at read
    · next ends =>
      obtain ⟨t, ps, plain, tokens, whole⟩ := yields_readValue _ _ _ _ value
      obtain ⟨last, blankLast, whole'⟩ := exists_fillers rest
      rw [List.isEmpty_iff.mp ends, List.append_nil] at whole'
      refine ⟨t, ⟨ps, last, none, tokens, by simp⟩, ⟨fun p isIn => (plain p isIn).1,
        fun p isIn => (plain p isIn).2, blankLast, rfl⟩, ?_⟩
      rw [Spelling.text, Spelling.lastText, Option.elim_none, List.append_nil, ← whole', ← whole,
        String.ofList_toList]
    · cases read
  · cases read

/-- The value of a text with nothing but blanks between the tokens is that of its tree. -/
theorem Spelling.IsJson.parse?_text {t : Tree} {sp : Spelling t} (json : sp.IsJson) :
    parse? sp.text = t.value? maxDepth := by
  have plain : sp.pieces.any Piece.hasComma = false := by
    simpa only [List.any_eq_false, Bool.not_eq_true] using json.plain
  rw [text, lastText, json.closed, Option.elim_none, List.append_nil,
    parse?_pieces t json.blank sp.tokens_eq json.blankLast, plain]
  rfl

/-- A text has a value just if it is a text of a tree, with nothing but blanks between the tokens,
and the tree has that value. -/
theorem parse?_eq_some_iff {text : String} {v : Value} :
    parse? text = some v ↔
      ∃ (t : Tree) (sp : Spelling t), sp.IsJson ∧ sp.text = text ∧ t.value? maxDepth = some v := by
  constructor
  · intro read
    obtain ⟨t, sp, json, rfl⟩ := exists_spelling read
    exact ⟨t, sp, json, rfl, json.parse?_text.symm.trans read⟩
  · rintro ⟨t, sp, json, rfl, value⟩
    exact json.parse?_text.trans value

end ModuleAtlas.Json
