import ModuleAtlas.Json.Comments
import ModuleAtlas.Proofs.JsonSpelling
import ModuleAtlas.Resolution.Location

/-!
# Comments and trailing commas

What is left of a text without its comments is again a text of the same tree (`Spelling.strip`,
`plainJson_text`): a line comment leaves the end of its line, a block comment leaves nothing, and a
trailing comma goes when there are only blanks behind it. A trailing comma with a comment behind it
stays, and the reader does not accept it (`parse?_plainJson`).
-/

namespace ModuleAtlas.Json

/-! ## What is left -/

namespace Filler

/-- What is left of a filler. -/
def strip : Filler → List Filler
  | blank c space => [blank c space]
  | line _ _ => [blank '\n' rfl]
  | block _ _ => []

theorem isBlank_of_mem_strip {f g : Filler} (isIn : g ∈ f.strip) : g.isBlank := by
  cases f with
  | blank c space => rw [List.mem_singleton.mp isIn]; rfl
  | line comment unbroken => rw [List.mem_singleton.mp isIn]; rfl
  | block comment inside => cases isIn

end Filler

/-- What is left of fillers. -/
def stripFillers (fs : List Filler) : List Filler := fs.flatMap Filler.strip

theorem isBlank_of_mem_stripFillers {fs : List Filler} {g : Filler} (isIn : g ∈ stripFillers fs) :
    g.isBlank := by
  obtain ⟨f, -, isIn⟩ := List.mem_flatMap.mp isIn
  exact Filler.isBlank_of_mem_strip isIn

theorem stripFillers_of_blank {fs : List Filler} (blank : ∀ f ∈ fs, f.isBlank) :
    stripFillers fs = fs := by
  induction fs with
  | nil => rfl
  | cons f fs ih =>
    obtain ⟨isBlank, others⟩ := List.forall_mem_cons.mp blank
    match f, isBlank with
    | .blank c space, _ => exact congrArg (.blank c space :: ·) (ih others)

namespace Piece

/-- Whether a comment stands between a trailing comma and the bracket. -/
def hidesComma (p : Piece) : Bool := p.trailing.any fun behind => !behind.all Filler.isBlank

/-- What is left of a piece: a trailing comma goes unless a comment stands behind it. -/
def strip (p : Piece) : Piece where
  gap := stripFillers (if p.hidesComma then p.gap else p.gap ++ p.trailing.getD [])
  trailing := if p.hidesComma then p.trailing.map stripFillers else none
  token := p.token
  closes comma := p.closes (by
    split at comma
    · rwa [Option.isSome_map] at comma
    · cases comma)

theorem isBlank_strip (p : Piece) : p.strip.IsBlank := by
  refine ⟨fun f isIn => isBlank_of_mem_stripFillers isIn, fun behind isTrailing f isIn => ?_⟩
  rw [strip] at isTrailing
  split at isTrailing
  · obtain ⟨fs, -, rfl⟩ := Option.map_eq_some_iff.mp isTrailing
    exact isBlank_of_mem_stripFillers isIn
  · cases isTrailing

theorem hasComma_strip (p : Piece) : p.strip.hasComma = p.hidesComma := by
  change (if p.hidesComma then p.trailing.map stripFillers else none).isSome = p.hidesComma
  cases hides : p.hidesComma with
  | false => rfl
  | true =>
    match comma : p.trailing with
    | none => rw [hidesComma, comma] at hides; cases hides
    | some behind => rfl

theorem text_strip_of_none {p : Piece} (none : p.trailing = .none) :
    p.strip.text = fillersText (stripFillers p.gap) ++ p.token.text := by
  have shown : p.hidesComma = false := by rw [hidesComma, none]; rfl
  simp only [text, strip, shown, none, Bool.false_eq_true, if_false, Option.getD_none,
    List.append_nil, trailingText, List.nil_append]

theorem text_strip_of_some {p : Piece} {behind : List Filler} (comma : p.trailing = some behind) :
    p.strip.text = fillersText (stripFillers p.gap) ++
      ((if behind.all Filler.isBlank then [] else [',']) ++
        (fillersText (stripFillers behind) ++ p.token.text)) := by
  have hides : p.hidesComma = !behind.all Filler.isBlank := by rw [hidesComma, comma]; rfl
  cases blank : behind.all Filler.isBlank <;>
    simp [text, strip, hides, comma, blank, trailingText, fillersText, stripFillers]

theorem text_strip_of_plain {p : Piece} (plain : p.IsPlain) : p.strip.text = p.text := by
  have none : p.trailing = none := Option.not_isSome_iff_eq_none.mp (Bool.not_eq_true _ ▸ plain.2)
  rw [text_strip_of_none none, stripFillers_of_blank plain.1.1, text, none]
  rfl

end Piece

/-! ## Comments -/

theorem plainFrom_lineComment {comment : List Char} (unbroken : '\n' ∉ comment) (cs : List Char) :
    plainFrom .lineComment (comment ++ cs) = plainFrom .lineComment cs := by
  induction comment with
  | nil => rfl
  | cons c comment ih =>
    obtain ⟨other, unbroken⟩ := not_or.mp (List.mem_cons.not.mp unbroken)
    rw [List.cons_append, plainFrom, if_neg (Ne.symm other), ih unbroken]

/-- A block comment ends at its first star with a slash behind it. A star before the comment's
text does not count when that does not start with a slash. -/
theorem plainFrom_blockComment {comment : List Char} (inside : ¬ ['*', '/'] <:+: comment)
    (star : Bool) (apart : star → comment.head? ≠ some '/') (cs : List Char) :
    plainFrom (.blockComment star) (comment ++ '*' :: '/' :: cs) = plainFrom .code cs := by
  -- Along the comment; the machine only remembers whether the last character was a star.
  induction comment generalizing star with
  | nil =>
    rw [List.nil_append, plainFrom, plainFrom]
    cases star <;> rfl
  | cons c comment ih =>
    have open' : ¬ (star && c == '/') := by
      rw [Bool.and_eq_true, beq_iff_eq]
      rintro ⟨behind, rfl⟩
      exact apart behind rfl
    have apart' : (c == '*') → comment.head? ≠ some '/' := by
      intro isStar slash
      obtain ⟨more, rfl⟩ := List.head?_eq_some_iff.mp slash
      rw [beq_iff_eq.mp isStar] at inside
      exact inside ⟨[], more, rfl⟩
    have inside' : ¬ ['*', '/'] <:+: comment := fun within =>
      inside (within.trans (List.suffix_cons c comment).isInfix)
    rw [List.cons_append, plainFrom, if_neg open', ih inside' _ apart']

/-- A character that neither starts a string or a comment nor is a comma is kept. -/
theorem plainFrom_quiet {c : Char} (quiet : c ∉ ['"', '/', ',']) (cs : List Char) :
    plainFrom .code (c :: cs) = c :: plainFrom .code cs := by
  simp only [List.mem_cons, List.not_mem_nil, or_false, not_or] at quiet
  rw [plainFrom, if_neg quiet.1, if_neg (fun slash => quiet.2.1 slash.1),
    if_neg (fun slash => quiet.2.1 slash.1), if_neg (fun comma => quiet.2.2 comma.1)]

theorem plainFrom_filler (f : Filler) (cs : List Char) :
    plainFrom .code (f.text ++ cs) = fillersText f.strip ++ plainFrom .code cs := by
  cases f with
  | blank c space =>
    refine plainFrom_quiet ?_ cs
    rcases isSpace_cases space with rfl | rfl | rfl | rfl <;> decide
  | line comment unbroken =>
    have start : plainFrom .code ((Filler.line comment unbroken).text ++ cs) =
        plainFrom .lineComment (comment ++ '\n' :: cs) := by
      rw [Filler.text, List.cons_append, List.cons_append, List.append_assoc]
      rfl
    rw [start, plainFrom_lineComment unbroken]
    rfl
  | block comment inside =>
    have start : plainFrom .code ((Filler.block comment inside).text ++ cs) =
        plainFrom (.blockComment false) (comment ++ '*' :: '/' :: cs) := by
      rw [Filler.text, List.cons_append, List.cons_append, List.append_assoc]
      rfl
    rw [start, plainFrom_blockComment inside false (by simp)]
    rfl

theorem plainFrom_fillers (fs : List Filler) (cs : List Char) :
    plainFrom .code (fillersText fs ++ cs) =
      fillersText (stripFillers fs) ++ plainFrom .code cs := by
  induction fs with
  | nil => rfl
  | cons f fs ih =>
    rw [fillersText, List.flatMap_cons, List.append_assoc, plainFrom_filler, stripFillers,
      List.flatMap_cons, fillersText, fillersText, List.flatMap_append, List.append_assoc]
    exact congrArg _ ih

/-! ## Tokens -/

theorem plainFrom_quietText {text : List Char} (quiet : ∀ c ∈ text, c ∉ ['"', '/', ','])
    (cs : List Char) : plainFrom .code (text ++ cs) = text ++ plainFrom .code cs := by
  induction text with
  | nil => rfl
  | cons c text ih =>
    obtain ⟨first, quiet⟩ := List.forall_mem_cons.mp quiet
    rw [List.cons_append, plainFrom_quiet first, ih quiet, List.cons_append]

section Strings

variable (cs : List Char)

theorem plainFrom_string {c : Char} (noQuote : c ≠ '"') (noBackslash : c ≠ '\\') :
    plainFrom .string (c :: cs) = c :: plainFrom .string cs := by
  rw [plainFrom, if_neg noBackslash, if_neg noQuote]

theorem plainFrom_escape (c : Char) :
    plainFrom .string ('\\' :: c :: cs) = '\\' :: c :: plainFrom .string cs := rfl

/-- A hexadecimal digit neither ends a string nor starts an escape. -/
theorem plainFrom_hex {c : Char} {n : Nat} (digit : hexValue c = some n) :
    plainFrom .string (c :: cs) = c :: plainFrom .string cs :=
  plainFrom_string cs (by rintro rfl; cases digit) (by rintro rfl; cases digit)

theorem exists_hexValues {a b c d : Char} {n : Nat} (digits : hex4 [a, b, c, d] = some (n, [])) :
    ∃ a' b' c' d', hexValue a = some a' ∧ hexValue b = some b' ∧ hexValue c = some c' ∧
      hexValue d = some d' := by
  simp only [hex4] at digits
  split at digits
  · exact ⟨_, _, _, _, by assumption, by assumption, by assumption, by assumption⟩
  · cases digits

/-- The parts of a string are kept as they are written. -/
theorem plainFrom_part (p : StringPart) :
    plainFrom .string (p.text ++ cs) = p.text ++ plainFrom .string cs := by
  cases p with
  | plain c free => exact plainFrom_string cs free.1 free.2.1
  | short c known => exact plainFrom_escape cs c
  | code a b c d n digits =>
    obtain ⟨_, _, _, _, isA, isB, isC, isD⟩ := exists_hexValues digits
    rw [StringPart.text, List.cons_append, List.cons_append, plainFrom_escape]
    simp only [List.cons_append, List.nil_append, plainFrom_hex _ isA, plainFrom_hex _ isB,
      plainFrom_hex _ isC, plainFrom_hex _ isD]

theorem plainFrom_parts (ps : List StringPart) :
    plainFrom .string (partsText ps ++ '"' :: cs) = partsText ps ++ '"' :: plainFrom .code cs := by
  induction ps with
  | nil => rfl
  | cons p ps ih =>
    rw [partsText_cons, List.append_assoc, plainFrom_part, ih, List.append_assoc]

end Strings

/-- The characters of a numeral. -/
theorem Numeral.quiet (n : Numeral) : ∀ c ∈ n.text, c ∉ ['"', '/', ','] := by
  have digit : ∀ c : Char, c.isDigit → c ∉ ['"', '/', ','] := by
    rintro c isDigit isIn
    simp only [List.mem_cons, List.not_mem_nil, or_false] at isIn
    rcases isIn with rfl | rfl | rfl <;> cases isDigit
  have exponent : ∀ c ∈ exponentText n.exponent, c ∉ ['"', '/', ','] := by
    cases n.exponent with
    | none => exact fun c isIn => absurd isIn List.not_mem_nil
    | some x =>
      refine List.forall_mem_cons.mpr ⟨?_, List.forall_mem_append.mpr ⟨?_, ?_⟩⟩
      · rcases x.isMark with mark | mark <;> rw [mark] <;> decide
      · rcases x.sign with _ | _ | _ <;> simp [signText]
      · exact fun c isIn => digit c (x.areDigits c isIn)
  have fraction : ∀ c ∈ fractionText n.fraction, c ∉ ['"', '/', ','] := by
    rw [fractionText]
    split
    · exact fun c isIn => absurd isIn List.not_mem_nil
    · exact List.forall_mem_cons.mpr ⟨by decide, fun c isIn => digit c (n.fractionDigits c isIn)⟩
  have sign : ∀ c ∈ (if n.negative then ['-'] else []), c ∉ ['"', '/', ','] := by
    cases n.negative <;> simp
  exact List.forall_mem_append.mpr ⟨sign, List.forall_mem_append.mpr
    ⟨fun c isIn => digit c (n.wholeDigits c isIn), List.forall_mem_append.mpr ⟨fraction, exponent⟩⟩⟩

/-- Every token but a comma is kept, whatever follows it. -/
theorem plainFrom_token {k : Token} (other : k ≠ .comma) (cs : List Char) :
    plainFrom .code (k.text ++ cs) = k.text ++ plainFrom .code cs := by
  match k with
  | .comma => exact absurd rfl other
  | .atom .null => exact plainFrom_quietText (by simp [Token.text, Atom.text]) cs
  | .atom (.bool true) => exact plainFrom_quietText (by simp [Token.text, Atom.text]) cs
  | .atom (.bool false) => exact plainFrom_quietText (by simp [Token.text, Atom.text]) cs
  | .atom (.number n) => exact plainFrom_quietText n.quiet cs
  | .atom (.string ps) =>
    rw [Token.text, Atom.text_string, Atom.text_string]
    exact congrArg ('"' :: ·) (plainFrom_parts cs ps)
  | .opening .array | .opening .object | .closing .array | .closing .object | .colon =>
    exact plainFrom_quietText (by simp [Token.text, Bracket.opening, Bracket.closing]) cs

/-- A comma is kept unless a closing bracket comes next. -/
theorem plainFrom_comma (cs : List Char) :
    plainFrom .code (',' :: cs) =
      if closesNext cs then plainFrom .code cs else ',' :: plainFrom .code cs := by
  rw [plainFrom, if_neg (by decide), if_neg (by simp), if_neg (by simp)]
  simp only [true_and]

theorem closesNext_blank {c : Char} (blank : Text.isBlank c = true) (cs : List Char) :
    closesNext (c :: cs) = closesNext cs := by
  rw [closesNext, Text.trimFront, List.dropWhile_cons, if_pos blank]
  rfl

theorem closesNext_first {c : Char} (notBlank : Text.isBlank c = false) (cs : List Char) :
    closesNext (c :: cs) = (c == ']' || c == '\x7d') := by
  rw [closesNext, Text.trimFront, List.dropWhile_cons, notBlank, if_neg Bool.false_ne_true]
  split
  · next same => rw [(List.cons.inj same).1]; rfl
  · next same => rw [(List.cons.inj same).1]; rfl
  · next noBracket noBrace =>
    symm
    rw [Bool.or_eq_false_iff, beq_eq_false_iff_ne, beq_eq_false_iff_ne]
    exact ⟨fun same => noBracket cs (same ▸ rfl), fun same => noBrace cs (same ▸ rfl)⟩

/-- A bracket comes next when there are only blanks before it: a comment hides it. -/
theorem closesNext_token (fs : List Filler) (k : Token) (cs : List Char) :
    closesNext (fillersText fs ++ (k.text ++ cs)) = (fs.all Filler.isBlank && k.isClosing) := by
  induction fs with
  | nil =>
    obtain ⟨c, more, first, leads⟩ := k.exists_first
    rw [first, leads.closes]
    exact closesNext_first leads.notBlank _
  | cons f fs ih =>
    rw [fillersText, List.flatMap_cons, List.append_assoc, List.all_cons]
    cases f with
    | blank c space => exact (closesNext_blank (isBlank_of_isSpace space) _).trans ih
    | line comment unbroken => exact closesNext_first rfl _
    | block comment inside => exact closesNext_first rfl _

/-! ## Texts -/

/-- Every comma has a token behind it, and that closes no bracket. -/
def Tidy : List Token → Prop
  | [] => True
  | k :: ks => (k = .comma → ∃ next ∈ ks.head?, next.isClosing = false) ∧ Tidy ks

theorem Tidy.append {ks ks' : List Token} (tidy : Tidy ks) (tidy' : Tidy ks') :
    Tidy (ks ++ ks') := by
  induction ks with
  | nil => exact tidy'
  | cons k ks ih =>
    refine ⟨fun comma => ?_, ih tidy.2⟩
    obtain ⟨next, isNext, other⟩ := tidy.1 comma
    refine ⟨next, ?_, other⟩
    obtain ⟨more, rfl⟩ := List.head?_eq_some_iff.mp isNext
    rfl

theorem tidy_closing (b : Bracket) : Tidy [.closing b] := ⟨nofun, trivial⟩

theorem tidy_flatMap {kss : List (List Token)}
    (each : ∀ ks ∈ kss, Tidy ks ∧ ∃ next ∈ ks.head?, next.isClosing = false) :
    Tidy (kss.flatMap (.comma :: ·)) := by
  induction kss with
  | nil => trivial
  | cons ks kss ih =>
    obtain ⟨⟨tidy, starts⟩, others⟩ := List.forall_mem_cons.mp each
    have first : Tidy (.comma :: ks) := ⟨fun _ => starts, tidy⟩
    exact first.append (ih others)

theorem tidy_separated {kss : List (List Token)}
    (each : ∀ ks ∈ kss, Tidy ks ∧ ∃ next ∈ ks.head?, next.isClosing = false) :
    Tidy (separated kss) := by
  match kss with
  | [] => trivial
  | ks :: kss =>
    obtain ⟨first, others⟩ := List.forall_mem_cons.mp each
    exact first.1.append (tidy_flatMap others)

namespace Tree

theorem exists_head (t : Tree) : ∃ next ∈ t.tokens.head?, next.isClosing = false := by
  obtain ⟨k, ks, start, other⟩ := t.exists_start
  exact ⟨k, by rw [start]; rfl, other⟩

mutual

theorem tidy_tokens (t : Tree) : Tidy t.tokens := by
  match t with
  | .atom a => exact ⟨nofun, trivial⟩
  | .array items => exact ⟨nofun, (tidy_separated (tidy_items items)).append (tidy_closing .array)⟩
  | .object fields =>
    exact ⟨nofun, (tidy_separated (tidy_fields fields)).append (tidy_closing .object)⟩

theorem tidy_items (ts : List Tree) :
    ∀ ks ∈ itemTokens ts, Tidy ks ∧ ∃ next ∈ ks.head?, next.isClosing = false := by
  match ts with
  | [] => exact fun ks isIn => nomatch isIn
  | t :: ts =>
    exact List.forall_mem_cons.mpr ⟨⟨tidy_tokens t, t.exists_head⟩, tidy_items ts⟩

theorem tidy_fields (fs : List (List StringPart × Tree)) :
    ∀ ks ∈ fieldTokens fs, Tidy ks ∧ ∃ next ∈ ks.head?, next.isClosing = false := by
  match fs with
  | [] => exact fun ks isIn => nomatch isIn
  | (key, t) :: fs =>
    exact List.forall_mem_cons.mpr
      ⟨⟨⟨nofun, nofun, tidy_tokens t⟩, .atom (.string key), rfl, rfl⟩, tidy_fields fs⟩

end

end Tree

theorem plainFrom_separating {k : Token} {cs : List Char}
    (separates : k = .comma → closesNext cs = false) :
    plainFrom .code (k.text ++ cs) = k.text ++ plainFrom .code cs := by
  by_cases comma : k = .comma
  · have shown := separates comma
    rw [comma, Token.text, List.cons_append, plainFrom_comma, List.nil_append, shown]
    rfl
  · exact plainFrom_token comma cs

/-- A trailing comma goes, or stays with what is left of the fillers behind it. -/
theorem plainFrom_trailing (behind : List Filler) {k : Token} (closing : k.isClosing)
    (cs : List Char) :
    plainFrom .code (',' :: (fillersText behind ++ (k.text ++ cs))) =
      (if behind.all Filler.isBlank then [] else [',']) ++
        (fillersText (stripFillers behind) ++ (k.text ++ plainFrom .code cs)) := by
  have other : k ≠ .comma := by
    rintro rfl
    cases closing
  rw [plainFrom_comma, closesNext_token, plainFrom_fillers, plainFrom_token other, closing,
    Bool.and_true]
  split
  · rfl
  · rfl

/-- What is left of a piece, when a comma in it does not stand before a bracket. -/
theorem plainFrom_piece (p : Piece) {cs : List Char}
    (separates : p.token = .comma → closesNext cs = false) :
    plainFrom .code (p.text ++ cs) = p.strip.text ++ plainFrom .code cs := by
  match comma : p.trailing with
  | none =>
    rw [Piece.text, Piece.text_strip_of_none comma, comma, trailingText, List.nil_append,
      List.append_assoc, plainFrom_fillers, plainFrom_separating separates, List.append_assoc]
  | some behind =>
    have closing : p.token.isClosing := p.closes (by rw [comma]; rfl)
    rw [Piece.text, Piece.text_strip_of_some comma, comma, List.append_assoc, plainFrom_fillers,
      trailingText, List.cons_append, List.cons_append, List.append_assoc,
      plainFrom_trailing behind closing, List.append_assoc, List.append_assoc, List.append_assoc]

theorem plainFrom_pieces {ps : List Piece} (tidy : Tidy (ps.map Piece.token)) (cs : List Char) :
    plainFrom .code (piecesText ps ++ cs) =
      piecesText (ps.map Piece.strip) ++ plainFrom .code cs := by
  induction ps with
  | nil => rfl
  | cons p ps ih =>
    -- The token behind a comma closes nothing, so the look-ahead leaves the comma alone, with or
    -- without comments between the two.
    have separates : p.token = .comma → closesNext (piecesText ps ++ cs) = false := by
      intro comma
      obtain ⟨next, isNext, other⟩ := tidy.1 comma
      obtain ⟨ks, whole⟩ := List.head?_eq_some_iff.mp isNext
      obtain ⟨q, qs, rfl, isToken, -⟩ := List.map_eq_cons_iff.mp whole
      have plain : q.trailing = none := Piece.trailing_eq_none (by rw [isToken, other])
      rw [piecesText_cons, Piece.text, plain, List.append_assoc]
      refine (closesNext_token q.gap q.token _).trans ?_
      rw [isToken, other, Bool.and_false]
    rw [piecesText_cons, plainFrom_piece p separates, ih tidy.2, List.map_cons, piecesText_cons]

namespace Spelling

variable {t : Tree}

/-- What is left of a spelling. -/
def strip (sp : Spelling t) : Spelling t where
  pieces := sp.pieces.map Piece.strip
  last := stripFillers sp.last
  openComment := none
  tokens_eq := by
    rw [List.map_map]
    exact sp.tokens_eq
  unbroken := nofun

/-- A comment stands between some trailing comma and its bracket. -/
def HidesComma (sp : Spelling t) : Prop := ∃ p ∈ sp.pieces, p.hidesComma

instance (sp : Spelling t) : Decidable sp.HidesComma :=
  inferInstanceAs (Decidable (∃ p ∈ sp.pieces, p.hidesComma))

/-- Just the trailing commas that a comment hides are left. -/
theorem exists_comma_strip_iff (sp : Spelling t) :
    (∃ p ∈ sp.strip.pieces, p.hasComma) ↔ sp.HidesComma := by
  rw [HidesComma, ← List.any_eq_true, ← List.any_eq_true, strip, List.any_map]
  exact Iff.of_eq (congrArg (fun f => sp.pieces.any f = true) (funext Piece.hasComma_strip))

theorem plainFrom_lastText (sp : Spelling t) : plainFrom .code sp.lastText = sp.strip.lastText := by
  rw [lastText, plainFrom_fillers, lastText]
  refine congrArg _ ?_
  cases opened : sp.openComment with
  | none => rfl
  | some comment =>
    have skipped := plainFrom_lineComment (sp.unbroken comment opened) []
    rw [List.append_nil] at skipped
    exact skipped

end Spelling

/-- The text of a spelling without comments and trailing commas is that of what is left of it. -/
theorem plainJson_text {t : Tree} (sp : Spelling t) : plainJson sp.text = sp.strip.text := by
  have tidy : Tidy (sp.pieces.map Piece.token) := by
    rw [sp.tokens_eq]
    exact t.tidy_tokens
  rw [plainJson, Spelling.text, String.toList_ofList, plainFrom_pieces tidy, sp.plainFrom_lastText]
  rfl

/-- Without its comments a text has the value of its tree, unless a comment stands between a
trailing comma and the bracket: then the comma is left, and there is no value. -/
theorem parse?_plainJson {t : Tree} (sp : Spelling t) :
    parse? (plainJson sp.text) = if sp.HidesComma then none else t.value? maxDepth := by
  have blank : ∀ p ∈ sp.strip.pieces, p.IsBlank := by
    intro p isIn
    obtain ⟨q, -, rfl⟩ := List.mem_map.mp isIn
    exact q.isBlank_strip
  have blankLast : ∀ f ∈ sp.strip.last, f.isBlank := fun f isIn => isBlank_of_mem_stripFillers isIn
  have last : sp.strip.lastText = fillersText sp.strip.last := List.append_nil _
  rw [plainJson_text, Spelling.text, last, parse?_pieces t blank sp.strip.tokens_eq blankLast]
  simp only [List.any_eq_true, sp.exists_comma_strip_iff]

/-- A text with nothing but blanks between the tokens is left as it is. -/
theorem Spelling.IsJson.plainJson_text {t : Tree} {sp : Spelling t} (json : sp.IsJson) :
    plainJson sp.text = sp.text := by
  have pieces : piecesText sp.strip.pieces = piecesText sp.pieces := by
    rw [Spelling.strip, piecesText, piecesText, List.flatMap_map]
    exact List.flatMap_congr fun p isIn =>
      p.text_strip_of_plain ⟨json.blank p isIn, json.plain p isIn⟩
  have last : sp.strip.lastText = sp.lastText := by
    rw [lastText, lastText, json.closed, strip, stripFillers_of_blank json.blankLast]
  rw [Json.plainJson_text, text, text, pieces, last]

/-- A text that is accepted is left as it is. -/
theorem plainJson_of_parse? {text : String} {v : Value} (read : parse? text = some v) :
    plainJson text = text := by
  obtain ⟨t, sp, json, rfl, -⟩ := parse?_eq_some_iff.mp read
  exact json.plainJson_text

namespace Spelling

/-- A tree written without anything between its tokens. -/
def bare (t : Tree) : Spelling t where
  pieces := t.tokens.map fun k => ⟨[], none, k, nofun⟩
  last := []
  openComment := none
  tokens_eq := by
    rw [List.map_map]
    exact List.map_id _
  unbroken := nofun

theorem text_bare (t : Tree) : (bare t).text = t.text := by
  rw [text, bare, piecesText, List.flatMap_map, Tree.text]
  exact congrArg String.ofList (List.append_nil _)

theorem isJson_bare (t : Tree) : (bare t).IsJson := by
  have each : ∀ p ∈ (bare t).pieces, p.gap = [] ∧ p.trailing = none := by
    intro p isIn
    obtain ⟨k, -, rfl⟩ := List.mem_map.mp isIn
    exact ⟨rfl, rfl⟩
  refine ⟨fun p isIn => ?_, fun p isIn => ?_, nofun, rfl⟩
  · rw [Piece.IsBlank, (each p isIn).1, (each p isIn).2]
    exact ⟨nofun, nofun⟩
  · rw [Piece.hasComma, (each p isIn).2]
    rfl

end Spelling

/-! ## Aliases -/

open Resolution (Aliases aliasFiles projectAliases)

theorem parse?_treeText (t : Tree) : parse? t.text = t.value? maxDepth := by
  rw [← Spelling.text_bare]
  exact (Spelling.isJson_bare t).parse?_text

theorem plainJson_treeText (t : Tree) : plainJson t.text = t.text := by
  rw [← Spelling.text_bare]
  exact (Spelling.isJson_bare t).plainJson_text

theorem isSome_aliases_treeText (t : Tree) {v : Value} (valid : t.value? maxDepth = some v)
    (root : Path) : (Aliases.parse? t.text root).isSome := by
  rw [Aliases.parse?, Option.isSome_map, plainJson_treeText, parse?_treeText, valid]
  rfl

section Decorated

variable {t : Tree} {sp : Spelling t}

/-- Aliases are read from a text as from its bare tree, unless a comment hides a trailing comma. -/
theorem aliases_text (shown : ¬ sp.HidesComma) (root : Path) :
    Aliases.parse? sp.text root = Aliases.parse? t.text root := by
  rw [Aliases.parse?, Aliases.parse?, parse?_plainJson, if_neg shown, plainJson_treeText,
    parse?_treeText]

theorem aliases_hidden (hidden : sp.HidesComma) (root : Path) :
    Aliases.parse? sp.text root = none := by
  rw [Aliases.parse?, parse?_plainJson, if_pos hidden, Option.map_none]

/-- A configuration that cannot be read gives a project no aliases. -/
theorem projectAliases_of_unreadable {files : ModuleAtlas.Tree} {root file : Path}
    {content : String}
    (first : (aliasFiles.map (root / ·)).find? files.has = some file)
    (holds : files.read? file = some content) (unreadable : Aliases.parse? content root = none) :
    projectAliases files root = { base := root } := by
  unfold projectAliases
  rw [first]
  simp only [holds, Option.bind_some, unreadable, Option.getD_none]

end Decorated

/-- Comments, blanks and trailing commas do not change what a text says, as long as there are only
blanks behind each trailing comma. Neither a text with nothing but blanks between its tokens nor any
other that is accepted is changed. -/
theorem comments_transparent (t : Tree) :
    (∀ sp : Spelling t, ¬ sp.HidesComma →
      parse? (plainJson sp.text) = parse? t.text ∧ parse? t.text = t.value? maxDepth ∧
      ∀ root, Aliases.parse? sp.text root = Aliases.parse? t.text root) ∧
    (∀ sp : Spelling t, sp.IsJson → plainJson sp.text = sp.text) ∧
    ∀ text v, parse? text = some v → plainJson text = text := by
  refine ⟨fun sp shown => ⟨?_, parse?_treeText t, aliases_text shown⟩,
    fun sp json => json.plainJson_text, fun text v read => plainJson_of_parse? read⟩
  rw [parse?_plainJson, if_neg shown, parse?_treeText]

/-- A list with a comment before it that holds a comma and a quote, one before its trailing comma,
a line break behind the comma, and a comment open at the end. -/
def decoratedList : Spelling (.array [.atom .null]) where
  pieces := [⟨[.block [',', '"'] (by decide)], none, .opening .array, nofun⟩,
    ⟨[], none, .atom .null, nofun⟩,
    ⟨[.line ['x'] (by decide)], some [.blank '\n' rfl], .closing .array, fun _ => rfl⟩]
  last := []
  openComment := some [' ', 'e', 'n', 'd']
  tokens_eq := rfl
  unbroken := by simp

theorem comments_transparent_list :
    decoratedList.text = "/*,\"*/[null//x\n,\n]// end" ∧
      parse? (plainJson decoratedList.text) = some (.array [.null]) ∧
      Aliases.parse? decoratedList.text ⟨"/p"⟩ = Aliases.parse? "[null]" ⟨"/p"⟩ ∧
      plainJson (Spelling.bare (.array [.atom .null])).text = "[null]" ∧
      plainJson "[ \"//,]\\\"\" ]" = "[ \"//,]\\\"\" ]" := by
  obtain ⟨decorated, plain, accepted⟩ := comments_transparent (.array [.atom .null])
  obtain ⟨same, value, aliases⟩ := decorated decoratedList (by decide)
  exact ⟨rfl, same.trans (value.trans rfl), aliases _, plain _ (Spelling.isJson_bare _),
    accepted _ (.array [.string "//,]\""]) (by rfl)⟩

/-- A comment hides a trailing comma: the comma is left, and the text is not accepted, just then
among the texts of a tree that has a value. A project whose configuration is such a text has no
aliases. -/
theorem aliases_lost_iff {t : Tree} {v : Value} (valid : t.value? maxDepth = some v)
    (sp : Spelling t) (root : Path) :
    (Aliases.parse? sp.text root = none ↔ sp.HidesComma) ∧
    (sp.HidesComma →
      (plainJson sp.text = sp.strip.text ∧ ∃ p ∈ sp.strip.pieces, p.hasComma) ∧
      ∀ (files : ModuleAtlas.Tree) (file : Path),
        (aliasFiles.map (root / ·)).find? files.has = some file →
        files.read? file = some sp.text → projectAliases files root = { base := root }) := by
  refine ⟨⟨fun lost => ?_, fun hidden => aliases_hidden hidden root⟩, fun hidden =>
    ⟨⟨plainJson_text sp, sp.exists_comma_strip_iff.mpr hidden⟩, fun files file first holds =>
      projectAliases_of_unreadable first holds (aliases_hidden hidden root)⟩⟩
  by_contra shown
  have read := isSome_aliases_treeText t valid root
  rw [← aliases_text shown, lost] at read
  cases read

/-- A list with a comment behind its trailing comma. -/
def hiddenComma : Spelling (.array [.atom .null]) where
  pieces := [⟨[], none, .opening .array, nofun⟩, ⟨[], none, .atom .null, nofun⟩,
    ⟨[], some [.line ['x'] (by decide)], .closing .array, fun _ => rfl⟩]
  last := []
  openComment := none
  tokens_eq := rfl
  unbroken := nofun

theorem aliases_lost_list :
    hiddenComma.text = "[null,//x\n]" ∧ Aliases.parse? hiddenComma.text ⟨"/p"⟩ = none ∧
      plainJson hiddenComma.text = "[null,\n]" ∧
      projectAliases
        ⟨[(["p"], .directory), (["p", "tsconfig.json"], .file (.text hiddenComma.text))]⟩
        ⟨"/p"⟩ = { base := ⟨"/p"⟩ } := by
  have hidden : hiddenComma.HidesComma := by decide
  obtain ⟨lost, after⟩ := aliases_lost_iff (v := .array [.null]) rfl hiddenComma ⟨"/p"⟩
  obtain ⟨left, project⟩ := after hidden
  exact ⟨rfl, lost.mpr hidden, left.1, project _ ⟨"/p/tsconfig.json"⟩ (by decide) (by decide)⟩

/-- An alias with a trailing comma and a comment behind it is lost; without the comma it is not. -/
theorem alias_lost_behind_comment :
    Aliases.parse?
        "\x7b\"compilerOptions\":\x7b\"paths\":\x7b\"@/*\":[\"src/*\"], // x\n\x7d\x7d\x7d"
        ⟨"/p"⟩ = none ∧
      Aliases.parse?
        "\x7b\"compilerOptions\":\x7b\"paths\":\x7b\"@/*\":[\"src/*\"] // x\n\x7d\x7d\x7d"
        ⟨"/p"⟩ = some { entries := [("@", "src")], base := ⟨"/p"⟩ } := by
  decide +kernel

end ModuleAtlas.Json
