import Mathlib.Data.List.Chain
import Mathlib.Data.List.Infix
import Mathlib.Data.String.Basic
import ModuleAtlas.Text.Replace

/-!
# Whole words

A text falls into maximal runs of word characters and of other characters in just one way
(`IsRuns`, `runs_eq_iff`). A name that is a word is replaced run by run, so that neither its
neighbours nor longer words are touched. When the new name is a word as well, the runs of the new
text are the renamed runs of the old one (`IsRuns.renamed`). So renaming can be undone, unless the
new name was there before.

A name that is no word is replaced where it occurs first, and then again in what follows
(`Replaces`, `replaces_iff`). Main statement: `substituteWord_runs`.
-/

namespace ModuleAtlas.Text

/-! ## Runs -/

/-- A division of a text into maximal runs: together they are the text, none is empty, the
characters of each all have the property or all lack it, and neighbours differ in that. -/
structure IsRuns (p : Char → Bool) (cs : List Char) (rs : List (List Char)) : Prop where
  whole : rs.flatten = cs
  nonempty : ∀ r ∈ rs, r ≠ []
  uniform : ∀ r ∈ rs, ∀ c ∈ r, ∀ d ∈ r, p c = p d
  maximal : rs.IsChain fun r s => ∀ c ∈ r, ∀ d ∈ s, p c ≠ p d

section Runs

variable {p : Char → Bool} {c : Char} {cs r : List Char} {rs : List (List Char)}

theorem IsRuns.tail (h : IsRuns p cs (r :: rs)) : IsRuns p rs.flatten rs where
  whole := rfl
  nonempty s member := h.nonempty s (List.mem_cons_of_mem _ member)
  uniform s member := h.uniform s (List.mem_cons_of_mem _ member)
  maximal := h.maximal.tail

/-- The character in front joins the first run or starts one of its own. -/
theorem IsRuns.cons (h : IsRuns p cs rs) : IsRuns p (c :: cs) (consRun p c rs) := by
  match rs, h with
  | [], h =>
    refine ⟨by rw [← h.whole]; rfl, by simp [consRun], ?_, List.isChain_singleton _⟩
    simp [consRun]
  | [] :: rs, h => exact absurd rfl (h.nonempty [] List.mem_cons_self)
  | (d :: r) :: rs, h =>
    have first := h.uniform _ List.mem_cons_self
    rw [consRun]
    split
    · next same =>
      have member : ∀ e ∈ c :: d :: r, p e = p d := by
        intro e isIn
        rcases List.mem_cons.mp isIn with rfl | isIn
        · exact same
        · exact first e isIn d List.mem_cons_self
      refine ⟨by rw [← h.whole]; rfl, ?_, ?_, ?_⟩
      · rintro s (_ | ⟨_, later⟩)
        · exact List.cons_ne_nil _ _
        · exact h.nonempty s (List.mem_cons_of_mem _ later)
      · rintro s (_ | ⟨_, later⟩)
        · exact fun e isIn f isIn' => (member e isIn).trans (member f isIn').symm
        · exact h.uniform s (List.mem_cons_of_mem _ later)
      · refine List.IsChain.imp_head (fun differs e isIn f isIn' => ?_) h.maximal
        rw [member e isIn]
        exact differs d List.mem_cons_self f isIn'
    · next differs =>
      refine ⟨by rw [← h.whole]; rfl, ?_, ?_, ?_⟩
      · rintro s (_ | ⟨_, later⟩)
        · exact List.cons_ne_nil _ _
        · exact h.nonempty s later
      · rintro s (_ | ⟨_, later⟩)
        · simp
        · exact h.uniform s later
      · refine List.isChain_cons_cons.mpr ⟨fun e isIn f isIn' => ?_, h.maximal⟩
        rw [List.mem_singleton.mp isIn, first f isIn' d List.mem_cons_self]
        exact differs

theorem isRuns_runs (p : Char → Bool) (cs : List Char) : IsRuns p cs (runs p cs) := by
  induction cs with
  | nil => exact ⟨rfl, by simp [runs], by simp [runs], List.isChain_nil⟩
  | cons c cs ih => exact ih.cons

/-- A run in front of a text that starts with a character of the other kind. -/
theorem runs_append (nonempty : r ≠ []) (uniform : ∀ c ∈ r, ∀ d ∈ r, p c = p d)
    (differs : ∀ c ∈ r, ∀ d ∈ cs.head?, p c ≠ p d) : runs p (r ++ cs) = r :: runs p cs := by
  induction r with
  | nil => exact absurd rfl nonempty
  | cons c r ih =>
    cases r with
    | nil =>
      cases cs with
      | nil => rfl
      | cons d cs =>
        -- The runs of what follows start with a run that starts with its first character.
        have step : runs p ([c] ++ d :: cs) = consRun p c (runs p (d :: cs)) := rfl
        have other : p c ≠ p d := differs c List.mem_cons_self d rfl
        obtain ⟨whole, nonempty', -, -⟩ := isRuns_runs p (d :: cs)
        rw [step]
        match split : runs p (d :: cs) with
        | [] => rw [split] at whole; cases whole
        | [] :: rs => exact absurd rfl (nonempty' [] (split ▸ List.mem_cons_self))
        | (e :: s) :: rs =>
          rw [split, List.flatten_cons, List.cons_append, List.cons.injEq] at whole
          rw [consRun, if_neg (whole.1 ▸ other)]
    | cons d r =>
      have rest := ih (List.cons_ne_nil _ _)
        (fun e isIn f isIn' => uniform e (List.mem_cons_of_mem _ isIn) f
          (List.mem_cons_of_mem _ isIn'))
        (fun e isIn => differs e (List.mem_cons_of_mem _ isIn))
      have step : runs p (c :: d :: r ++ cs) = consRun p c (runs p (d :: r ++ cs)) := rfl
      rw [step, rest, consRun,
        if_pos (uniform c List.mem_cons_self d (List.mem_cons_of_mem _ List.mem_cons_self))]

/-- A text has one division into maximal runs. -/
theorem runs_eq_iff : runs p cs = rs ↔ IsRuns p cs rs := by
  refine ⟨fun same => same ▸ isRuns_runs p cs, fun h => ?_⟩
  induction rs generalizing cs with
  | nil => rw [← h.whole]; rfl
  | cons r rs ih =>
    have rest := ih h.tail
    have differs : ∀ c ∈ r, ∀ d ∈ rs.flatten.head?, p c ≠ p d := by
      intro c isIn d isFirst
      match rs, h with
      | [], _ => cases isFirst
      | [] :: _, h => exact absurd rfl (h.nonempty [] (by simp))
      | (e :: s) :: rs, h =>
        cases isFirst
        exact (List.isChain_cons_cons.mp h.maximal).1 c isIn d List.mem_cons_self
    rw [← h.whole, List.flatten_cons,
      runs_append (h.nonempty r List.mem_cons_self) (h.uniform r List.mem_cons_self) differs, rest]

end Runs

/-! ## Renaming -/

/-- A run with one name put in the place of another. -/
def renameRun (old new : List Char) (r : List Char) : List Char := if r = old then new else r

section Renaming

variable {cs a b : List Char} {rs : List (List Char)}

theorem isWordChar_iff (c : Char) :
    isWordChar c = true ↔ ('A' ≤ c ∧ c ≤ 'Z') ∨ ('a' ≤ c ∧ c ≤ 'z') ∨ ('0' ≤ c ∧ c ≤ '9') ∨
      c = '_' ∨ c = '$' := by
  have within : ∀ low high : Char,
      (decide (low.val ≤ c.val) && decide (c.val ≤ high.val)) = true ↔ low ≤ c ∧ c ≤ high := by
    intro low high
    rw [Bool.and_eq_true, decide_eq_true_eq, decide_eq_true_eq]
    exact Iff.rfl
  have upper : c.isUpper = true ↔ 'A' ≤ c ∧ c ≤ 'Z' := decide_eq_true_iff
  have kinds : c.isAlphanum = (c.isUpper || c.isLower || c.isDigit) := rfl
  rw [isWordChar, kinds]
  simp only [Bool.or_eq_true, beq_iff_eq, or_assoc]
  exact or_congr upper (or_congr (within 'a' 'z') (or_congr (within '0' '9') Iff.rfl))

/-- A name that is a word. -/
def IsWordName (name : String) : Prop := name ≠ "" ∧ ∀ c ∈ name.toList, isWordChar c = true

theorem isWord_iff : isWord cs = true ↔ cs ≠ [] ∧ ∀ c ∈ cs, isWordChar c = true := by
  simp [isWord]

/-- The characters of a run and of the renamed run are of one kind. -/
theorem isWordChar_renameRun (wordA : isWord a) (wordB : isWord b) {r : List Char}
    (nonempty : r ≠ []) (uniform : ∀ c ∈ r, ∀ d ∈ r, isWordChar c = isWordChar d) :
    ∃ d ∈ r, ∀ c ∈ renameRun a b r, isWordChar c = isWordChar d := by
  obtain ⟨d, isIn⟩ := List.exists_mem_of_ne_nil r nonempty
  refine ⟨d, isIn, fun c isIn' => ?_⟩
  rw [renameRun] at isIn'
  split at isIn'
  · next same =>
    rw [(isWord_iff.mp wordB).2 c isIn', (isWord_iff.mp wordA).2 d (same ▸ isIn)]
  · exact uniform c isIn' d isIn

/-- Renaming a word to a word keeps the runs apart and whole. -/
theorem IsRuns.renamed (h : IsRuns isWordChar cs rs) (wordA : isWord a) (wordB : isWord b) :
    IsRuns isWordChar (rs.map (renameRun a b)).flatten (rs.map (renameRun a b)) where
  whole := rfl
  nonempty s member := by
    obtain ⟨r, isIn, rfl⟩ := List.mem_map.mp member
    rw [renameRun]
    split
    · exact (isWord_iff.mp wordB).1
    · exact h.nonempty r isIn
  uniform s member := by
    obtain ⟨r, isIn, rfl⟩ := List.mem_map.mp member
    obtain ⟨d, -, kind⟩ := isWordChar_renameRun wordA wordB (h.nonempty r isIn) (h.uniform r isIn)
    exact fun e isIn e' isIn' => (kind e isIn).trans (kind e' isIn').symm
  maximal := by
    rw [List.isChain_map]
    refine List.IsChain.imp_of_mem_imp (fun r s isIn isIn' differs e inR e' inS => ?_) h.maximal
    obtain ⟨d, inR', kind⟩ :=
      isWordChar_renameRun wordA wordB (h.nonempty r isIn) (h.uniform r isIn)
    obtain ⟨d', inS', kind'⟩ :=
      isWordChar_renameRun wordA wordB (h.nonempty s isIn') (h.uniform s isIn')
    rw [kind e inR, kind' e' inS]
    exact differs d inR' d' inS'

/-- Renaming back undoes a renaming to a name that was not there. -/
theorem map_renameRun_back (absent : b ∉ rs) :
    (rs.map (renameRun a b)).map (renameRun b a) = rs := by
  have back : ∀ r ∈ rs, renameRun b a (renameRun a b r) = r := by
    intro r isIn
    by_cases same : r = a
    · rw [renameRun, renameRun, if_pos same, if_pos rfl, same]
    · have other : r ≠ b := fun same' => absent (same' ▸ isIn)
      rw [renameRun, renameRun, if_neg same, if_neg other]
  rw [List.map_map]
  calc rs.map (renameRun b a ∘ renameRun a b) = rs.map id := List.map_congr_left back
    _ = rs := List.map_id rs

theorem IsWordName.isWord {name : String} (word : IsWordName name) : isWord name.toList = true :=
  isWord_iff.mpr ⟨fun empty => word.1 (String.toList_eq_nil_iff.mp empty), word.2⟩

theorem toList_substituteWord {text old new : String} (word : IsWordName old) :
    (substituteWord text old new).toList =
      ((runs isWordChar text.toList).map (renameRun old.toList new.toList)).flatten := by
  rw [substituteWord, if_neg (by simpa using word.1), if_pos word.isWord, String.toList_ofList,
    List.flatMap_def]
  rfl

theorem substituteWord_back {text a b : String} (wordA : IsWordName a) (wordB : IsWordName b)
    (absent : b.toList ∉ runs isWordChar text.toList) :
    substituteWord (substituteWord text a b) b a = text := by
  have division := isRuns_runs isWordChar text.toList
  apply String.toList_inj.mp
  rw [toList_substituteWord wordB, toList_substituteWord wordA,
    runs_eq_iff.mpr (division.renamed wordA.isWord wordB.isWord), map_renameRun_back absent,
    division.whole]

end Renaming

/-! ## Replacing every occurrence -/

/-- What becomes of a text when the first occurrence of a part is replaced, and then the first one
in what follows, until there is none. -/
inductive Replaces (old new : List Char) : List Char → List Char → Prop where
  | none {cs : List Char} (absent : ¬ old <:+: cs) : Replaces old new cs cs
  | first {before behind rest : List Char}
      (leftmost : ∀ before' behind', before ++ old ++ behind = before' ++ old ++ behind' →
        before.length ≤ before'.length)
      (further : Replaces old new behind rest) :
      Replaces old new (before ++ old ++ behind) (before ++ new ++ rest)

section Replacing

variable {old new cs : List Char}

/-- The characters of an occurrence that has been replaced are passed over. -/
theorem replaceFrom_skip (passed cs : List Char) :
    replaceFrom old new passed.length (passed ++ cs) = replaceFrom old new 0 cs := by
  induction passed with
  | nil => rfl
  | cons c passed ih =>
    rw [List.length_cons, List.cons_append, replaceFrom]
    exact ih

theorem replaceFrom_of_absent (absent : ¬ old <:+: cs) : replaceFrom old new 0 cs = cs := by
  induction cs with
  | nil => rfl
  | cons c cs ih =>
    have elsewhere : ¬ old.isPrefixOf (c :: cs) :=
      fun here => absent (List.isPrefixOf_iff_prefix.mp here).isInfix
    rw [replaceFrom, if_neg elsewhere,
      ih fun later => absent (later.trans (List.suffix_cons c cs).isInfix)]

theorem replaceFrom_of_leftmost (nonempty : old ≠ []) {before behind : List Char}
    (leftmost : ∀ before' behind', before ++ old ++ behind = before' ++ old ++ behind' →
      before.length ≤ before'.length) :
    replaceFrom old new 0 (before ++ old ++ behind) =
      before ++ new ++ replaceFrom old new 0 behind := by
  induction before with
  | nil =>
    match old, nonempty with
    | o :: old, _ =>
      have here : (o :: old).isPrefixOf (o :: (old ++ behind)) :=
        List.isPrefixOf_iff_prefix.mpr ⟨behind, rfl⟩
      rw [List.nil_append, List.cons_append, replaceFrom, if_pos here, List.length_cons,
        Nat.add_sub_cancel, replaceFrom_skip]
      rfl
  | cons c before ih =>
    have elsewhere : ¬ old.isPrefixOf (c :: (before ++ old ++ behind)) := by
      intro here
      obtain ⟨behind', whole⟩ := List.isPrefixOf_iff_prefix.mp here
      exact absurd (leftmost [] behind' whole.symm) (Nat.not_succ_le_zero _)
    have step := ih fun before' behind' whole => Nat.le_of_succ_le_succ
      (leftmost (c :: before') behind' (congrArg (c :: ·) whole))
    rw [List.cons_append, List.cons_append, replaceFrom, if_neg elsewhere, step]
    rfl

/-- A part that occurs has a leftmost occurrence. -/
theorem exists_leftmost (occurs : old <:+: cs) :
    ∃ before behind, cs = before ++ old ++ behind ∧
      ∀ before' behind', before ++ old ++ behind = before' ++ old ++ behind' →
        before.length ≤ before'.length := by
  induction cs with
  | nil =>
    rw [List.infix_nil] at occurs
    subst occurs
    exact ⟨[], [], rfl, fun _ _ _ => Nat.zero_le _⟩
  | cons c cs ih =>
    by_cases here : old <+: c :: cs
    · obtain ⟨behind, whole⟩ := here
      exact ⟨[], behind, whole.symm, fun _ _ _ => Nat.zero_le _⟩
    · obtain ⟨before, behind, rfl, leftmost⟩ :=
        ih ((List.infix_cons_iff.mp occurs).resolve_left here)
      refine ⟨c :: before, behind, rfl, fun before' behind' whole => ?_⟩
      cases before' with
      | nil => exact absurd ⟨behind', whole.symm⟩ here
      | cons d before' =>
        rw [List.cons_append, List.cons_append, List.cons_append, List.cons_append,
          List.cons.injEq] at whole
        exact Nat.succ_le_succ (leftmost before' behind' whole.2)

theorem exists_replaces (nonempty : old ≠ []) (new cs : List Char) :
    ∃ out, Replaces old new cs out := by
  -- What follows an occurrence is shorter, as the occurrence is not empty.
  induction size : cs.length using Nat.strong_induction_on generalizing cs with
  | _ n ih =>
    by_cases occurs : old <:+: cs
    · obtain ⟨before, behind, rfl, leftmost⟩ := exists_leftmost occurs
      have shorter : behind.length < n := by
        have := List.length_pos_of_ne_nil nonempty
        simp only [List.length_append] at size
        omega
      obtain ⟨rest, further⟩ := ih _ shorter behind rfl
      exact ⟨_, .first leftmost further⟩
    · exact ⟨cs, .none occurs⟩

/-- Replacing from left to right replaces the leftmost occurrences that do not overlap. -/
theorem replaces_iff (nonempty : old ≠ []) {out : List Char} :
    Replaces old new cs out ↔ out = replaceFrom old new 0 cs := by
  have unique : ∀ {cs out}, Replaces old new cs out → out = replaceFrom old new 0 cs := by
    intro cs out replaced
    induction replaced with
    | none absent => rw [replaceFrom_of_absent absent]
    | first leftmost _ ih => rw [replaceFrom_of_leftmost nonempty leftmost, ← ih]
  refine ⟨unique, ?_⟩
  rintro rfl
  obtain ⟨out, replaced⟩ := exists_replaces nonempty new cs
  exact unique replaced ▸ replaced

theorem toList_substituteWord_of_not_isWord {text old new : String} (nonempty : old ≠ "")
    (noWord : isWord old.toList = false) :
    (substituteWord text old new).toList =
      replaceFrom old.toList new.toList 0 text.toList := by
  rw [substituteWord, if_neg (by simpa using nonempty), noWord, if_neg Bool.false_ne_true,
    replaceAll, String.toList_ofList]

end Replacing

/-- What becomes of a text when a name is replaced in it. The text falls into maximal runs in one
way. A name that is a word is replaced where it is a run, and all other runs stay; so one that is
replaced by a word that was no run of the text can be put back. No name changes nothing, and a name
that is no word is replaced wherever it occurs, from left to right. -/
theorem substituteWord_runs (text : String) :
    (∀ c, isWordChar c ↔ ('A' ≤ c ∧ c ≤ 'Z') ∨ ('a' ≤ c ∧ c ≤ 'z') ∨ ('0' ≤ c ∧ c ≤ '9') ∨
      c = '_' ∨ c = '$') ∧
    (∃! rs, IsRuns isWordChar text.toList rs) ∧
    (∀ rs, IsRuns isWordChar text.toList rs →
      (∀ old new : String, IsWordName old → (substituteWord text old new).toList =
        (rs.map fun r => if r = old.toList then new.toList else r).flatten) ∧
      (∀ a b : String, IsWordName a → IsWordName b → b.toList ∉ rs →
        substituteWord (substituteWord text a b) b a = text)) ∧
    (∀ new, substituteWord text "" new = text) ∧
    (∀ old new out : String, (∃ c ∈ old.toList, ¬ isWordChar c) →
      (out = substituteWord text old new ↔
        Replaces old.toList new.toList text.toList out.toList)) := by
  refine ⟨isWordChar_iff, ?_, ?_, fun new => rfl, ?_⟩
  · exact ⟨runs isWordChar text.toList, isRuns_runs _ _, fun rs h => (runs_eq_iff.mpr h).symm⟩
  · intro rs h
    obtain rfl := runs_eq_iff.mpr h
    exact ⟨fun old new word => toList_substituteWord word,
      fun a b wordA wordB absent => substituteWord_back wordA wordB absent⟩
  · rintro old new out ⟨c, isIn, other⟩
    have nonempty : old.toList ≠ [] := List.ne_nil_of_mem isIn
    have noWord : isWord old.toList = false := by
      rw [← Bool.not_eq_true, isWord_iff]
      exact fun word => other (word.2 c isIn)
    rw [replaces_iff nonempty,
      ← toList_substituteWord_of_not_isWord (by simpa using nonempty) noWord, String.toList_inj]

/-- A name is replaced beside longer words that hold it, and can be put back. -/
theorem substituteWord_runs_call :
    IsRuns isWordChar "fooBar(foo, foo_1)".toList
      (["fooBar", "(", "foo", ", ", "foo_1", ")"].map String.toList) ∧
    IsWordName "foo" ∧ IsWordName "x" ∧
    substituteWord "fooBar(foo, foo_1)" "foo" "x" = "fooBar(x, foo_1)" ∧
    substituteWord (substituteWord "fooBar(foo, foo_1)" "foo" "x") "x" "foo" =
      "fooBar(foo, foo_1)" ∧
    (∃ c ∈ "(foo".toList, ¬ isWordChar c) ∧
    Replaces "(foo".toList "".toList "fooBar(foo, foo_1)".toList "fooBar, foo_1)".toList := by
  have division : IsRuns isWordChar "fooBar(foo, foo_1)".toList
      (["fooBar", "(", "foo", ", ", "foo_1", ")"].map String.toList) :=
    runs_eq_iff.mp (by decide +kernel)
  have word : IsWordName "foo" := ⟨by decide, List.all_eq_true.mp (by decide)⟩
  have word' : IsWordName "x" := ⟨by decide, List.all_eq_true.mp (by decide)⟩
  have noWord : ∃ c ∈ "(foo".toList, ¬ isWordChar c := ⟨'(', by decide, by decide⟩
  obtain ⟨-, -, words, -, others⟩ := substituteWord_runs "fooBar(foo, foo_1)"
  obtain ⟨renames, returns⟩ := words _ division
  refine ⟨division, word, word', ?_, returns _ _ word word' (by decide +kernel), noWord, ?_⟩
  · rw [← String.toList_inj, renames _ _ word]
    decide +kernel
  · exact (others _ _ _ noWord).mp (by decide +kernel)

end ModuleAtlas.Text
