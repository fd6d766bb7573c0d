import Mathlib.Data.List.Infix
import ModuleAtlas.Resolution.Lockfile

/-!
# Looking up locked versions

A lockfile is a list of lines: entries `name@version`, which may be indented, quoted, behind a slash
and followed by peers, and other lines without an at sign (`LockLine`). A lookup starts at every
line break and may pass over blanks, line breaks among them, but it gets to the name of the next
entry only through what that entry has in front of its name (`EntryLine.versionOnLine`), and no
further than the first character of another line that is not blank (`versionOnLine_unsigned`). At an
entry it succeeds only with the whole name, since of two package names behind which an at sign
stands neither starts the other (`IsPackageName.eq_of_append`). So it comes to the first entry of
the name (`pinnedVersion_exact`).
-/

namespace ModuleAtlas.Resolution

/-! ## Lockfiles -/

/-- The characters of names, versions and peers. -/
def isInner (c : Char) : Bool := c != ':' && !Text.isBlank c && !isLockQuote c

/-- What a package is called in a lockfile: an at sign stands only in front, a slash never there. -/
structure IsPackageName (name : List Char) : Prop where
  nonempty : name ≠ []
  inner : ∀ c ∈ name, isInner c = true
  noSlash : name.head? ≠ some '/'
  unsigned : '@' ∉ name.tail

instance (name : List Char) : Decidable (IsPackageName name) :=
  decidable_of_iff
    (name ≠ [] ∧ name.all isInner = true ∧ name.head? ≠ some '/' ∧ '@' ∉ name.tail)
    ⟨fun h => ⟨h.1, List.all_eq_true.mp h.2.1, h.2.2.1, h.2.2.2⟩,
      fun h => ⟨h.nonempty, List.all_eq_true.mpr h.inner, h.noSlash, h.unsigned⟩⟩

/-- A package with its locked version and the peers it is locked with. -/
structure LockEntry where
  name : List Char
  version : List Char
  peers : List Char
  isName : IsPackageName name
  locked : version ≠ []
  versionInner : ∀ c ∈ version, isInner c = true
  withoutPeers : '(' ∉ version
  peersInner : ∀ c ∈ peers, isInner c = true
  peersOpen : peers ≠ [] → peers.head? = some '('

/-- An entry as it stands on a line. -/
structure EntryLine where
  entry : LockEntry
  indent : List Char
  opening : Option Char
  slash : Bool
  closing : Option Char
  rest : List Char
  indented : ∀ c ∈ indent, Text.isBlank c = true
  openingQuote : ∀ q ∈ opening, isLockQuote q = true
  closingQuote : ∀ q ∈ closing, isLockQuote q = true
  oneLine : '\n' ∉ indent ∧ '\n' ∉ rest

/-- A line of a lockfile: an entry, or any other without an at sign. -/
inductive LockLine where
  | entry (line : EntryLine)
  | other (text : List Char) (unsigned : '@' ∉ text) (oneLine : '\n' ∉ text)

/-- The text of an entry's line. -/
def EntryLine.text (line : EntryLine) : List Char :=
  line.indent ++ (line.opening.toList ++ ((if line.slash then ['/'] else []) ++
    (line.entry.name ++ '@' :: (line.entry.version ++ line.entry.peers ++
      (line.closing.toList ++ ':' :: line.rest)))))

namespace LockLine

/-- The text of a line. -/
def text : LockLine → List Char
  | entry line => line.text
  | other text _ _ => text

/-- The entry on a line. -/
def entry? : LockLine → Option LockEntry
  | entry line => some line.entry
  | other _ _ _ => none

end LockLine

/-- The text of a lockfile. -/
def lockText (lines : List LockLine) : List Char :=
  List.intercalate ['\n'] (lines.map LockLine.text)

/-! ## Names -/

theorem isLockQuote_iff {c : Char} : isLockQuote c = true ↔ c = '\x27' ∨ c = '"' := by
  simp [isLockQuote]

theorem not_isBlank_of_isLockQuote {c : Char} (isQuote : isLockQuote c = true) :
    Text.isBlank c = false := by
  rcases isLockQuote_iff.mp isQuote with rfl | rfl <;> rfl

theorem IsPackageName.exists_cons {name : List Char} (h : IsPackageName name) :
    ∃ first rest, name = first :: rest ∧ isInner first = true ∧ first ≠ '/' ∧ '@' ∉ rest := by
  cases name with
  | nil => exact absurd rfl h.nonempty
  | cons first rest =>
    refine ⟨first, rest, rfl, h.inner first List.mem_cons_self, ?_, h.unsigned⟩
    rintro rfl
    exact h.noSlash rfl

/-- Texts without a character, in front of that character, are told apart by it. -/
theorem eq_of_append_cons {c : Char} {a b x y : List Char} (left : c ∉ a) (right : c ∉ b)
    (h : a ++ c :: x = b ++ c :: y) : a = b := by
  induction a generalizing b with
  | nil =>
    cases b with
    | nil => rfl
    | cons d b =>
      obtain ⟨rfl, -⟩ := List.cons.inj h
      exact absurd List.mem_cons_self right
  | cons d a ih =>
    cases b with
    | nil =>
      obtain ⟨rfl, -⟩ := List.cons.inj h
      exact absurd List.mem_cons_self left
    | cons e b =>
      obtain ⟨rfl, rest⟩ := List.cons.inj h
      rw [ih (fun inside => left (List.mem_cons_of_mem _ inside))
        (fun inside => right (List.mem_cons_of_mem _ inside)) rest]

/-- Of two names with an at sign behind them neither starts the other. -/
theorem IsPackageName.eq_of_append {a b x y : List Char} (left : IsPackageName a)
    (right : IsPackageName b) (h : a ++ '@' :: x = b ++ '@' :: y) : a = b := by
  obtain ⟨first, rest, rfl, -, -, unsigned⟩ := left.exists_cons
  obtain ⟨first', rest', rfl, -, -, unsigned'⟩ := right.exists_cons
  obtain ⟨rfl, tails⟩ := List.cons.inj h
  rw [eq_of_append_cons unsigned unsigned' tails]

/-! ## At the name of an entry -/

theorem exists_of_versionHere {name cs version : List Char}
    (h : versionHere name cs = some version) : ∃ rest, cs = name ++ '@' :: rest := by
  unfold versionHere at h
  split at h
  · next starts =>
    obtain ⟨behind, rfl⟩ := List.isPrefixOf_iff_prefix.mp starts
    rw [List.drop_left] at h
    split at h
    · next rest => exact ⟨rest, rfl⟩
    · cases h
  · cases h

theorem versionHere_eq_none {name cs : List Char} (h : ∀ rest, cs ≠ name ++ '@' :: rest) :
    versionHere name cs = none := by
  refine Option.eq_none_iff_forall_ne_some.mpr fun version found => ?_
  obtain ⟨rest, whole⟩ := exists_of_versionHere found
  exact h rest whole

/-- A name is not found where the text starts with something else. -/
theorem versionHere_cons {first c : Char} (different : c ≠ first) (rest cs : List Char) :
    versionHere (first :: rest) (c :: cs) = none :=
  versionHere_eq_none fun _ whole => different (List.cons.inj whole).1

namespace LockEntry

variable (e : LockEntry)

theorem versionHere_own {closing : Option Char} (isQuote : ∀ q ∈ closing, isLockQuote q = true)
    (rest : List Char) :
    versionHere e.name
      (e.name ++ '@' :: (e.version ++ e.peers ++ (closing.toList ++ ':' :: rest))) =
        some (e.version ++ e.peers) := by
  have inner : ∀ c ∈ e.version ++ e.peers, isVersionChar c = true := by
    intro c inside
    rcases List.mem_append.mp inside with inside | inside
    · exact e.versionInner c inside
    · exact e.peersInner c inside
  have taken (more : List Char) : (e.version ++ e.peers ++ more).takeWhile isVersionChar =
      e.version ++ e.peers ++ more.takeWhile isVersionChar :=
    List.takeWhile_append_of_pos inner
  have dropped (more : List Char) : (e.version ++ e.peers ++ more).dropWhile isVersionChar =
      more.dropWhile isVersionChar :=
    List.dropWhile_append_of_pos inner
  rw [versionHere, if_pos (List.isPrefixOf_iff_prefix.mpr (List.prefix_append _ _)), List.drop_left]
  simp only [taken, dropped]
  cases closing with
  | none => simp [isVersionChar, e.locked]
  | some q =>
    rcases isLockQuote_iff.mp (isQuote q rfl) with rfl | rfl <;>
      simp [isVersionChar, isLockQuote, e.locked]

/-- At the name of an entry only that name is found. -/
theorem versionHere_name {name : List Char} (isName : IsPackageName name) {closing : Option Char}
    (isQuote : ∀ q ∈ closing, isLockQuote q = true) (rest : List Char) :
    versionHere name
      (e.name ++ '@' :: (e.version ++ e.peers ++ (closing.toList ++ ':' :: rest))) =
        if e.name = name then some (e.version ++ e.peers) else none := by
  split
  · next same => rw [← same, e.versionHere_own isQuote]
  · next different =>
    exact versionHere_eq_none fun rest whole => different (e.isName.eq_of_append isName whole)

end LockEntry

/-! ## From the start of a line -/

/-- Where a name may stand in a text that starts with no blank: behind a quote, a slash or both. -/
def behindSigns (cs : List Char) : List (List Char) :=
  (behindOptional isLockQuote cs).flatMap (behindOptional (· == '/'))

theorem versionOnLine_eq (name cs : List Char) :
    versionOnLine name cs =
      ((behindBlanks cs).flatMap behindSigns).findSome? (versionHere name) := by
  rw [versionOnLine, List.flatMap_assoc]
  rfl

/-- A blank is passed over. -/
theorem versionOnLine_blank {name : List Char} (isName : IsPackageName name) {c : Char}
    (blank : Text.isBlank c = true) (cs : List Char) :
    versionOnLine name (c :: cs) = versionOnLine name cs := by
  obtain ⟨first, rest, rfl, inner, -, -⟩ := isName.exists_cons
  have different : c ≠ first := by
    rintro rfl
    simp [isInner, blank] at inner
  have notQuote : isLockQuote c = false := by
    refine Bool.eq_false_iff.mpr fun isQuote => ?_
    rw [not_isBlank_of_isLockQuote isQuote] at blank
    cases blank
  have notSlash : c ≠ '/' := by
    rintro rfl
    cases blank
  have only : behindSigns (c :: cs) = [c :: cs] := by
    simp [behindSigns, behindOptional, notQuote, notSlash]
  rw [versionOnLine_eq, versionOnLine_eq, behindBlanks, if_pos blank, List.flatMap_append,
    List.findSome?_append, List.flatMap_singleton, only, List.findSome?_singleton,
    versionHere_cons different, Option.or_none]

theorem versionOnLine_blanks {name : List Char} (isName : IsPackageName name) {blanks : List Char}
    (blank : ∀ c ∈ blanks, Text.isBlank c = true) (cs : List Char) :
    versionOnLine name (blanks ++ cs) = versionOnLine name cs := by
  induction blanks with
  | nil => rfl
  | cons c blanks ih =>
    rw [List.cons_append, versionOnLine_blank isName (blank c List.mem_cons_self),
      ih fun d inside => blank d (List.mem_cons_of_mem _ inside)]

theorem versionOnLine_solid {name cs : List Char} (solid : ∀ c ∈ cs.head?, Text.isBlank c = false) :
    versionOnLine name cs = (behindSigns cs).findSome? (versionHere name) := by
  have stays : behindBlanks cs = [cs] := by
    cases cs with
    | nil => rfl
    | cons c cs => simp [behindBlanks, solid c rfl]
  rw [versionOnLine_eq, stays, List.flatMap_singleton]

/-! ### Entries -/

/-- Behind the signs in front of a text the text is tried first, and else only texts that start with
a sign. -/
theorem exists_behindSigns {opening : Option Char} (isQuote : ∀ q ∈ opening, isLockQuote q = true)
    (slash : Bool) {c : Char} (inner : isInner c = true) (noSlash : c ≠ '/') (cs : List Char) :
    ∃ tried, behindSigns (opening.toList ++ ((if slash then ['/'] else []) ++ c :: cs)) =
        (c :: cs) :: tried ∧
      ∀ x ∈ tried, ∃ d ds, x = d :: ds ∧ (isLockQuote d = true ∨ d = '/') := by
  simp only [isInner, Bool.and_eq_true, Bool.not_eq_true'] at inner
  cases opening with
  | none =>
    cases slash with
    | false => exact ⟨[], by simp [behindSigns, behindOptional, inner.2, noSlash], by simp⟩
    | true => exact ⟨['/' :: c :: cs], by simp [behindSigns, behindOptional, isLockQuote], by simp⟩
  | some q =>
    have isQuote := isQuote q rfl
    have notSlash : q ≠ '/' := by
      rintro rfl
      cases isQuote
    cases slash with
    | false =>
      exact ⟨[q :: c :: cs], by simp [behindSigns, behindOptional, isQuote, notSlash, noSlash],
        by simp [isQuote]⟩
    | true =>
      exact ⟨['/' :: c :: cs, q :: '/' :: c :: cs],
        by simp [behindSigns, behindOptional, isQuote, notSlash], by simp [isQuote]⟩

/-- A quote and a slash in front of a name are passed over, and nothing else is. -/
theorem versionOnLine_signs {name : List Char} (isName : IsPackageName name) {opening : Option Char}
    (isQuote : ∀ q ∈ opening, isLockQuote q = true) (slash : Bool) {c : Char}
    (inner : isInner c = true) (noSlash : c ≠ '/') (cs : List Char) :
    versionOnLine name (opening.toList ++ ((if slash then ['/'] else []) ++ c :: cs)) =
      versionHere name (c :: cs) := by
  obtain ⟨first, rest, rfl, inner', noSlash', -⟩ := isName.exists_cons
  simp only [isInner, Bool.and_eq_true, Bool.not_eq_true'] at inner'
  obtain ⟨tried, whole, signs⟩ := exists_behindSigns isQuote slash inner noSlash cs
  have nothing : tried.findSome? (versionHere (first :: rest)) = none := by
    refine List.findSome?_eq_none_iff.mpr fun x isTried => ?_
    obtain ⟨d, ds, rfl, isSign⟩ := signs x isTried
    refine versionHere_cons (fun same => ?_) rest ds
    rcases isSign with isQuote | isSlash
    · rw [same, inner'.2] at isQuote
      cases isQuote
    · exact noSlash' (same.symm.trans isSlash)
  have solid : ∀ d ∈ (opening.toList ++ ((if slash then ['/'] else []) ++ c :: cs)).head?,
      Text.isBlank d = false := by
    simp only [isInner, Bool.and_eq_true, Bool.not_eq_true'] at inner
    cases opening with
    | some q =>
      rintro d ⟨⟩
      exact not_isBlank_of_isLockQuote (isQuote q rfl)
    | none =>
      cases slash with
      | true => rintro d ⟨⟩; rfl
      | false => rintro d ⟨⟩; exact inner.1.2
  rw [versionOnLine_solid solid, whole, List.findSome?_cons, nothing]
  cases versionHere (first :: rest) (c :: cs) <;> rfl

/-- On the line of an entry its name is found, and no other. -/
theorem EntryLine.versionOnLine (line : EntryLine) {name : List Char} (isName : IsPackageName name)
    (more : List Char) :
    Resolution.versionOnLine name (line.text ++ more) =
      if line.entry.name = name then some (line.entry.version ++ line.entry.peers) else none := by
  obtain ⟨first, rest, own, inner, noSlash, -⟩ := line.entry.isName.exists_cons
  rw [← line.entry.versionHere_name isName line.closingQuote (line.rest ++ more), EntryLine.text,
    List.append_assoc, versionOnLine_blanks isName line.indented, own]
  simp only [List.append_assoc, List.cons_append]
  exact versionOnLine_signs isName line.openingQuote line.slash inner noSlash _

/-! ### Other lines -/

/-- What is tried behind a sign on a line is an end of the line, with all that follows it. -/
theorem exists_of_mem_behindOptional {p : Char → Bool} {cs more x : List Char}
    (stop : ∀ c ∈ more.head?, p c = false) (tried : x ∈ behindOptional p (cs ++ more)) :
    ∃ cs', cs' <:+ cs ∧ x = cs' ++ more := by
  cases cs with
  | nil =>
    refine ⟨[], List.suffix_rfl, ?_⟩
    cases more with
    | nil => exact List.mem_singleton.mp tried
    | cons c more =>
      have notTaken := stop c rfl
      simpa [behindOptional, notTaken] using tried
  | cons c cs =>
    rw [List.cons_append, behindOptional] at tried
    split at tried
    · rcases List.mem_cons.mp tried with rfl | tried
      · exact ⟨cs, List.suffix_cons c cs, rfl⟩
      · exact ⟨c :: cs, List.suffix_rfl, List.mem_singleton.mp tried⟩
    · exact ⟨c :: cs, List.suffix_rfl, List.mem_singleton.mp tried⟩

/-- No name is found in a line without an at sign. -/
theorem versionHere_unsigned {name cs more : List Char} (isName : IsPackageName name)
    (unsigned : '@' ∉ cs) (ends : ∀ c ∈ more.head?, c = '\n') :
    versionHere name (cs ++ more) = none := by
  refine versionHere_eq_none fun rest whole => ?_
  have signed : more ≠ '@' :: rest := by
    rintro rfl
    cases ends '@' rfl
  rcases List.append_eq_append_iff.mp whole with ⟨front, isFront, behind⟩ | ⟨front, rfl, behind⟩
  · -- The name would go on behind the end of the line.
    cases front with
    | nil => exact signed behind
    | cons c front =>
      have isBreak : c = '\n' := ends c (by rw [behind]; rfl)
      have inner := isName.inner c (by rw [isFront]; simp)
      rw [isBreak] at inner
      cases inner
  · -- The name would end inside the line, with the at sign behind it.
    cases front with
    | nil => exact signed behind.symm
    | cons c front =>
      obtain ⟨rfl, -⟩ := List.cons.inj behind
      exact unsigned (by simp)

/-- From a line without an at sign a lookup gets to what follows only if the line is blank. -/
theorem versionOnLine_unsigned {name cs more : List Char} (isName : IsPackageName name)
    (unsigned : '@' ∉ cs) (ends : ∀ c ∈ more.head?, c = '\n') :
    versionOnLine name (cs ++ more) =
      if cs.all Text.isBlank then versionOnLine name more else none := by
  induction cs with
  | nil => rfl
  | cons c cs ih =>
    cases blank : Text.isBlank c with
    | true =>
      rw [List.cons_append, versionOnLine_blank isName blank,
        ih fun inside => unsigned (List.mem_cons_of_mem _ inside), List.all_cons, blank,
        Bool.true_and]
    | false =>
      rw [List.all_cons, blank, Bool.false_and, if_neg (by simp),
        versionOnLine_solid (by simpa using blank), List.findSome?_eq_none_iff]
      intro x tried
      obtain ⟨y, tried', tried⟩ := List.mem_flatMap.mp tried
      have stopQuote : ∀ c ∈ more.head?, isLockQuote c = false := by
        intro c isHead
        rw [ends c isHead]
        rfl
      have stopSlash : ∀ c ∈ more.head?, (c == '/') = false := by
        intro c isHead
        rw [ends c isHead]
        rfl
      obtain ⟨ys, part, rfl⟩ := exists_of_mem_behindOptional stopQuote tried'
      obtain ⟨xs, part', rfl⟩ := exists_of_mem_behindOptional stopSlash tried
      refine versionHere_unsigned isName (fun inside => ?_) ends
      exact unsigned ((part'.trans part).subset inside)

/-! ## The lines of a lockfile -/

theorem isInner_ne_break {c : Char} (inner : isInner c = true) : c ≠ '\n' := by
  rintro rfl
  cases inner

theorem isLockQuote_ne_break {c : Char} (isQuote : isLockQuote c = true) : c ≠ '\n' := by
  rintro rfl
  cases isQuote

/-- A line has no break in it. -/
theorem LockLine.break_notMem_text (line : LockLine) : '\n' ∉ line.text := by
  cases line with
  | other text unsigned oneLine => exact oneLine
  | entry line =>
    have ofQuote {quote : Option Char} (isQuote : ∀ q ∈ quote, isLockQuote q = true) :
        '\n' ∉ quote.toList :=
      fun inside => isLockQuote_ne_break (isQuote _ (Option.mem_toList.mp inside)) rfl
    have ofInner {cs : List Char} (inner : ∀ c ∈ cs, isInner c = true) : '\n' ∉ cs :=
      fun inside => isInner_ne_break (inner _ inside) rfl
    have ofSlash : '\n' ∉ (if line.slash then ['/'] else []) := by cases line.slash <;> simp
    simp only [text, EntryLine.text, List.mem_append, List.mem_cons, not_or]
    exact ⟨line.oneLine.1, ofQuote line.openingQuote, ofSlash, ofInner line.entry.isName.inner,
      by simp, ⟨ofInner line.entry.versionInner, ofInner line.entry.peersInner⟩,
      ofQuote line.closingQuote, by simp, line.oneLine.2⟩

theorem afterBreaks_append {cs : List Char} (oneLine : '\n' ∉ cs) (more : List Char) :
    afterBreaks (cs ++ more) = afterBreaks more := by
  induction cs with
  | nil => rfl
  | cons c cs ih =>
    rw [List.cons_append, afterBreaks, if_neg, ih fun inside =>
      oneLine (List.mem_cons_of_mem _ inside)]
    rintro rfl
    exact oneLine List.mem_cons_self

/-- What a lookup that starts at a line comes to; `more` is what follows the line. -/
def LockLine.answer (name : List Char) (more : List Char) : LockLine → Option (List Char)
  | entry line =>
    if line.entry.name = name then some (line.entry.version ++ line.entry.peers) else none
  | other text _ _ => if text.all Text.isBlank then versionOnLine name more else none

theorem LockLine.versionOnLine_text {name : List Char} (isName : IsPackageName name)
    (line : LockLine) {more : List Char} (ends : ∀ c ∈ more.head?, c = '\n') :
    versionOnLine name (line.text ++ more) = line.answer name more := by
  cases line with
  | entry line => exact line.versionOnLine isName more
  | other text unsigned oneLine => exact versionOnLine_unsigned isName unsigned ends

theorem versionOnLine_nil {name : List Char} (isName : IsPackageName name) :
    versionOnLine name [] = none := by
  obtain ⟨first, rest, rfl, -⟩ := isName.exists_cons
  rw [versionOnLine_solid (by simp)]
  rfl

/-- A lookup over the starts of all lines comes to the first entry of the name. -/
theorem findSome?_lines {name : List Char} (isName : IsPackageName name) (lines : List LockLine) :
    (lockText lines :: afterBreaks (lockText lines)).findSome? (versionOnLine name) =
      ((lines.filterMap LockLine.entry?).find? (·.name = name)).map
        fun e => e.version ++ e.peers := by
  induction lines with
  | nil =>
    change List.findSome? (versionOnLine name) [[]] = none
    rw [List.findSome?_singleton, versionOnLine_nil isName]
  | cons line lines ih =>
    cases lines with
    | nil =>
      have whole : lockText [line] = line.text ++ [] := by simp [lockText]
      rw [whole, afterBreaks_append line.break_notMem_text, afterBreaks, List.findSome?_singleton,
        line.versionOnLine_text isName (by simp)]
      cases line with
      | entry line =>
        by_cases same : line.entry.name = name <;> simp [LockLine.answer, LockLine.entry?, same]
      | other text unsigned oneLine =>
        simp [LockLine.answer, LockLine.entry?, versionOnLine_nil isName]
    | cons next lines =>
      have whole : lockText (line :: next :: lines) =
          line.text ++ '\n' :: lockText (next :: lines) := by
        simp [lockText, List.intercalate_cons_cons]
      rw [whole, afterBreaks_append line.break_notMem_text, afterBreaks, if_pos rfl,
        List.findSome?_cons, line.versionOnLine_text isName (by simp)]
      cases line with
      | entry line =>
        rw [ih]
        by_cases same : line.entry.name = name <;> simp [LockLine.answer, LockLine.entry?, same]
      | other text unsigned oneLine =>
        -- From a blank line the lookup comes to what it comes to from the next line.
        have passed : (LockLine.other text unsigned oneLine).answer name
            ('\n' :: lockText (next :: lines)) =
              if text.all Text.isBlank then versionOnLine name (lockText (next :: lines))
              else none :=
          if_congr Iff.rfl (versionOnLine_blank isName rfl _) rfl
        have skipped : (LockLine.other text unsigned oneLine :: next :: lines).filterMap
            LockLine.entry? = (next :: lines).filterMap LockLine.entry? := rfl
        rw [passed, skipped, ← ih, List.findSome?_cons]
        cases text.all Text.isBlank <;> cases versionOnLine name (lockText (next :: lines)) <;> rfl

/-- The version of an entry is what stands in front of its peers. -/
theorem LockEntry.takeWhile_version (e : LockEntry) :
    (e.version ++ e.peers).takeWhile (· != '(') = e.version := by
  have plain : ∀ c ∈ e.version, (c != '(') = true := by
    intro c inside
    rw [bne_iff_ne]
    rintro rfl
    exact e.withoutPeers inside
  rw [List.takeWhile_append_of_pos plain]
  cases peers : e.peers with
  | nil => simp
  | cons c more =>
    have isOpen := e.peersOpen (by simp [peers])
    rw [peers, List.head?_cons, Option.some.injEq] at isOpen
    simp [isOpen]

/-- A lookup in a lockfile comes to the version of the first entry with exactly the name asked for,
and to none if there is no such entry. -/
theorem pinnedVersion_exact (lines : List LockLine) {name : String}
    (isName : IsPackageName name.toList) :
    pinnedVersion (String.ofList (lockText lines)) name =
      ((lines.filterMap LockLine.entry?).find? (·.name = name.toList)).map
        fun e => String.ofList e.version := by
  rw [pinnedVersion, String.toList_ofList]
  dsimp only
  rw [findSome?_lines isName]
  cases (lines.filterMap LockLine.entry?).find? (·.name = name.toList) with
  | none => rfl
  | some e => simp [e.takeWhile_version, e.locked]

/-- Two packages whose names end alike, the second of them locked with peers. -/
def sampleEntries : LockEntry × LockEntry :=
  ({ name := "@types/lodash".toList
     version := "4.14.0".toList
     peers := []
     isName := by decide
     locked := by decide
     versionInner := List.all_eq_true.mp (by decide)
     withoutPeers := by decide
     peersInner := by simp
     peersOpen := by simp },
   { name := "lodash".toList
     version := "4.17.21".toList
     peers := "(@types/lodash@4.14.0)".toList
     isName := by decide
     locked := by decide
     versionInner := List.all_eq_true.mp (by decide)
     withoutPeers := by decide
     peersInner := List.all_eq_true.mp (by decide)
     peersOpen := by decide })

/-- A lockfile with these packages, in quotes and behind a slash, and a blank line between them. -/
def sampleLines : List LockLine :=
  [.other "packages:".toList (by decide) (by decide),
   .entry
    { entry := sampleEntries.1
      indent := [' ']
      opening := some '"'
      slash := false
      closing := some '"'
      rest := []
      indented := List.all_eq_true.mp (by decide)
      openingQuote := by simp [isLockQuote]
      closingQuote := by simp [isLockQuote]
      oneLine := by decide },
   .other [' '] (by decide) (by decide),
   .entry
    { entry := sampleEntries.2
      indent := []
      opening := none
      slash := true
      closing := none
      rest := " b@2:".toList
      indented := by simp
      openingQuote := by simp
      closingQuote := by simp
      oneLine := by decide }]

/-- A name is found behind one that it ends, and an end of a name is not found. -/
theorem pinnedVersion_exact_lodash :
    String.ofList (lockText sampleLines) =
      "packages:\n \"@types/lodash@4.14.0\":\n \n/lodash@4.17.21(@types/lodash@4.14.0): b@2:" ∧
    pinnedVersion (String.ofList (lockText sampleLines)) "lodash" = some "4.17.21" ∧
    pinnedVersion (String.ofList (lockText sampleLines)) "@types/lodash" = some "4.14.0" ∧
    pinnedVersion (String.ofList (lockText sampleLines)) "dash" = none := by
  refine ⟨by decide +kernel, ?_, ?_, ?_⟩
  · rw [pinnedVersion_exact sampleLines (by decide)]
    decide +kernel
  · rw [pinnedVersion_exact sampleLines (by decide)]
    decide +kernel
  · rw [pinnedVersion_exact sampleLines (by decide)]
    decide +kernel

end ModuleAtlas.Resolution
