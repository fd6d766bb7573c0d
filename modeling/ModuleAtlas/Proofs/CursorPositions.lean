import Mathlib.Data.String.Basic
import ModuleAtlas.Text.Position
import ModuleAtlas.Text.Script

/-!
# Cursor positions and boundaries

A boundary of a text is a place before, between or behind its characters (`String.Pos`). It lies on
the line given by the line breaks before it, at the column given by the UTF-16 units between the
start of that line and the boundary (`lineOf`, `columnOf`).

`byteOffset` leads from lines and columns back to boundaries: it finds every boundary from its own
line and column, it gives the first boundary of a line that is not before a column, and it stops at
the end of the line (`byteOffset_boundaries`). Bytes, characters and units grow at different rates,
so all comparisons are made on what stands on the line before a boundary: of two boundaries of one
line, one has a beginning of the other's (`prefix_of_sameLine`), and all three measures grow with
it.
-/

namespace ModuleAtlas.Text

/-! ## Measures of a text -/

/-- The number of UTF-16 units of a text. -/
def unitCount : List Char → Nat
  | [] => 0
  | c :: cs => unitsOf c + unitCount cs

theorem unitsOf_pos (c : Char) : 0 < unitsOf c := by
  unfold unitsOf
  split <;> decide

@[simp] theorem unitCount_append (a b : List Char) :
    unitCount (a ++ b) = unitCount a + unitCount b := by
  induction a with
  | nil => simp [unitCount]
  | cons c a ih => simp [unitCount, ih, Nat.add_assoc]

@[simp] theorem byteCount_append (a b : List Char) :
    byteCount (a ++ b) = byteCount a + byteCount b := by
  induction a with
  | nil => simp [byteCount]
  | cons c a ih => simp [byteCount, ih, Nat.add_assoc]

theorem byteCount_toList (text : String) : byteCount text.toList = text.utf8ByteSize := by
  have chars (cs : List Char) : byteCount cs = (String.ofList cs).utf8ByteSize := by
    induction cs with
    | nil => rfl
    | cons c cs ih =>
      rw [byteCount, ih, String.ofList_cons, String.utf8ByteSize_append,
        String.utf8ByteSize_singleton]
  rw [chars, String.ofList_toList]

/-! ## Lines -/

/-- What stands behind the last line break of a text. -/
def lastLine : List Char → List Char
  | [] => []
  | c :: cs => if '\n' ∈ c :: cs then lastLine cs else c :: cs

theorem not_mem_lastLine (cs : List Char) : '\n' ∉ lastLine cs := by
  induction cs with
  | nil => simp [lastLine]
  | cons c cs ih =>
    rw [lastLine]
    split
    · exact ih
    · assumption

theorem lastLine_append {lines onLine : List Char} (complete : lastLine lines = [])
    (unbroken : '\n' ∉ onLine) : lastLine (lines ++ onLine) = onLine := by
  induction lines with
  | nil =>
    cases onLine with
    | nil => rfl
    | cons c cs => rw [List.nil_append, lastLine, if_neg unbroken]
  | cons c lines ih =>
    rw [lastLine] at complete
    split at complete
    · next broken =>
      have broken' : '\n' ∈ c :: (lines ++ onLine) := by
        rw [← List.cons_append]
        exact List.mem_append_left _ broken
      rw [List.cons_append, lastLine, if_pos broken', ih complete]
    · cases complete

/-- Characters other than line breaks only move the offset of a further line. -/
theorem lineStart_of_ne {c : Char} (other : c ≠ '\n') (line offset : Nat) (cs : List Char) :
    lineStart (line + 1) offset (c :: cs) = lineStart (line + 1) (offset + c.utf8Size) cs := by
  rw [lineStart, lineStart, afterLine, if_neg other]

theorem lineStart_break (line offset : Nat) (cs : List Char) :
    lineStart (line + 1) offset ('\n' :: cs) = lineStart line (offset + 1) cs := rfl

theorem lineStart_eq_none (line offset : Nat) (cs : List Char) :
    lineStart line offset cs = none ↔ cs.count '\n' < line := by
  induction cs generalizing line offset with
  | nil => cases line <;> simp [lineStart, afterLine]
  | cons c cs ih =>
    cases line with
    | zero => simp [lineStart]
    | succ line =>
      by_cases isBreak : c = '\n'
      · subst isBreak
        rw [lineStart_break, ih, List.count_cons_self, Nat.add_lt_add_iff_right]
      · rw [lineStart_of_ne isBreak, ih, List.count_cons_of_ne isBreak]

/-- The lines before the one that is found are complete. -/
theorem lineStart_eq_some {line offset start : Nat} {cs rest : List Char}
    (found : lineStart line offset cs = some (start, rest)) :
    ∃ lines, cs = lines ++ rest ∧ lines.count '\n' = line ∧ lastLine lines = [] ∧
      start = offset + byteCount lines := by
  induction cs generalizing line offset with
  | nil =>
    cases line with
    | zero =>
      cases found
      exact ⟨[], rfl, List.count_nil, rfl, rfl⟩
    | succ line => cases found
  | cons c cs ih =>
    cases line with
    | zero =>
      cases found
      exact ⟨[], rfl, List.count_nil, rfl, rfl⟩
    | succ line =>
      by_cases isBreak : c = '\n'
      · subst isBreak
        rw [lineStart_break] at found
        obtain ⟨lines, rfl, count, complete, rfl⟩ := ih found
        refine ⟨'\n' :: lines, rfl, ?_, ?_, ?_⟩
        · rw [List.count_cons_self, count]
        · rw [lastLine, if_pos List.mem_cons_self, complete]
        · rw [byteCount, Nat.add_assoc]
          rfl
      · rw [lineStart_of_ne isBreak] at found
        obtain ⟨lines, rfl, count, complete, rfl⟩ := ih found
        have broken : '\n' ∈ lines := List.count_pos_iff.mp (count ▸ Nat.succ_pos line)
        refine ⟨c :: lines, rfl, ?_, ?_, ?_⟩
        · rw [List.count_cons_of_ne isBreak, count]
        · rw [lastLine, if_pos (List.mem_cons_of_mem _ broken), complete]
        · rw [byteCount, Nat.add_assoc]

/-- From what stands before a place, the start of its line is found. -/
theorem lineStart_count (front back : List Char) (offset : Nat) :
    ∃ start, lineStart (front.count '\n') offset (front ++ back) =
        some (start, lastLine front ++ back) ∧
      offset + byteCount front = start + byteCount (lastLine front) := by
  induction front generalizing offset with
  | nil => exact ⟨offset, rfl, rfl⟩
  | cons c front ih =>
    by_cases isBreak : c = '\n'
    · subst isBreak
      obtain ⟨start, found, bytes⟩ := ih (offset + 1)
      refine ⟨start, ?_, ?_⟩
      · rw [List.count_cons_self, List.cons_append, lineStart_break, found, lastLine,
          if_pos List.mem_cons_self]
      · rw [lastLine, if_pos List.mem_cons_self, ← bytes, byteCount, Nat.add_assoc]
        rfl
    · rw [List.count_cons_of_ne isBreak, lastLine, List.cons_append]
      by_cases broken : '\n' ∈ front
      · obtain ⟨line, count⟩ := Nat.exists_eq_add_one.mpr (List.count_pos_iff.mpr broken)
        obtain ⟨start, found, bytes⟩ := ih (offset + c.utf8Size)
        rw [if_pos (List.mem_cons_of_mem _ broken)]
        refine ⟨start, ?_, ?_⟩
        · rw [count] at found ⊢
          rw [lineStart_of_ne isBreak, found]
        · rw [← bytes, byteCount, Nat.add_assoc]
      · have unbroken : '\n' ∉ c :: front := by simp [Ne.symm isBreak, broken]
        rw [if_neg unbroken, List.count_eq_zero.mpr broken]
        exact ⟨offset, rfl, rfl⟩

/-! ## Walking along a line -/

/-- What is passed on the way to a column: nothing but characters of the line, each of them while
the column is still ahead, and then the column is reached or the line is at its end. -/
structure Passes (target units : Nat) (passed rest : List Char) : Prop where
  unbroken : '\n' ∉ passed
  ahead : ∀ shorter, shorter <+: passed → shorter ≠ passed → units + unitCount shorter < target
  reached : target ≤ units + unitCount passed ∨ rest.head? = none ∨ rest.head? = some '\n'

theorem exists_passes (target offset units : Nat) (cs : List Char) :
    ∃ passed rest, cs = passed ++ rest ∧ Passes target units passed rest ∧
      offsetInLine target offset units cs = offset + byteCount passed := by
  -- Nothing shorter than nothing has been passed.
  have stays : ∀ units, ∀ shorter : List Char, shorter <+: [] → shorter ≠ [] →
      units + unitCount shorter < target :=
    fun _ _ start nonempty => absurd (List.prefix_nil.mp start) nonempty
  induction cs generalizing offset units with
  | nil => exact ⟨[], [], rfl, ⟨List.not_mem_nil, stays units, .inr (.inl rfl)⟩, rfl⟩
  | cons c cs ih =>
    rw [offsetInLine]
    split
    · next halt =>
      refine ⟨[], c :: cs, rfl, ⟨List.not_mem_nil, stays units, ?_⟩, rfl⟩
      rcases halt with rfl | reached
      · exact .inr (.inr rfl)
      · exact .inl reached
    · next goes =>
      rw [not_or, Nat.not_le] at goes
      obtain ⟨passed, rest, rfl, passes, bytes⟩ := ih (offset + c.utf8Size) (units + unitsOf c)
      refine ⟨c :: passed, rest, rfl, ⟨?_, ?_, ?_⟩, ?_⟩
      · simp [Ne.symm goes.1, passes.unbroken]
      · intro shorter start differs
        rcases List.prefix_cons_iff.mp start with rfl | ⟨more, rfl, start'⟩
        · exact goes.2
        · rw [unitCount, ← Nat.add_assoc]
          exact passes.ahead more start' fun same => differs (congrArg (c :: ·) same)
      · rw [unitCount, ← Nat.add_assoc]
        exact passes.reached
      · rw [bytes, byteCount, Nat.add_assoc]

/-- A place on a line is reached from the column it is at. -/
theorem offsetInLine_unitCount {onLine : List Char} (unbroken : '\n' ∉ onLine)
    (rest : List Char) (offset units : Nat) :
    offsetInLine (units + unitCount onLine) offset units (onLine ++ rest) =
      offset + byteCount onLine := by
  induction onLine generalizing offset units with
  | nil => cases rest <;> simp [offsetInLine, unitCount, byteCount]
  | cons c onLine ih =>
    rw [List.mem_cons, not_or] at unbroken
    have goes : ¬ (c = '\n' ∨ units + unitCount (c :: onLine) ≤ units) := by
      have := unitsOf_pos c
      rw [unitCount]
      rintro (isBreak | reached)
      · exact unbroken.1 isBreak.symm
      · omega
    rw [List.cons_append, offsetInLine, if_neg goes, unitCount, ← Nat.add_assoc, ih unbroken.2,
      byteCount, Nat.add_assoc]

theorem offsetInLine_mono {target further : Nat} (le : target ≤ further) (offset units : Nat)
    (cs : List Char) :
    offsetInLine target offset units cs ≤ offsetInLine further offset units cs := by
  induction cs generalizing offset units with
  | nil => exact Nat.le_refl _
  | cons c cs ih =>
    by_cases halt : c = '\n' ∨ target ≤ units
    · rw [offsetInLine, if_pos halt]
      obtain ⟨passed, rest, -, -, bytes⟩ := exists_passes further offset units (c :: cs)
      rw [bytes]
      exact Nat.le_add_right _ _
    · have goes : ¬ (c = '\n' ∨ further ≤ units) := by
        rw [not_or] at halt ⊢
        exact ⟨halt.1, fun reached => halt.2 (Nat.le_trans le reached)⟩
      rw [offsetInLine, if_neg halt, offsetInLine, if_neg goes]
      exact ih _ _

theorem byteOffset_of_lineStart {text : String} {line start : Nat} {cs : List Char}
    (found : lineStart line 0 text.toList = some (start, cs)) (column : Nat) :
    byteOffset text ⟨line, column⟩ = some (offsetInLine column start 0 cs) := by
  rw [byteOffset, found]
  rfl

/-! ## Boundaries -/

section Boundaries

variable {text : String}

/-- What stands before a boundary. -/
def front (p : text.Pos) : List Char := (text.sliceTo p).copy.toList

/-- What stands behind a boundary. -/
def back (p : text.Pos) : List Char := (text.sliceFrom p).copy.toList

/-- The line of a boundary: the number of line breaks before it. -/
def lineOf (p : text.Pos) : Nat := (front p).count '\n'

/-- The column of a boundary: the UTF-16 units between the start of its line and the boundary. -/
def columnOf (p : text.Pos) : Nat := unitCount (lastLine (front p))

/-- A boundary ends its line: behind it stands a line break, or nothing. -/
def EndsLine (p : text.Pos) : Prop := (back p).head? = none ∨ (back p).head? = some '\n'

/-- The first boundary of a line that is not before a column, or the end of a line that has no
such boundary. -/
def IsFirstFrom (line column : Nat) (p : text.Pos) : Prop :=
  lineOf p = line ∧
    ((column ≤ columnOf p ∧ ∀ q : text.Pos, lineOf q = line → column ≤ columnOf q → p ≤ q) ∨
      (EndsLine p ∧ ∀ q : text.Pos, lineOf q = line → columnOf q < column))

theorem front_append_back (p : text.Pos) : front p ++ back p = text.toList := by
  rw [front, back, ← String.toList_append, ← p.splits.eq_append]

theorem byteIdx_eq (p : text.Pos) : p.offset.byteIdx = byteCount (front p) := by
  rw [front, byteCount_toList, p.splits.offset_eq_rawEndPos]
  rfl

theorem exists_boundary {before behind : List Char} (whole : text.toList = before ++ behind) :
    ∃ p : text.Pos, front p = before ∧ back p = behind := by
  have split : text = String.ofList before ++ String.ofList behind := by
    rw [← String.ofList_append, ← whole, String.ofList_toList]
  have splits := String.Pos.splits_ofEqAppend split
  refine ⟨String.Pos.ofEqAppend split, ?_, ?_⟩
  · rw [front, splits.copy_sliceTo_eq, String.toList_ofList]
  · rw [back, splits.copy_sliceFrom_eq, String.toList_ofList]

/-- The line of a boundary is found at one place, whichever of its boundaries is asked for. -/
theorem lineStart_lineOf (p : text.Pos) :
    ∃ start, lineStart (lineOf p) 0 text.toList = some (start, lastLine (front p) ++ back p) ∧
      p.offset.byteIdx = start + byteCount (lastLine (front p)) := by
  obtain ⟨start, found, bytes⟩ := lineStart_count (front p) (back p) 0
  rw [front_append_back] at found
  rw [Nat.zero_add, ← byteIdx_eq] at bytes
  exact ⟨start, found, bytes⟩

/-- Boundaries of one line divide the same line. -/
theorem sameLine {p q : text.Pos} (same : lineOf p = lineOf q) :
    lastLine (front p) ++ back p = lastLine (front q) ++ back q ∧
      ∃ start, p.offset.byteIdx = start + byteCount (lastLine (front p)) ∧
        q.offset.byteIdx = start + byteCount (lastLine (front q)) := by
  obtain ⟨start, found, bytes⟩ := lineStart_lineOf p
  obtain ⟨start', found', bytes'⟩ := lineStart_lineOf q
  rw [same, found', Option.some.injEq, Prod.mk.injEq] at found
  obtain ⟨rfl, line⟩ := found
  exact ⟨line.symm, start', bytes, bytes'⟩

/-- Of two boundaries of one line, one has a beginning of what the other has before it on that
line. -/
theorem prefix_of_sameLine {p q : text.Pos} (same : lineOf p = lineOf q) :
    lastLine (front p) <+: lastLine (front q) ∨ lastLine (front q) <+: lastLine (front p) :=
  List.prefix_or_prefix_of_prefix ⟨back p, rfl⟩ ⟨back q, (sameLine same).1.symm⟩

theorem le_of_prefix {p q : text.Pos} (same : lineOf p = lineOf q)
    (start : lastLine (front p) <+: lastLine (front q)) : p ≤ q := by
  obtain ⟨-, offset, bytes, bytes'⟩ := sameLine same
  obtain ⟨more, whole⟩ := start
  rw [String.Pos.le_iff, String.Pos.Raw.le_iff, bytes, bytes', ← whole, byteCount_append]
  omega

/-- Nothing of a line stands behind a boundary that ends it. -/
theorem prefix_of_endsLine {p q : text.Pos} (same : lineOf p = lineOf q) (ends : EndsLine q) :
    lastLine (front p) <+: lastLine (front q) := by
  rcases prefix_of_sameLine same with start | ⟨more, whole⟩
  · exact start
  · have line := (sameLine same).1
    have unbroken : '\n' ∉ more := by
      intro broken
      exact not_mem_lastLine (front p) (whole ▸ List.mem_append_right _ broken)
    rw [← whole, List.append_assoc, List.append_cancel_left_eq] at line
    cases more with
    | nil =>
      rw [List.append_nil] at whole
      exact ⟨[], (List.append_nil _).trans whole.symm⟩
    | cons c more =>
      rw [EndsLine, ← line] at ends
      rcases ends with nothing | isBreak
      · cases nothing
      · cases isBreak
        exact absurd List.mem_cons_self unbroken

theorem le_of_endsLine {p q : text.Pos} (same : lineOf p = lineOf q) (ends : EndsLine q) :
    p ≤ q :=
  le_of_prefix same (prefix_of_endsLine same ends)

/-- What is passed on the way to a column leads to the first boundary from that column on. -/
theorem Passes.isFirstFrom {p : text.Pos} {column : Nat}
    (passes : Passes column 0 (lastLine (front p)) (back p)) :
    IsFirstFrom (lineOf p) column p := by
  refine ⟨rfl, ?_⟩
  by_cases reached : column ≤ columnOf p
  · refine .inl ⟨reached, fun q same reached' => ?_⟩
    rcases prefix_of_sameLine same.symm with start | start
    · exact le_of_prefix same.symm start
    · by_cases equal : lastLine (front q) = lastLine (front p)
      · exact le_of_prefix same.symm ⟨[], by rw [List.append_nil, equal]⟩
      · have ahead := passes.ahead _ start equal
        rw [columnOf] at reached'
        omega
  · have ends : EndsLine p := by
      rcases passes.reached with reached' | ends
      · rw [Nat.zero_add] at reached'
        exact absurd reached' reached
      · exact ends
    refine .inr ⟨ends, fun q same => ?_⟩
    obtain ⟨more, whole⟩ := prefix_of_endsLine same ends
    rw [columnOf, ← whole, unitCount_append] at reached
    rw [columnOf]
    omega

theorem exists_isFirstFrom {line : Nat} (column : Nat) (there : line ≤ text.toList.count '\n') :
    ∃ p : text.Pos, byteOffset text ⟨line, column⟩ = some p.offset.byteIdx ∧
      IsFirstFrom line column p := by
  cases found : lineStart line 0 text.toList with
  | none =>
    have missing := (lineStart_eq_none _ _ _).mp found
    omega
  | some place =>
    obtain ⟨start, cs⟩ := place
    obtain ⟨lines, whole, count, complete, bytes⟩ := lineStart_eq_some found
    obtain ⟨passed, rest, rfl, passes, bytes'⟩ := exists_passes column start 0 cs
    rw [← List.append_assoc] at whole
    obtain ⟨p, before, behind⟩ := exists_boundary whole
    have onLine : lastLine (front p) = passed := by
      rw [before, lastLine_append complete passes.unbroken]
    have isOn : lineOf p = line := by
      rw [lineOf, before, List.count_append, count, List.count_eq_zero.mpr passes.unbroken]
      rfl
    refine ⟨p, ?_, ?_⟩
    · rw [byteOffset_of_lineStart found, bytes', bytes, byteIdx_eq, before, byteCount_append,
        Nat.zero_add]
    · rw [← onLine, ← behind] at passes
      exact isOn ▸ passes.isFirstFrom

end Boundaries

/-- Positions and boundaries of a text fit together. A position has no offset exactly if the text
has not that many lines. A boundary is the offset of its own line and column. Any other position on
a line of the text has the offset of the first boundary from its column on, or of the end of its
line; so offsets grow with the column, and stay on the line. -/
theorem byteOffset_boundaries (text : String) :
    (∀ line column, byteOffset text ⟨line, column⟩ = none ↔ text.toList.count '\n' < line) ∧
    (∀ p : text.Pos, byteOffset text ⟨lineOf p, columnOf p⟩ = some p.offset.byteIdx) ∧
    (∀ line column, line ≤ text.toList.count '\n' → ∃ p : text.Pos,
      byteOffset text ⟨line, column⟩ = some p.offset.byteIdx ∧ IsFirstFrom line column p ∧
      ∀ e : text.Pos, lineOf e = line → EndsLine e → p ≤ e) ∧
    (∀ line column further b b', column ≤ further →
      byteOffset text ⟨line, column⟩ = some b → byteOffset text ⟨line, further⟩ = some b' →
      b ≤ b') := by
  refine ⟨fun line column => ?_, fun p => ?_, fun line column there => ?_, ?_⟩
  · rw [byteOffset, Option.map_eq_none_iff, lineStart_eq_none]
  · obtain ⟨start, found, bytes⟩ := lineStart_lineOf p
    have walk := offsetInLine_unitCount (not_mem_lastLine (front p)) (back p) start 0
    rw [Nat.zero_add] at walk
    rw [byteOffset_of_lineStart found, columnOf, walk, bytes]
  · obtain ⟨p, offset, first⟩ := exists_isFirstFrom column there
    exact ⟨p, offset, first, fun e same ends => le_of_endsLine (first.1.trans same.symm) ends⟩
  · intro line column further b b' le offset offset'
    rw [byteOffset, Option.map_eq_some_iff] at offset offset'
    obtain ⟨⟨start, cs⟩, found, rfl⟩ := offset
    obtain ⟨place, found', rfl⟩ := offset'
    rw [found] at found'
    cases found'
    exact offsetInLine_mono le start 0 cs

/-- A column inside of a character of two units leads behind it, and one beyond a line to the line
break. -/
theorem byteOffset_boundaries_pair :
    0 ≤ "a😀b\nжc".toList.count '\n' ∧ byteOffset "a😀b\nжc" ⟨0, 2⟩ = some 5 ∧
    byteOffset "a😀b\nжc" ⟨0, 9⟩ = some 6 ∧
    (∃ p : String.Pos "a😀b\nжc", p.offset.byteIdx = 5 ∧ IsFirstFrom 0 2 p) ∧ 5 ≤ 6 := by
  have inside : byteOffset "a😀b\nжc" ⟨0, 2⟩ = some 5 := by decide
  have beyond : byteOffset "a😀b\nжc" ⟨0, 9⟩ = some 6 := by decide
  have there : 0 ≤ "a😀b\nжc".toList.count '\n' := Nat.zero_le _
  obtain ⟨-, -, first, grows⟩ := byteOffset_boundaries "a😀b\nжc"
  obtain ⟨p, offset, isFirst, -⟩ := first 0 2 there
  rw [inside, Option.some.injEq] at offset
  exact ⟨there, inside, beyond, ⟨p, offset.symm, isFirst⟩,
    grows 0 2 9 5 6 (by decide) inside beyond⟩

end ModuleAtlas.Text
