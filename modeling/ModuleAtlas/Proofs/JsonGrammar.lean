import Mathlib.Data.List.Basic
import ModuleAtlas.Json.Reader

/-!
# The grammar of JSON

The words of JSON with their spelling: strings part by part, numerals, and the three literals
(`Atom`), the marks between them (`Token`), and the trees that tokens form (`Tree`). A tree is known
by its tokens; its value takes a bound on its depth, as the reader has one.

The reader takes one atom from the front of a text, whatever follows it (`readString_append`,
`readNumber_append`), and takes nothing but such atoms (`exists_parts`, `exists_numeral`).
-/

namespace ModuleAtlas.Json

/-! ## Strings -/

/-- A part of a string between its quotes. -/
inductive StringPart where
  /-- A character that stands for itself. -/
  | plain (c : Char) (free : c ≠ '"' ∧ c ≠ '\\' ∧ ¬ c.toNat < 0x20)
  /-- A backslash and one of eight characters. -/
  | short (c : Char) (known : c ∈ "\"\\/bfnrt".toList)
  /-- A backslash, `u`, and four hexadecimal digits. -/
  | code (a b c d : Char) (n : Nat) (digits : hex4 [a, b, c, d] = some (n, []))

namespace StringPart

/-- How a part is written. -/
def text : StringPart → List Char
  | plain c _ => [c]
  | short c _ => ['\\', c]
  | code a b c d _ _ => ['\\', 'u', a, b, c, d]

/-- The character that a backslash and a character stand for. -/
def meaning (c : Char) : Char :=
  if c = 'b' then '\x08'
  else if c = 'f' then '\x0c'
  else if c = 'n' then '\n'
  else if c = 'r' then '\r'
  else if c = 't' then '\t'
  else c

/-- The first unit of a surrogate pair. -/
abbrev IsHigh (n : Nat) : Prop := 0xD800 ≤ n ∧ n < 0xDC00

/-- The second unit of a surrogate pair. -/
abbrev IsLow (n : Nat) : Prop := 0xDC00 ≤ n ∧ n < 0xE000

/-- The characters that parts stand for; none when a half of a surrogate pair stands alone. -/
def decode : List StringPart → Option (List Char)
  | [] => some []
  | plain c _ :: ps => (decode ps).map (c :: ·)
  | short c _ :: ps => (decode ps).map (meaning c :: ·)
  | code _ _ _ _ n _ :: ps =>
    if IsHigh n then
      match ps with
      | code _ _ _ _ m _ :: ps =>
        if IsLow m then
          (decode ps).map (Char.ofNat (0x10000 + (n - 0xD800) * 0x400 + (m - 0xDC00)) :: ·)
        else none
      | _ => none
    else if IsLow n then none
    else (decode ps).map (Char.ofNat n :: ·)

end StringPart

/-- How the inside of a string is written. -/
def partsText (ps : List StringPart) : List Char := ps.flatMap StringPart.text

theorem partsText_cons (p : StringPart) (ps : List StringPart) :
    partsText (p :: ps) = p.text ++ partsText ps := List.flatMap_cons

theorem hex4_append {a b c d : Char} {n : Nat} (digits : hex4 [a, b, c, d] = some (n, []))
    (cs : List Char) : hex4 (a :: b :: c :: d :: cs) = some (n, cs) := by
  simp only [hex4] at digits ⊢
  split at digits
  · cases digits
    rfl
  · cases digits

theorem escaped_short {c : Char} (known : c ∈ "\"\\/bfnrt".toList) (cs : List Char) :
    escaped (c :: cs) = some (StringPart.meaning c, cs) := by
  have cases : c = '"' ∨ c = '\\' ∨ c = '/' ∨ c = 'b' ∨ c = 'f' ∨ c = 'n' ∨ c = 'r' ∨ c = 't' := by
    simpa using known
  rcases cases with rfl | rfl | rfl | rfl | rfl | rfl | rfl | rfl <;> rfl

section Escapes

variable {a b c d a' b' c' d' : Char} {n m : Nat}

/-- An escape of a whole character. -/
theorem escaped_code (digits : hex4 [a, b, c, d] = some (n, [])) (whole : ¬ StringPart.IsHigh n)
    (whole' : ¬ StringPart.IsLow n) (cs : List Char) :
    escaped ('u' :: a :: b :: c :: d :: cs) = some (Char.ofNat n, cs) := by
  simp only [escaped, hex4_append digits]
  rw [if_neg whole, if_neg whole']

theorem escaped_low (digits : hex4 [a, b, c, d] = some (n, [])) (low : StringPart.IsLow n)
    (cs : List Char) : escaped ('u' :: a :: b :: c :: d :: cs) = none := by
  have notHigh : ¬ StringPart.IsHigh n := fun high => Nat.not_lt.mpr low.1 high.2
  simp only [escaped, hex4_append digits]
  rw [if_neg notHigh, if_pos low]

/-- The first unit of a surrogate pair with another code behind it. -/
theorem escaped_pair (digits : hex4 [a, b, c, d] = some (n, [])) (high : StringPart.IsHigh n)
    (digits' : hex4 [a', b', c', d'] = some (m, [])) (cs : List Char) :
    escaped ('u' :: a :: b :: c :: d :: '\\' :: 'u' :: a' :: b' :: c' :: d' :: cs) =
      if StringPart.IsLow m then
        some (Char.ofNat (0x10000 + (n - 0xD800) * 0x400 + (m - 0xDC00)), cs)
      else none := by
  simp only [escaped, hex4_append digits, hex4_append digits']
  rw [if_pos high]

theorem escaped_high (digits : hex4 [a, b, c, d] = some (n, [])) (high : StringPart.IsHigh n)
    {cs : List Char} (alone : ∀ rest, cs ≠ '\\' :: 'u' :: rest) :
    escaped ('u' :: a :: b :: c :: d :: cs) = none := by
  simp only [escaped, hex4_append digits]
  rw [if_pos high]

end Escapes

/-- Parts that do not start with a code do not look like one. -/
theorem partsText_ne_code {ps : List StringPart} (cs : Rest)
    (other : ∀ a b c d n digits rest, ps ≠ .code a b c d n digits :: rest) (rest : List Char) :
    partsText ps ++ '"' :: cs ≠ '\\' :: 'u' :: rest := by
  intro same
  match ps with
  | [] => cases same
  | .plain c free :: ps => exact free.2.1 (List.cons.inj same).1
  | .short c known :: ps =>
    obtain rfl : c = 'u' := (List.cons.inj (List.cons.inj same).2).1
    exact absurd known (by decide)
  | .code a b c d n digits :: ps => exact other a b c d n digits ps rfl

section StringBody

variable (fuel : Nat) (cs : Rest) (acc : List Char)

theorem stringBody_plain {c : Char} (free : c ≠ '"' ∧ c ≠ '\\' ∧ ¬ c.toNat < 0x20) :
    stringBody (fuel + 1) (c :: cs) acc = stringBody fuel cs (c :: acc) := by
  rw [stringBody, if_neg free.1, if_neg free.2.1, if_neg free.2.2]

theorem stringBody_escaped {rest : Rest} {e : Char} (known : escaped rest = some (e, cs)) :
    stringBody (fuel + 1) ('\\' :: rest) acc = stringBody fuel cs (e :: acc) := by
  rw [stringBody, if_neg (by decide), if_pos rfl, known]

theorem stringBody_unknown {rest : Rest} (unknown : escaped rest = none) :
    stringBody (fuel + 1) ('\\' :: rest) acc = none := by
  rw [stringBody, if_neg (by decide), if_pos rfl, unknown]

end StringBody

/-- The inside of a string is read part by part, up to the closing quote. -/
theorem stringBody_partsText (ps : List StringPart) (cs : Rest) (acc : List Char) (fuel : Nat)
    (enough : ps.length ≤ fuel) :
    stringBody (fuel + 1) (partsText ps ++ '"' :: cs) acc =
      (StringPart.decode ps).map fun s => (String.ofList (acc.reverse ++ s), cs) := by
  -- A character that has been read stands before those of the parts that follow.
  have push : ∀ (acc : List Char) (e : Char) (decoded : Option (List Char)),
      (decoded.map fun s => (String.ofList ((e :: acc).reverse ++ s), cs)) =
        (decoded.map (e :: ·)).map fun s => (String.ofList (acc.reverse ++ s), cs) := by
    intro acc e decoded
    simp [Function.comp_def]
  fun_induction StringPart.decode ps generalizing acc fuel with
  | case1 => simp [partsText, stringBody]
  | case2 c free ps ih =>
    obtain ⟨fuel, rfl⟩ := Nat.exists_eq_add_one.mpr (Nat.zero_lt_of_lt enough)
    rw [partsText_cons, List.append_assoc, ← push, ← ih _ _ (Nat.le_of_succ_le_succ enough)]
    exact stringBody_plain _ _ _ free
  | case3 c known ps ih =>
    obtain ⟨fuel, rfl⟩ := Nat.exists_eq_add_one.mpr (Nat.zero_lt_of_lt enough)
    rw [partsText_cons, List.append_assoc, ← push, ← ih _ _ (Nat.le_of_succ_le_succ enough)]
    exact stringBody_escaped _ _ _ (escaped_short known _)
  | case4 a b c d n digits high a' b' c' d' m digits' ps low ih =>
    obtain ⟨fuel, rfl⟩ := Nat.exists_eq_add_one.mpr (Nat.zero_lt_of_lt enough)
    rw [partsText_cons, partsText_cons, List.append_assoc, List.append_assoc, ← push,
      ← ih _ _ (Nat.le_of_succ_le (Nat.le_of_succ_le_succ enough))]
    exact stringBody_escaped _ _ _ ((escaped_pair digits high digits' _).trans (if_pos low))
  | case5 a b c d n digits high a' b' c' d' m digits' ps alone =>
    rw [partsText_cons, partsText_cons, List.append_assoc, List.append_assoc]
    exact stringBody_unknown _ _ ((escaped_pair digits high digits' _).trans (if_neg alone))
  | case6 a b c d n digits ps high other =>
    rw [partsText_cons, List.append_assoc]
    exact stringBody_unknown _ _ (escaped_high digits high (partsText_ne_code cs other))
  | case7 a b c d n digits ps _ low =>
    rw [partsText_cons, List.append_assoc]
    exact stringBody_unknown _ _ (escaped_low digits low _)
  | case8 a b c d n digits ps notHigh notLow ih =>
    obtain ⟨fuel, rfl⟩ := Nat.exists_eq_add_one.mpr (Nat.zero_lt_of_lt enough)
    rw [partsText_cons, List.append_assoc, ← push, ← ih _ _ (Nat.le_of_succ_le_succ enough)]
    exact stringBody_escaped _ _ _ (escaped_code digits notHigh notLow _)

/-- What is written in at least one piece each takes at least as many pieces. -/
theorem length_le_flatMap {α β : Type} {f : α → List β} (nonempty : ∀ a, f a ≠ [])
    (as : List α) : as.length ≤ (as.flatMap f).length := by
  induction as with
  | nil => exact Nat.le_refl 0
  | cons a as ih =>
    have := List.length_pos_of_ne_nil (nonempty a)
    rw [List.flatMap_cons, List.length_append, List.length_cons]
    omega

theorem length_le_partsText (ps : List StringPart) : ps.length ≤ (partsText ps).length :=
  length_le_flatMap (fun p => by cases p <;> exact List.cons_ne_nil _ _) ps

theorem readString_append (ps : List StringPart) (cs : Rest) :
    readString ('"' :: (partsText ps ++ '"' :: cs)) =
      (StringPart.decode ps).map fun s => (String.ofList s, cs) := by
  have enough : ps.length ≤ (partsText ps ++ '"' :: cs).length := by
    rw [List.length_append]
    exact Nat.le_trans (length_le_partsText ps) (Nat.le_add_right _ _)
  exact stringBody_partsText ps cs [] _ enough

theorem exists_hex4 {cs rest : Rest} {n : Nat} (read : hex4 cs = some (n, rest)) :
    ∃ a b c d, cs = a :: b :: c :: d :: rest ∧ hex4 [a, b, c, d] = some (n, []) := by
  match cs, read with
  | a :: b :: c :: d :: cs, read =>
    refine ⟨a, b, c, d, ?_⟩
    simp only [hex4] at read ⊢
    split at read
    · cases read
      exact ⟨rfl, rfl⟩
    · cases read

/-- An escape is one part of a string, or two that are a surrogate pair. -/
theorem exists_escaped {cs rest : Rest} {e : Char} (read : escaped cs = some (e, rest)) :
    ∃ ps, '\\' :: cs = partsText ps ++ rest := by
  have short : ∀ c, c ∈ "\"\\/bfnrt".toList → ∃ ps, '\\' :: c :: rest = partsText ps ++ rest :=
    fun c known => ⟨[.short c known], rfl⟩
  unfold escaped at read
  split at read
  case h_9 =>
    split at read
    · cases read
    · next n cs unit =>
      obtain ⟨a, b, c, d, rfl, digits⟩ := exists_hex4 unit
      split at read
      · split at read
        · split at read
          · next m cs unit' =>
            obtain ⟨a', b', c', d', rfl, digits'⟩ := exists_hex4 unit'
            split at read
            · obtain rfl := (Prod.mk.inj (Option.some.inj read)).2
              exact ⟨[.code a b c d n digits, .code a' b' c' d' m digits'], rfl⟩
            · cases read
          · cases read
        · cases read
      · split at read
        · cases read
        · cases read
          exact ⟨[.code a b c d n digits], rfl⟩
  case h_10 => cases read
  all_goals
    cases read
    exact short _ (by decide)

theorem partsText_append (ps qs : List StringPart) :
    partsText (ps ++ qs) = partsText ps ++ partsText qs := List.flatMap_append

/-- What is read as the inside of a string consists of parts. -/
theorem exists_parts {fuel : Nat} {cs rest : Rest} {acc : List Char} {s : String}
    (read : stringBody fuel cs acc = some (s, rest)) :
    ∃ ps, cs = partsText ps ++ '"' :: rest := by
  induction fuel generalizing cs acc with
  | zero => cases read
  | succ fuel ih =>
    match cs with
    | [] => cases read
    | c :: cs =>
      rw [stringBody] at read
      split at read
      · next quote =>
        cases read
        exact ⟨[], by rw [quote]; rfl⟩
      · next noQuote =>
        split at read
        · next backslash =>
          split at read
          · next e cs known =>
            obtain ⟨escape, whole⟩ := exists_escaped known
            obtain ⟨ps, rfl⟩ := ih read
            refine ⟨escape ++ ps, ?_⟩
            rw [backslash, whole, partsText_append, List.append_assoc]
          · cases read
        · next noBackslash =>
          split at read
          · cases read
          · next noControl =>
            obtain ⟨ps, rfl⟩ := ih read
            exact ⟨.plain c ⟨noQuote, noBackslash, noControl⟩ :: ps, rfl⟩

/-! ## Numerals -/

/-- The exponent of a numeral: its mark, whether it has a sign and then whether that is a minus,
and its digits. -/
structure Exponent where
  mark : Char
  sign : Option Bool
  digits : List Char
  isMark : mark = 'e' ∨ mark = 'E'
  nonempty : digits ≠ []
  areDigits : ∀ d ∈ digits, d.isDigit

/-- How the sign of an exponent is written. -/
def signText : Option Bool → List Char
  | none => []
  | some negative => [if negative then '-' else '+']

/-- How an exponent is written; no exponent is not written. -/
def exponentText : Option Exponent → List Char
  | none => []
  | some x => x.mark :: (signText x.sign ++ x.digits)

/-- How a fraction is written; one without digits is not written. -/
def fractionText (digits : List Char) : List Char :=
  if digits = [] then [] else '.' :: digits

/-- A number as it is written. A fraction without digits stands for none. -/
structure Numeral where
  negative : Bool
  whole : List Char
  fraction : List Char
  exponent : Option Exponent
  nonempty : whole ≠ []
  wholeDigits : ∀ d ∈ whole, d.isDigit
  zeroAlone : whole.head? = some '0' → whole.length = 1
  fractionDigits : ∀ d ∈ fraction, d.isDigit

/-- How a numeral is written. -/
def Numeral.text (n : Numeral) : List Char :=
  (if n.negative then ['-'] else []) ++
    (n.whole ++ (fractionText n.fraction ++ exponentText n.exponent))

/-- What a numeral stands for by itself; none when it is out of range. -/
def Numeral.value? (n : Numeral) : Option Number := (readNumber n.text).map (·.1)

/-- A text that does not go on with a number. -/
def Stops (cs : Rest) : Prop :=
  ∀ c ∈ cs.head?, c.isDigit = false ∧ c ≠ '.' ∧ c ≠ 'e' ∧ c ≠ 'E'

theorem stops_nil : Stops [] := fun _ member => nomatch member

theorem takeDigits_append {ds cs : List Char} (digits : ∀ d ∈ ds, d.isDigit)
    (ends : ∀ c ∈ cs.head?, c.isDigit = false) : takeDigits (ds ++ cs) = (ds, cs) := by
  have none : cs.takeWhile Char.isDigit = [] ∧ cs.dropWhile Char.isDigit = cs := by
    cases cs with
    | nil => exact ⟨rfl, rfl⟩
    | cons c cs => simp [ends c rfl]
  rw [takeDigits, List.takeWhile_append_of_pos digits, List.dropWhile_append_of_pos digits, none.1,
    none.2, List.append_nil]

theorem exponentMark_of_stops {cs : Rest} (stops : Stops cs) : exponentMark cs = none := by
  unfold exponentMark
  split
  · exact absurd rfl (stops _ rfl).2.2.1
  · exact absurd rfl (stops _ rfl).2.2.2
  · rfl

/-- An exponent is read from its own text, whatever follows it. -/
theorem readExponent_append (x : Exponent) {cs : Rest} (stops : Stops cs) :
    readExponent (signText x.sign ++ x.digits ++ cs) =
      (readExponent (signText x.sign ++ x.digits)).map fun r => (r.1, cs) := by
  have whole : takeDigits (x.digits ++ cs) = (x.digits, cs) :=
    takeDigits_append x.areDigits fun c isFirst => (stops c isFirst).1
  have alone : takeDigits (x.digits ++ []) = (x.digits, []) :=
    takeDigits_append x.areDigits fun c isFirst => (stops_nil c isFirst).1
  rw [List.append_nil] at alone
  match sign : x.sign with
  | some true => simp [signText, readExponent, whole, alone, x.nonempty]
  | some false => simp [signText, readExponent, whole, alone, x.nonempty]
  | none =>
    match kept : x.digits with
    | [] => exact absurd kept x.nonempty
    | d :: ds =>
      have isDigit : d.isDigit := x.areDigits d (kept ▸ List.mem_cons_self)
      have noPlus : d ≠ '+' := by rintro rfl; cases isDigit
      have noMinus : d ≠ '-' := by rintro rfl; cases isDigit
      rw [kept] at whole alone
      rw [List.cons_append] at whole
      simp [signText, readExponent, noPlus, noMinus, whole, alone]

theorem exponentMark_exponent (x : Exponent) (cs : Rest) :
    exponentMark (x.mark :: cs) = some cs := by
  rcases x.isMark with mark | mark <;> rw [mark] <;> rfl

theorem finishDouble_append (x : Option Exponent) (negative : Bool) (sig : Nat) (e : Int)
    {cs : Rest} (stops : Stops cs) :
    finishDouble negative sig e (exponentText x ++ cs) =
      (finishDouble negative sig e (exponentText x)).map fun r => (r.1, cs) := by
  match x with
  | none =>
    simp [exponentText, finishDouble, exponentMark_of_stops stops,
      exponentMark_of_stops stops_nil, Function.comp_def]
  | some x =>
    simp only [exponentText, finishDouble, List.cons_append, exponentMark_exponent,
      readExponent_append x stops]
    cases readExponent (signText x.sign ++ x.digits) with
    | none => rfl
    | some r =>
      simp only [Option.map_some]
      split
      · split
        · rfl
        · rfl
      · simp [Function.comp_def]

/-- A number behind its sign. -/
def readUnsigned (negative : Bool) (cs : Rest) : Option (Number × Rest) :=
  let (ds, cs) := takeDigits cs
  if ds.isEmpty || (ds.head? == some '0' && 1 < ds.length) then none
  else
    let (sig, dropped) := significand ds 0
    match cs with
    | '.' :: cs =>
      let (fraction, cs) := takeDigits cs
      if fraction.isEmpty then none
      else
        let (sig, unread) := significand fraction sig
        finishDouble negative sig ((dropped : Int) - (fraction.length - unread : Nat)) cs
    | cs =>
      if dropped = 0 ∧ (exponentMark cs).isNone then (wholeNumber negative sig).map (·, cs)
      else finishDouble negative sig dropped cs

theorem readNumber_minus (cs : Rest) : readNumber ('-' :: cs) = readUnsigned true cs := rfl

theorem readNumber_unsigned {cs : Rest} (other : cs.head? ≠ some '-') :
    readNumber cs = readUnsigned false cs := by
  unfold readNumber readUnsigned
  split
  · next sign =>
    split at sign
    · exact absurd rfl other
    · cases sign
      rfl

/-- A text that does not go on with digits or a fraction. -/
def EndsWhole (cs : Rest) : Prop := ∀ c ∈ cs.head?, c.isDigit = false ∧ c ≠ '.'

theorem endsWhole_exponentText (x : Option Exponent) {cs : Rest} (stops : Stops cs) :
    EndsWhole (exponentText x ++ cs) := by
  match x with
  | none => exact fun c isFirst => ⟨(stops c isFirst).1, (stops c isFirst).2.1⟩
  | some x =>
    intro c isFirst
    obtain rfl : x.mark = c := Option.some.inj isFirst
    rcases x.isMark with mark | mark <;> rw [mark] <;> decide

theorem isNone_exponentMark (x : Option Exponent) {cs : Rest} (stops : Stops cs) :
    (exponentMark (exponentText x ++ cs)).isNone = x.isNone := by
  match x with
  | none => rw [exponentText, List.nil_append, exponentMark_of_stops stops]; rfl
  | some x => rw [exponentText, List.cons_append, exponentMark_exponent]; rfl

namespace Numeral

variable (n : Numeral)

/-- The digits before the point pass the check for zeros in front. -/
theorem passes : (n.whole.isEmpty || (n.whole.head? == some '0' && decide (1 < n.whole.length))) =
    false := by
  have nonempty : n.whole.isEmpty = false := by simpa using n.nonempty
  rw [nonempty, Bool.false_or, Bool.and_eq_false_imp]
  intro zero
  rw [n.zeroAlone (beq_iff_eq.mp zero)]
  rfl

theorem readUnsigned_whole {cs : Rest} (ends : EndsWhole cs) :
    readUnsigned n.negative (n.whole ++ cs) =
      if (significand n.whole 0).2 = 0 ∧ (exponentMark cs).isNone then
        (wholeNumber n.negative (significand n.whole 0).1).map (·, cs)
      else finishDouble n.negative (significand n.whole 0).1 (significand n.whole 0).2 cs := by
  have digits := takeDigits_append n.wholeDigits fun c isFirst => (ends c isFirst).1
  rw [readUnsigned, digits]
  simp only [n.passes, Bool.false_eq_true, if_false]
  split
  · next cs => exact absurd rfl (ends '.' rfl).2
  · rfl

theorem readUnsigned_fraction (some : n.fraction ≠ []) {cs : Rest} (ends : EndsWhole cs) :
    readUnsigned n.negative (n.whole ++ '.' :: (n.fraction ++ cs)) =
      finishDouble n.negative (significand n.fraction (significand n.whole 0).1).1
        (((significand n.whole 0).2 : Int) -
          (n.fraction.length - (significand n.fraction (significand n.whole 0).1).2 : Nat)) cs := by
  have digits : takeDigits (n.whole ++ '.' :: (n.fraction ++ cs)) =
      (n.whole, '.' :: (n.fraction ++ cs)) :=
    takeDigits_append n.wholeDigits fun c isFirst => by cases isFirst; rfl
  have digits' := takeDigits_append n.fractionDigits fun c isFirst => (ends c isFirst).1
  have nonempty : n.fraction.isEmpty = false := by simpa using some
  rw [readUnsigned, digits]
  simp only [n.passes, digits', nonempty]
  rfl

/-- The digits of a numeral are read from its own text, whatever follows it. -/
theorem readUnsigned_append {cs : Rest} (stops : Stops cs) :
    readUnsigned n.negative
        (n.whole ++ (fractionText n.fraction ++ (exponentText n.exponent ++ cs))) =
      (readUnsigned n.negative
        (n.whole ++ (fractionText n.fraction ++ (exponentText n.exponent ++ [])))).map
          fun r => (r.1, cs) := by
  have ends := endsWhole_exponentText n.exponent stops
  have ends' := endsWhole_exponentText n.exponent stops_nil
  by_cases fraction : n.fraction = []
  · rw [fractionText, if_pos fraction, List.nil_append, List.nil_append, n.readUnsigned_whole ends,
      n.readUnsigned_whole ends', isNone_exponentMark _ stops, isNone_exponentMark _ stops_nil]
    split
    · next alone =>
      rw [Option.isNone_iff_eq_none.mp alone.2]
      simp [exponentText, Function.comp_def]
    · rw [List.append_nil, finishDouble_append _ _ _ _ stops]
  · rw [fractionText, if_neg fraction, List.cons_append, List.cons_append,
      n.readUnsigned_fraction fraction ends, n.readUnsigned_fraction fraction ends',
      List.append_nil, finishDouble_append _ _ _ _ stops]

theorem readNumber_text (cs : Rest) :
    readNumber (n.text ++ cs) = readUnsigned n.negative
      (n.whole ++ (fractionText n.fraction ++ (exponentText n.exponent ++ cs))) := by
  rw [text]
  cases sign : n.negative with
  | true => simp [readNumber_minus]
  | false =>
    have other : (n.whole ++ (fractionText n.fraction ++ (exponentText n.exponent ++ cs))).head? ≠
        some '-' := by
      rw [List.head?_append_of_ne_nil _ n.nonempty]
      intro minus
      have := n.wholeDigits '-' (List.mem_of_mem_head? minus)
      cases this
    simpa using readNumber_unsigned other

end Numeral

/-- A numeral is read from its own text, whatever follows it. -/
theorem readNumber_append (n : Numeral) {cs : Rest} (stops : Stops cs) :
    readNumber (n.text ++ cs) = n.value?.map (·, cs) := by
  have alone := n.readNumber_text []
  rw [List.append_nil] at alone
  rw [Numeral.value?, alone, n.readNumber_text, n.readUnsigned_append stops]
  simp [Function.comp_def]

theorem takeDigits_spec (cs : Rest) :
    cs = (takeDigits cs).1 ++ (takeDigits cs).2 ∧ ∀ d ∈ (takeDigits cs).1, d.isDigit :=
  ⟨List.takeWhile_append_dropWhile.symm, List.all_eq_true.mp List.all_takeWhile⟩

theorem exists_exponent {cs rest : Rest} {e : Int} (read : readExponent cs = some (e, rest))
    {mark : Char} (isMark : mark = 'e' ∨ mark = 'E') :
    ∃ x : Exponent, mark :: cs = exponentText (some x) ++ rest := by
  unfold readExponent at read
  split at read
  next negative unsigned split =>
  obtain ⟨sign, rfl⟩ : ∃ sign, cs = signText sign ++ unsigned := by
    split at split
    · cases split
      exact ⟨some false, rfl⟩
    · cases split
      exact ⟨some true, rfl⟩
    · cases split
      exact ⟨none, rfl⟩
  obtain ⟨whole, digits⟩ := takeDigits_spec unsigned
  simp only at read
  split at read
  · cases read
  · next nonempty =>
    obtain rfl := (Prod.mk.inj (Option.some.inj read)).2
    refine ⟨⟨mark, sign, _, isMark, by simpa using nonempty, digits⟩, ?_⟩
    rw [exponentText, List.cons_append, List.append_assoc, ← whole]

theorem exists_exponentText {negative : Bool} {sig : Nat} {e : Int} {cs rest : Rest} {x : Number}
    (read : finishDouble negative sig e cs = some (x, rest)) :
    ∃ x : Option Exponent, cs = exponentText x ++ rest := by
  unfold finishDouble at read
  split at read
  · next behind mark =>
    split at read
    · next more cs' exponent =>
      obtain rfl : cs' = rest := by
        split at read
        · split at read
          · cases read
          · exact (Prod.mk.inj (Option.some.inj read)).2
        · obtain ⟨y, -, same⟩ := Option.map_eq_some_iff.mp read
          exact (Prod.mk.inj same).2
      unfold exponentMark at mark
      split at mark
      · cases mark
        obtain ⟨x, whole⟩ := exists_exponent exponent (.inl rfl)
        exact ⟨some x, whole⟩
      · cases mark
        obtain ⟨x, whole⟩ := exists_exponent exponent (.inr rfl)
        exact ⟨some x, whole⟩
      · cases mark
    · cases read
  · obtain ⟨y, -, same⟩ := Option.map_eq_some_iff.mp read
    exact ⟨none, (Prod.mk.inj same).2⟩

theorem exists_unsigned {negative : Bool} {cs rest : Rest} {x : Number}
    (read : readUnsigned negative cs = some (x, rest)) :
    ∃ n : Numeral, n.negative = negative ∧
      cs = n.whole ++ (fractionText n.fraction ++ (exponentText n.exponent ++ rest)) := by
  obtain ⟨whole, digits⟩ := takeDigits_spec cs
  unfold readUnsigned at read
  simp only at read
  split at read
  · cases read
  · next check =>
    rw [Bool.or_eq_true, not_or, Bool.and_eq_true] at check
    have nonempty : (takeDigits cs).1 ≠ [] := by simpa using check.1
    have zeroAlone : (takeDigits cs).1.head? = some '0' → (takeDigits cs).1.length = 1 := by
      intro zero
      have := List.length_pos_of_ne_nil nonempty
      have : ¬ 1 < (takeDigits cs).1.length := fun long =>
        check.2 ⟨beq_iff_eq.mpr zero, decide_eq_true long⟩
      omega
    split at read
    · next behind point =>
      obtain ⟨whole', digits'⟩ := takeDigits_spec behind
      split at read
      · cases read
      · next some =>
        obtain ⟨x, exponent⟩ := exists_exponentText read
        refine ⟨⟨negative, _, _, x, nonempty, digits, zeroAlone, digits'⟩, rfl, ?_⟩
        rw [fractionText, if_neg (by simpa using some), List.cons_append, ← exponent, ← whole',
          ← point]
        exact whole
    · have exponent : ∃ x : Option Exponent, (takeDigits cs).2 = exponentText x ++ rest := by
        split at read
        · obtain ⟨y, -, same⟩ := Option.map_eq_some_iff.mp read
          exact ⟨none, (Prod.mk.inj same).2⟩
        · exact exists_exponentText read
      obtain ⟨x, exponent⟩ := exponent
      refine ⟨⟨negative, _, [], x, nonempty, digits, zeroAlone, by simp⟩, rfl, ?_⟩
      rw [fractionText, if_pos rfl, List.nil_append, ← exponent]
      exact whole

/-- What is read as a number is a numeral. -/
theorem exists_numeral {cs rest : Rest} {x : Number} (read : readNumber cs = some (x, rest)) :
    ∃ n : Numeral, cs = n.text ++ rest := by
  by_cases minus : cs.head? = some '-'
  · obtain ⟨cs, rfl⟩ := List.head?_eq_some_iff.mp minus
    rw [readNumber_minus] at read
    obtain ⟨n, negative, rfl⟩ := exists_unsigned read
    refine ⟨n, ?_⟩
    simp [Numeral.text, negative]
  · rw [readNumber_unsigned minus] at read
    obtain ⟨n, negative, rfl⟩ := exists_unsigned read
    refine ⟨n, ?_⟩
    simp [Numeral.text, negative]

/-! ## Tokens and trees -/

/-- What is written in one word. -/
inductive Atom where
  | null
  | bool (b : Bool)
  | number (n : Numeral)
  | string (parts : List StringPart)

namespace Atom

/-- How an atom is written. -/
def text : Atom → List Char
  | null => ['n', 'u', 'l', 'l']
  | bool true => ['t', 'r', 'u', 'e']
  | bool false => ['f', 'a', 'l', 's', 'e']
  | number n => n.text
  | string ps => '"' :: (partsText ps ++ ['"'])

theorem text_string (ps : List StringPart) (cs : Rest) :
    (string ps).text ++ cs = '"' :: (partsText ps ++ '"' :: cs) := by
  rw [text, List.cons_append, List.append_assoc]
  rfl

/-- The value of an atom. -/
def value? : Atom → Option Value
  | null => some .null
  | bool b => some (.bool b)
  | number n => n.value?.map .number
  | string ps => (StringPart.decode ps).map fun s => .string (String.ofList s)

end Atom

/-- The two kinds of brackets. -/
inductive Bracket where
  | array
  | object
deriving DecidableEq

namespace Bracket

/-- The mark that opens a bracket. -/
def opening : Bracket → Char
  | array => '['
  | object => '\x7b'

/-- The mark that closes a bracket. -/
def closing : Bracket → Char
  | array => ']'
  | object => '\x7d'

end Bracket

/-- The words and marks of JSON. -/
inductive Token where
  | atom (a : Atom)
  | opening (b : Bracket)
  | closing (b : Bracket)
  | comma
  | colon

namespace Token

/-- How a token is written. -/
def text : Token → List Char
  | atom a => a.text
  | opening b => [b.opening]
  | closing b => [b.closing]
  | comma => [',']
  | colon => [':']

/-- Whether a token closes a bracket. -/
def isClosing : Token → Bool
  | closing _ => true
  | _ => false

end Token

/-- Lists of tokens with commas between them. -/
def separated : List (List Token) → List Token
  | [] => []
  | first :: more => first ++ more.flatMap (.comma :: ·)

/-- The shape of a JSON text. -/
inductive Tree where
  | atom (a : Atom)
  | array (items : List Tree)
  | object (fields : List (List StringPart × Tree))

namespace Tree

mutual

/-- The tokens of a tree. -/
def tokens : Tree → List Token
  | atom a => [.atom a]
  | array items => .opening .array :: (separated (itemTokens items) ++ [.closing .array])
  | object fields => .opening .object :: (separated (fieldTokens fields) ++ [.closing .object])

/-- The tokens of each item. -/
def itemTokens : List Tree → List (List Token)
  | [] => []
  | t :: ts => t.tokens :: itemTokens ts

/-- The tokens of each field: a key, a colon and a value. -/
def fieldTokens : List (List StringPart × Tree) → List (List Token)
  | [] => []
  | (key, t) :: fs => (.atom (.string key) :: .colon :: t.tokens) :: fieldTokens fs

end

/-- A tree written without anything between its tokens. -/
def text (t : Tree) : String := String.ofList (t.tokens.flatMap Token.text)

/-- A key with the value that belongs to it. -/
def fieldValue? (value? : Tree → Option Value) (field : List StringPart × Tree) :
    Option (String × Value) :=
  (StringPart.decode field.1).bind fun key =>
    (value? field.2).map fun v => (String.ofList key, v)

/-- The value of a tree whose arrays and objects nest less than `depth` deep. -/
def value? : (depth : Nat) → Tree → Option Value
  | _, atom a => a.value?
  | depth + 2, array items => (items.mapM (value? (depth + 1))).map .array
  | depth + 2, object fields =>
    (fields.mapM (fieldValue? (value? (depth + 1)))).map fun fs => .object (mergeFields fs)
  | _, _ => none

theorem itemTokens_eq (ts : List Tree) : itemTokens ts = ts.map tokens := by
  induction ts with
  | nil => rfl
  | cons t ts ih => rw [itemTokens, ih, List.map_cons]

/-- The tokens of a field. -/
def tokensOfField (field : List StringPart × Tree) : List Token :=
  .atom (.string field.1) :: .colon :: field.2.tokens

theorem fieldTokens_eq (fs : List (List StringPart × Tree)) :
    fieldTokens fs = fs.map tokensOfField := by
  induction fs with
  | nil => rfl
  | cons f fs ih => rw [fieldTokens, ih, List.map_cons, tokensOfField]

end Tree

end ModuleAtlas.Json
