import ModuleAtlas.Syntax.Source

/-!
# Readers

A reader of a source text: it either fails and leaves no trace, or gives a value and the place
where it stopped. A reader never goes back, which it carries as a proof; so whatever is put together
from readers only goes forward too. Alternatives are tried in order, each from the same place.
`mended` remembers that a closing brace had to be supplied or a broken stretch was passed over.

Repetition is `loop`, bounded by the size of the text; nothing here recurs without a bound.
-/

namespace ModuleAtlas.Syntax

/-- A place in the text. -/
structure Cursor where
  pos : Nat
  mended : Bool

/-- A reader of values of type `α`: what it gives and the place where it stopped, which is not before
the place where it started. -/
structure Parser (α : Type) where
  run : Source → Cursor → Option (α × Cursor)
  forward : ∀ {s : Source} {c c' : Cursor} {a : α}, run s c = some (a, c') → c.pos ≤ c'.pos

namespace Parser

/-- The reader that takes nothing and gives something about the place. -/
@[inline] def look {α : Type} (view : Source → Cursor → α) : Parser α where
  run s c := some (view s c, c)
  forward h := by
    cases h
    exact Nat.le_refl _

/-- The reader that takes nothing. -/
@[inline] protected def pure {α : Type} (a : α) : Parser α := look fun _ _ => a

/-- One reader after another. -/
@[inline] protected def bind {α β : Type} (p : Parser α) (f : α → Parser β) : Parser β where
  run s c :=
    match p.run s c with
    | none => none
    | some (a, c') => (f a).run s c'
  forward h := by
    split at h
    · cases h
    · next first => exact Nat.le_trans (p.forward first) ((f _).forward h)

instance : Monad Parser where
  pure := Parser.pure
  bind := Parser.bind

/-- The reader that fails. -/
@[inline] protected def fail {α : Type} : Parser α where
  run _ _ := none
  forward h := by cases h

/-- The second reader from the same place when the first fails. -/
@[inline] protected def orElse {α : Type} (p : Parser α) (q : Unit → Parser α) : Parser α where
  run s c :=
    match p.run s c with
    | none => (q ()).run s c
    | some r => some r
  forward h := by
    split at h
    · exact (q ()).forward h
    · next first =>
      cases h
      exact p.forward first

instance : Alternative Parser where
  failure := Parser.fail
  orElse := Parser.orElse

/-- A reader that is only built when it is run. -/
@[inline] def delay {α : Type} (p : Unit → Parser α) : Parser α where
  run s c := (p ()).run s c
  forward h := (p ()).forward h

/-! ## Places -/

/-- The text being read. -/
@[inline] def source : Parser Source := look fun s _ => s

/-- The current index. -/
@[inline] def position : Parser Nat := look fun _ c => c.pos

/-- Goes on from an index, which must not be before the current one. -/
@[inline] def moveTo (i : Nat) : Parser Unit where
  run _ c := if c.pos ≤ i then some ((), { c with pos := i }) else none
  forward h := by
    split at h
    · cases h
      assumption
    · cases h

/-- Notes that something missing was supplied. -/
@[inline] def mend : Parser Unit where
  run _ c := some ((), { c with mended := true })
  forward h := by
    cases h
    exact Nat.le_refl _

/-- The index of the next token, which becomes the current one. -/
@[inline] def token : Parser Nat where
  run s c :=
    let i := s.tokenStart c.pos
    some (i, { c with pos := i })
  forward h := by
    cases h
    exact Source.le_tokenStart _ _

/-- The character that starts the next token, without taking it. -/
@[inline] def peekChar : Parser Char := look fun s c => s.charAt (s.tokenStart c.pos)

/-- The operator at the next token, without taking it. -/
@[inline] def peekOperator : Parser String := look fun s c => s.operatorAt (s.tokenStart c.pos)

/-- The name at the next token, without taking it; empty when it is no name. -/
@[inline] def peekName : Parser String := look fun s c => s.nameAt (s.tokenStart c.pos)

/-- Whether only blanks and comments are left. -/
@[inline] def atEnd : Parser Bool := look fun s c => s.size ≤ s.tokenStart c.pos

/-- The piece from `i` to the current place. -/
@[inline] def since (i : Nat) : Parser Fragment := look fun s c => s.fragment i c.pos

/-- The text from `i` to the current place. -/
@[inline] def textSince (i : Nat) : Parser String := look fun s c => s.slice i c.pos

/-! ## Combinators -/

/-- Fails unless the condition holds. -/
@[inline] def require (b : Bool) : Parser Unit := if b then Parser.pure () else Parser.fail

/-- Whether a reader succeeds here; nothing is taken. -/
@[inline] def succeeds {α : Type} (p : Parser α) : Parser Bool := look fun s c => (p.run s c).isSome

/-- A reader that may fail, in which case nothing is taken. -/
@[inline] def optional {α : Type} (p : Parser α) : Parser (Option α) where
  run s c :=
    match p.run s c with
    | none => some (none, c)
    | some (a, c') => some (some a, c')
  forward h := by
    split at h
    · cases h
      exact Nat.le_refl _
    · next first =>
      cases h
      exact p.forward first

/-- Whether a reader was there to take. -/
@[inline] def took {α : Type} (p : Parser α) : Parser Bool := do
  return (← optional p).isSome

/-- At most `n` steps; a step that gives none ends the loop. -/
def loopWithin {α : Type} (step : α → Parser (Option α)) : Nat → α → Parser α
  | 0, a => Parser.pure a
  | n + 1, a => do
    match ← step a with
    | none => Parser.pure a
    | some b => loopWithin step n b

/-- Repeats a step until it gives none; each step takes at least one character, so the size of the
text bounds the number of steps. -/
def loop {α : Type} (init : α) (step : α → Parser (Option α)) : Parser α where
  run s c := (loopWithin step (s.size + 2) init).run s c
  forward h := (loopWithin step _ init).forward h

/-- A reader as often as it succeeds and moves forward. -/
def many {α : Type} (p : Parser α) : Parser (List α) := do
  let found ← loop ([] : List α) fun acc => do
    let before ← position
    match ← optional p with
    | none => return none
    | some a =>
      let behind ← position
      if before < behind then return some (a :: acc) else return none
  return found.reverse

/-! ## Tokens -/

/-- Takes what stands at the next token; `read` gives its value and the index behind it. -/
@[inline] def taking {α : Type} (read : Source → Nat → Option (α × Nat))
    (ahead : ∀ (s : Source) (i j : Nat) (a : α), read s i = some (a, j) → i ≤ j) : Parser α where
  run s c :=
    match read s (s.tokenStart c.pos) with
    | none => none
    | some (a, j) => some (a, { c with pos := j })
  forward h := by
    split at h
    · cases h
    · next found =>
      cases h
      exact Nat.le_trans (Source.le_tokenStart _ _) (ahead _ _ _ _ found)

/-- Takes the operator `op`, when it is the whole operator at the next token. -/
def operator (op : String) : Parser Unit :=
  taking (fun s i => if s.operatorAt i == op then some ((), i + op.length) else none) (by grind)

/-- Takes one character at the next token, whatever operator it may start. -/
def symbol (ch : Char) : Parser Unit :=
  taking (fun s i => if i < s.size && s.charAt i == ch then some ((), i + 1) else none) (by grind)

/-- Takes any name. -/
def anyName : Parser Fragment :=
  taking (fun s i =>
    let j := s.nameEnd i
    if i < j then some (s.fragment i j, j) else none) (by grind)

/-- Takes the name `w`. -/
def word (w : String) : Parser Unit :=
  taking (fun s i =>
    let j := s.nameEnd i
    if i < j && s.slice i j == w then some ((), j) else none) (by grind)

/-- Takes a string literal, quotes included. -/
def stringLiteral : Parser Fragment :=
  taking (fun s i => (s.stringEnd i).map fun j => (s.fragment i j, j)) (by
    intro s i j a h
    obtain ⟨k, found, whole⟩ := Option.map_eq_some_iff.mp h
    cases whole
    exact Nat.le_of_lt (Source.lt_stringEnd found))

/-- Takes a number. -/
def number : Parser Unit :=
  taking (fun s i =>
    let j := s.numberEnd i
    if i < j then some ((), j) else none) (by grind)

/-- One item or more, with commas between them. -/
def separated {α : Type} (item : Parser α) : Parser Unit := do
  discard item
  discard <| many do
    operator ","
    item

/-- Items between commas, up to a closing character that is taken too; items may be left out. -/
def listUntil {α : Type} (close : Char) (item : Parser α) : Parser (List α) := do
  let found ← loop ((([] : List α), false)) fun (acc, done) => do
    if done then return none
    if ← took (symbol close) then return some (acc, true)
    if ← took (symbol ',') then return some (acc, false)
    let a ← item
    let next ← peekChar
    require (next == ',' || next == close)
    return some (a :: acc, false)
  require found.2
  return found.1.reverse

end Parser

end ModuleAtlas.Syntax
