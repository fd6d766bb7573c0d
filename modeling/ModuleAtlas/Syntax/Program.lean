import ModuleAtlas.Syntax.Element
import ModuleAtlas.Syntax.Statement

/-!
# Reading a module

`Rules.upTo` ties the grammar's rules together for a bounded depth of nesting; `Outline.read` reads
a text with a bound that its length makes ample. A stretch that is no statement is kept as broken,
one token at a time, and reading goes on behind it.
-/

namespace ModuleAtlas.Syntax

/-- The rules for constructs nested at most `depth` deep. -/
def Rules.upTo : (depth : Nat) → Rules
  | 0 => Rules.none
  | n + 1 =>
    { expression := fun ctx => .delay fun _ => Parser.expressionRule (Rules.upTo n) ctx
      operand := fun least tail ctx =>
        .delay fun _ => Parser.operandRule (Rules.upTo n) least tail ctx
      unary := fun ctx => .delay fun _ => Parser.unaryRule (Rules.upTo n) ctx
      type := fun ctx => .delay fun _ => Parser.typeRule (Rules.upTo n) ctx
      plainType := fun ctx => .delay fun _ => Parser.joinedTypes (Rules.upTo n) ctx
      pattern := .delay fun _ => Parser.patternRule (Rules.upTo n)
      element := .delay fun _ => Parser.elementRule (Rules.upTo n)
      statement := .delay fun _ => Parser.statementRule (Rules.upTo n) }

namespace Source

/-- The index behind a comment of markup, `<!--` or `-->` up to the end of the line. -/
def markupCommentEnd (s : Source) (i : Nat) : Option Nat :=
  if s.looksAt i "<!--".toList || s.looksAt i "-->".toList then
    some (s.skipWhile (fun c => c != '\n' && c != '\u2028' && c != '\u2029') i)
  else none

/-- The index behind the one token at `i`, for passing over it. -/
def anyTokenEnd (s : Source) (i : Nat) : Nat :=
  let j := s.nameEnd i
  if i < j then j
  else
    let k := s.numberEnd i
    if i < k then k
    else
      match s.stringEnd i with
      | some e => e
      | none => i + 1

/-- The first line of a script, when it names an interpreter. -/
def scriptLineEnd (s : Source) (i : Nat) : Option Nat :=
  if s.looksAt i ['#', '!'] then some (s.skipWhile (· != '\n') i) else none

end Source

namespace Parser

/-- A broken stretch joined to one before it. -/
def addBroken (s : Source) (i j : Nat) : List (Item × Nat) → List (Item × Nat)
  | (.broken _, k) :: rest => (.broken (s.fragment k j), k) :: rest
  | items => (.broken (s.fragment i j), i) :: items

/-- The items of a text from `i` on, last first, each with the index where it starts. -/
def itemsFrom (r : Rules) (s : Source) :
    Nat → Cursor → List (Item × Nat) → List (Item × Nat) × Cursor
  | 0, c, acc => (acc, c)
  | fuel + 1, c, acc =>
    let i := s.skipWhile Source.isGap c.pos
    if s.size ≤ i then (acc, c)
    else
      match s.commentEnd i with
      | some e =>
        itemsFrom r s fuel { c with pos := e } ((.comment (s.fragment i e), i) :: acc)
      | none =>
        match s.markupCommentEnd i with
        | some e =>
          itemsFrom r s fuel { c with pos := e }
            ((.markupComment (s.fragment i e), i) :: acc)
        | none =>
          match r.statement.run s { c with pos := i } with
          | some (stmt, c') => itemsFrom r s fuel c' ((.statement stmt, i) :: acc)
          | none =>
            let e := s.anyTokenEnd i
            itemsFrom r s fuel ⟨e, true⟩ (addBroken s i e acc)

end Parser

/-- Reads a source text. -/
def Outline.ofSource (s : Source) : Outline :=
  let r := Rules.upTo (8 * (s.size + 4))
  let start := s.skipWhile Source.isGap 0
  let (head, first) := match s.scriptLineEnd start with
    | some e => ([(Item.scriptLine (s.fragment start e), start)], e)
    | none => ([], start)
  let (items, c) := Parser.itemsFrom r s (s.size + 2) ⟨first, false⟩ head
  { items := items.reverse.map Prod.fst, hasError := c.mended }

/-- Reads a text in a dialect. -/
def Outline.read (dialect : Dialect) (text : String) : Outline :=
  Outline.ofSource (Source.ofString dialect text)

end ModuleAtlas.Syntax
