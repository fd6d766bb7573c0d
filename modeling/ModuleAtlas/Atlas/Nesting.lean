import ModuleAtlas.Path.Basic

/-!
# Modules inside modules

Linking a module links the modules it refers to, and these may refer back to it. `Nesting` holds
the modules that are being linked, outermost first; a reference to one of them is cut. A module
whose linking was cut at a module around it is incomplete: seen from elsewhere it could have more
to it.
-/

namespace ModuleAtlas.Atlas

/-- The modules being linked, outermost first, and the outermost of them at which a reference was
cut since the innermost began. -/
structure Nesting where
  stack : List Path := []
  outermostCut : Option Nat := none
deriving DecidableEq, Repr

/-- The level of a module: how many modules are around it, and the cut that was noted
before it. -/
structure Level where
  depth : Nat
  earlierCut : Option Nat
deriving DecidableEq, Repr

/-- The lower of two cuts, of which either may be missing. -/
def lowerCut : Option Nat → Option Nat → Option Nat
  | some a, some b => some (min a b)
  | some a, none => some a
  | none, b => b

namespace Nesting

/-- The number of modules being linked. -/
def depth (t : Nesting) : Nat := t.stack.length

/-- Begins a module: gives its level, or notes a cut when it is being linked already. -/
def push (t : Nesting) (p : Path) : Option Level × Nesting :=
  match t.stack.findIdx? (·.same p) with
  | some i => (none, { t with outermostCut := lowerCut t.outermostCut (some i) })
  | none => (some ⟨t.depth, t.outermostCut⟩, { stack := t.stack ++ [p], outermostCut := none })

/-- Whether no cut was noted at a module around a level. -/
def isComplete (t : Nesting) (f : Level) : Bool :=
  match t.outermostCut with
  | some cut => !decide (cut < f.depth)
  | none => true

/-- Ends a module and all that were begun inside it: gives whether it is complete. -/
def pop (t : Nesting) (f : Level) : Bool × Nesting :=
  (t.isComplete f,
    { stack := t.stack.take f.depth, outermostCut := lowerCut t.outermostCut f.earlierCut })

end Nesting

end ModuleAtlas.Atlas
