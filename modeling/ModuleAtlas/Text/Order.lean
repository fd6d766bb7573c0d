/-!
# The order of texts

Texts are ordered by the code points of their first different characters; a text comes before all
that it starts.
-/

namespace ModuleAtlas.Text

/-- Whether a list of characters comes before another. -/
def charsBefore : List Char → List Char → Bool
  | _, [] => false
  | [], _ :: _ => true
  | a :: as, b :: bs => if a = b then charsBefore as bs else decide (a.toNat < b.toNat)

/-- Whether a text comes before another. -/
def before (a b : String) : Bool := charsBefore a.toList b.toList

/-- Texts in order; equal ones keep their places. -/
def sort (texts : List String) : List String := texts.mergeSort fun a b => !before b a

end ModuleAtlas.Text
