/-!
# White space

The characters with the Unicode property White_Space, and the two operations every reader of
this library needs from them: trimming, and removing every blank.
-/

namespace ModuleAtlas.Text

/-- The characters that Unicode counts as white space. -/
def isBlank (c : Char) : Bool :=
  let n := c.toNat
  (9 ≤ n && n ≤ 13) || n == 0x20 || n == 0x85 || n == 0xA0 || n == 0x1680 ||
    (0x2000 ≤ n && n ≤ 0x200A) || n == 0x2028 || n == 0x2029 || n == 0x202F ||
    n == 0x205F || n == 0x3000

/-- Blanks at the front are dropped. -/
def trimFront (cs : List Char) : List Char :=
  cs.dropWhile isBlank

/-- Blanks at the end are dropped. -/
def trimBack (cs : List Char) : List Char :=
  (cs.reverse.dropWhile isBlank).reverse

/-- A text without the blanks at its two ends. -/
def trim (s : String) : String :=
  String.ofList (trimBack (trimFront s.toList))

/-- A text without any of its blanks. -/
def withoutBlanks (s : String) : String :=
  String.ofList (s.toList.filter (!isBlank ·))

end ModuleAtlas.Text
