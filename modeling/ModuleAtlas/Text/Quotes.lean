/-!
# Quotes around a literal

A string literal is known by its text with the quotes, and used by its text without them.
-/

namespace ModuleAtlas.Text

/-- The three characters that delimit a literal. -/
def isQuote (c : Char) : Bool :=
  c == '\x27' || c == '"' || c == '\x60'

/-- Every quote at either end is dropped, also when they do not match; escapes stay as written. -/
def withoutQuotes (s : String) : String :=
  String.ofList (((s.toList.dropWhile isQuote).reverse.dropWhile isQuote).reverse)

end ModuleAtlas.Text
