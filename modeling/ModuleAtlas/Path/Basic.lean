import ModuleAtlas.Text.Order

/-!
# Paths

A path is its text; what it says is its list of components. Two texts are the same path when
their components agree, so `a/./b`, `a//b` and `a/b/` are `a/b`, while `./a` is not `a` and `..` is
kept. Joining and taking the parent work on the text and keep what the components forget.
-/

namespace ModuleAtlas

/-- A step of a path. -/
inductive Component where
  | root
  | here
  | parent
  | name (text : String)
deriving DecidableEq, Repr

namespace Component

/-- The rank of a component's kind: the root first, names last. -/
def rank : Component → Nat
  | root => 0
  | here => 1
  | parent => 2
  | name _ => 3

/-- The order of components: by rank, names among themselves by their characters. -/
def before : Component → Component → Bool
  | name a, name b => Text.before a b
  | a, b => decide (a.rank < b.rank)

/-- A component as it is written. -/
def text : Component → String
  | root => "/"
  | here => "."
  | parent => ".."
  | name s => s

end Component

/-- A path, given by its text. -/
structure Path where
  text : String
deriving DecidableEq, Repr

namespace Path

/-- The texts between slashes; a text without a slash is one segment. -/
def segmentsOf : List Char → List (List Char)
  | [] => [[]]
  | c :: rest =>
    if c = '/' then [] :: segmentsOf rest
    else
      match segmentsOf rest with
      | [] => [[c]]
      | s :: more => (c :: s) :: more

/-- The component a segment stands for, unless it is empty or a dot. -/
def componentOf (s : List Char) : Option Component :=
  if s = [] ∨ s = ['.'] then none
  else if s = ['.', '.'] then some .parent
  else some (.name (String.ofList s))

/-- Whether a path starts at the root. -/
def isAbsolute (p : Path) : Bool :=
  p.text.toList.head? == some '/'

/-- The segments of a path's text. -/
def segments (p : Path) : List (List Char) :=
  segmentsOf p.text.toList

/-- The components of a path: empty segments and dots count for nothing, except a dot that starts
a relative path. -/
def components (p : Path) : List Component :=
  match p.segments with
  | [] => []
  | first :: rest =>
    if p.isAbsolute then .root :: rest.filterMap componentOf
    else if first = ['.'] then .here :: rest.filterMap componentOf
    else (first :: rest).filterMap componentOf

/-- Two texts name the same path when their components agree. -/
def same (p q : Path) : Bool :=
  p.components == q.components

/-- The order of component lists: by the first difference, a part before the whole. -/
def componentsBefore : List Component → List Component → Bool
  | [], [] => false
  | [], _ :: _ => true
  | _ :: _, [] => false
  | a :: as, b :: bs => if a = b then componentsBefore as bs else a.before b

/-- Whether a path comes before another. -/
def before (p q : Path) : Bool :=
  componentsBefore p.components q.components

/-- Whether the components of `q` start those of `p`. -/
def startsWith (p q : Path) : Bool :=
  q.components.isPrefixOf p.components

/-- A path with text appended to its end. -/
def append (p : Path) (suffix : String) : Path :=
  ⟨p.text ++ suffix⟩

/-- A path inside another: an absolute one replaces it, any other is put behind a slash. -/
def join (p : Path) (q : String) : Path :=
  if (⟨q⟩ : Path).isAbsolute then ⟨q⟩
  else if p.text = "" ∨ p.text.toList.getLast? = some '/' then ⟨p.text ++ q⟩
  else ⟨p.text ++ "/" ++ q⟩

instance : HDiv Path String Path := ⟨join⟩

/-! ## The last component -/

/-- Segments that stand for a component, of those behind the first. -/
def isSolid (s : List Char) : Bool :=
  (componentOf s).isSome

/-- The segments with the last component taken off and the trailing blanks of the text with it;
none when no component is left to take. -/
def dropLastSolid (rest : List (List Char)) : Option (List (List Char)) :=
  match rest.reverse.dropWhile (!isSolid ·) with
  | [] => none
  | _ :: more => some (more.dropWhile (!isSolid ·)).reverse

/-- Segments joined by slashes. -/
def ofSegments (segments : List (List Char)) : Path :=
  ⟨String.ofList (List.intercalate ['/'] segments)⟩

/-- The path without its last component; none for the root and for the empty path. -/
def parent? (p : Path) : Option Path :=
  match p.segments with
  | [] => none
  | first :: rest =>
    match dropLastSolid rest with
    | some kept =>
      if p.isAbsolute && kept.isEmpty then some ⟨"/"⟩ else some (ofSegments (first :: kept))
    | none => if p.isAbsolute || p.text = "" then none else some ⟨""⟩

/-- The last component, when it is a name. -/
def fileName? (p : Path) : Option String :=
  match p.components.getLast? with
  | some (.name s) => some s
  | _ => none

/-- The text behind the last dot of a name, unless that dot is the first character. -/
def extensionOf (name : List Char) : Option String :=
  let tail := name.reverse.takeWhile (· != '.')
  match name.reverse.dropWhile (· != '.') with
  | [] => none
  | [_] => none
  | _ :: _ :: _ => some (String.ofList tail.reverse)

/-- The extension of the last component: `.ts` has none, `a.` has the empty one. -/
def extension? (p : Path) : Option String :=
  p.fileName?.bind (extensionOf ·.toList)

/-! ## Normal form -/

/-- One more component behind components in normal form, in reverse order. A `..` takes a name
back, stands still at the root, and stays in front of a relative path. -/
def normalStep (acc : List Component) (c : Component) : List Component :=
  match c, acc with
  | .here, acc => acc
  | .parent, .name _ :: rest => rest
  | .parent, .root :: rest => .root :: rest
  | .parent, acc => .parent :: acc
  | c, acc => c :: acc

/-- Components without `.` and with `..` only at the front of a relative path. -/
def normalComponents (cs : List Component) : List Component :=
  (cs.foldl normalStep []).reverse

/-- The text of a list of components. -/
def render : List Component → String
  | .root :: rest => "/" ++ String.intercalate "/" (rest.map Component.text)
  | cs => String.intercalate "/" (cs.map Component.text)

/-- The path of a list of components. -/
def ofComponents (cs : List Component) : Path :=
  ⟨render cs⟩

/-- The path with `.` and `..` worked out on the text alone. -/
def normalize (p : Path) : Path :=
  ofComponents (normalComponents p.components)

end Path

end ModuleAtlas
