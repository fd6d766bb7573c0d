import ModuleAtlas.Path.Basic

/-!
# File trees

A tree of directories and files, held as a list of absolute paths given by their segments. Looking
up a path walks it segment by segment: each step leads out of a directory, `.` and empty segments
stay there, and `..` leads back. So `a/../b` is there only if `a` is a directory, and a path that
ends in a slash only if it names a directory.
-/

namespace ModuleAtlas

/-- What a file holds: text, or bytes that are no text. -/
inductive Content where
  | text (s : String)
  | binary
deriving DecidableEq, Repr

/-- What stands at a path. -/
inductive Node where
  | directory
  | file (content : Content)
deriving DecidableEq, Repr

/-- A file tree: its nodes by the segments of their paths. The root is always there. -/
structure Tree where
  nodes : List (List String × Node) := []
deriving DecidableEq, Repr

namespace Tree

/-- The node at a list of segments. -/
def node? (t : Tree) : List String → Option Node
  | [] => some .directory
  | place => (t.nodes.find? (·.1 == place)).map (·.2)

/-- One step of a walk through the tree. -/
def step (t : Tree) (here : List String) (segment : String) : Option (List String) :=
  if t.node? here ≠ some .directory then none
  else if segment = "" ∨ segment = "." then some here
  else if segment = ".." then some here.dropLast
  else
    let next := here ++ [segment]
    if (t.node? next).isSome then some next else none

/-- The segments behind the leading slash of an absolute path. -/
def segmentsBelowRoot (p : Path) : List String := (p.segments.drop 1).map String.ofList

/-- Where the walk along an absolute path ends. -/
def locate? (t : Tree) (p : Path) : Option (List String) :=
  if p.isAbsolute then (segmentsBelowRoot p).foldlM t.step [] else none

/-- The node at a path. -/
def get? (t : Tree) (p : Path) : Option Node := (t.locate? p).bind t.node?

/-- Whether anything stands at a path. -/
def has (t : Tree) (p : Path) : Bool := (t.get? p).isSome

/-- Whether a path names a directory. -/
def isDirectory (t : Tree) (p : Path) : Bool := t.get? p = some .directory

/-- Whether a path names a file. -/
def isFile (t : Tree) (p : Path) : Bool :=
  match t.get? p with
  | some (.file _) => true
  | _ => false

/-- The text of a file. -/
def read? (t : Tree) (p : Path) : Option String :=
  match t.get? p with
  | some (.file (.text s)) => some s
  | _ => none

/-- The path of what a path leads to, without `.` and `..`. -/
def canonical? (t : Tree) (p : Path) : Option Path :=
  (t.locate? p).map fun here => ⟨"/" ++ String.intercalate "/" here⟩

/-- The name of a node directly below a list of segments. -/
def childName? (here : List String) (place : List String) : Option String :=
  match place.getLast? with
  | some name => if place.dropLast == here then some name else none
  | none => none

/-- The names in a directory. -/
def children (t : Tree) (p : Path) : List String :=
  match t.locate? p with
  | some here => t.nodes.filterMap fun n => childName? here n.1
  | none => []

/-- The number of nodes below the root. -/
def size (t : Tree) : Nat := t.nodes.length

/-! ## Changes -/

/-- The tree with a node at a list of segments. -/
def set (t : Tree) (place : List String) (n : Node) : Tree :=
  ⟨t.nodes.filter (·.1 != place) ++ [(place, n)]⟩

/-- One step of a walk that makes the directories it misses; none where a file is in the way. -/
def makeStep (acc : Tree × List String) (segment : String) : Option (Tree × List String) :=
  let (t, here) := acc
  if segment = "" ∨ segment = "." then some acc
  else if segment = ".." then some (t, here.dropLast)
  else
    let next := here ++ [segment]
    match t.node? next with
    | some .directory => some (t, next)
    | some (.file _) => none
    | none => some (t.set next .directory, next)

/-- The tree with a directory and those above it. -/
def makeDirectory (t : Tree) (p : Path) : Tree :=
  match (segmentsBelowRoot p).foldlM makeStep (t, []) with
  | some (t, _) => t
  | none => t

/-- The tree with a file and the directories above it; as it is where that cannot be. -/
def write (t : Tree) (p : Path) (content : Content) : Tree :=
  let segments := segmentsBelowRoot p
  match segments.getLast?, segments.dropLast.foldlM makeStep (t, []) with
  | some name, some (t, here) =>
    if name = "" ∨ name = "." ∨ name = ".." then t
    else
      let place := here ++ [name]
      if t.node? place = some .directory then t else t.set place (.file content)
  | _, _ => t

/-- The tree without a file, or without a directory and all below it. -/
def delete (t : Tree) (p : Path) : Tree :=
  match t.locate? p with
  | some here => ⟨t.nodes.filter fun n => !here.isPrefixOf n.1⟩
  | none => t

end Tree

end ModuleAtlas
