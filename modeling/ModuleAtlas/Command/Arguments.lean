/-!
# Command-line arguments

The grammar of the command line: options that hold everywhere, a command, and the command's own
options and operands. An option takes its value from the next argument or behind `=`. Arguments
behind `--` are operands.
-/

namespace ModuleAtlas.Command

/-- Options that every command takes. -/
structure Options where
  root : String := "."
  extensions : List String := []
  format : String := "text"
  verbose : Bool := false
deriving DecidableEq, Repr

/-- What is asked for. -/
inductive Request where
  /-- The file that a specifier means, seen from a file. -/
  | resolve (specifier : String) (file : String)
  /-- The exports of a path, or of what a specifier means when a file is given. -/
  | exports (target : String) (file : Option String)
  /-- The import at a position of a file, and maybe what it exports. -/
  | importAt (file : String) (line character : Nat) (languageId : Option String)
      (withExports : Bool)
deriving DecidableEq, Repr

/-! ## Splitting arguments -/

/-- The options a list of arguments may hold. -/
structure OptionNames where
  valued : List String
  switches : List String
deriving DecidableEq, Repr

/-- The options that hold everywhere. -/
def sharedOptions : OptionNames := ⟨["root", "ext", "format"], ["verbose"]⟩

/-- The switches that have a letter. -/
def switchOfLetter : Char → Option String
  | 'v' => some "verbose"
  | _ => none

/-- Options and operands as given, in order. -/
structure Given where
  values : List (String × String) := []
  switches : List String := []
  operands : List String := []
deriving DecidableEq, Repr

/-- One argument by its form. -/
inductive Argument where
  /-- `--`. -/
  | endOfOptions
  /-- `--name` or `--name=value`. -/
  | long (name : String) (value : Option String)
  /-- Letters behind a dash. -/
  | short (letters : List Char)
  | operand (text : String)
deriving DecidableEq, Repr

/-- The form of an argument. -/
def Argument.of (text : String) : Argument :=
  match text.toList with
  | ['-', '-'] => .endOfOptions
  | '-' :: '-' :: cs =>
    let name := String.ofList (cs.takeWhile (· != '='))
    match cs.dropWhile (· != '=') with
    | _ :: value => .long name (some (String.ofList value))
    | [] => .long name none
  | ['-'] => .operand text
  | '-' :: cs => .short cs
  | _ => .operand text

/-- Splits arguments into options and operands. Where `stops` is set, the first operand ends the
options and is given with all behind it. None when an option is unknown, lacks its value, or is
given one that it does not take. -/
def splitArguments (names : OptionNames) (stops : Bool) :
    List String → Given → Option (Given × List String)
  | [], g => some (g, [])
  | a :: rest, g =>
    match Argument.of a with
    | .endOfOptions =>
      if stops then none else some ({ g with operands := g.operands ++ rest }, [])
    | .operand text =>
      if stops then some (g, a :: rest)
      else splitArguments names stops rest { g with operands := g.operands ++ [text] }
    | .short letters =>
      match letters.mapM switchOfLetter with
      | some found => splitArguments names stops rest { g with switches := g.switches ++ found }
      | none => none
    | .long name (some value) =>
      if names.valued.contains name then
        splitArguments names stops rest { g with values := g.values ++ [(name, value)] }
      else none
    | .long name none =>
      if names.switches.contains name then
        splitArguments names stops rest { g with switches := g.switches ++ [name] }
      else if names.valued.contains name then
        match rest with
        | value :: rest =>
          match Argument.of value with
          | .operand _ =>
            splitArguments names stops rest { g with values := g.values ++ [(name, value)] }
          | _ => none
        | [] => none
      else none

/-! ## Options -/

/-- The values given for an option. -/
def Given.valuesOf (g : Given) (name : String) : List String :=
  (g.values.filter (·.1 == name)).map (·.2)

/-- The value of an option that may be given once. -/
def Given.single? (g : Given) (name : String) : Option (Option String) :=
  match g.valuesOf name with
  | [] => some none
  | [v] => some (some v)
  | _ => none

/-- The value of an option that may be given once and names a path. -/
def Given.path? (g : Given) (name : String) : Option (Option String) :=
  match g.single? name with
  | some (some v) => if v.isEmpty then none else some (some v)
  | other => other

/-- Whether a switch is given, which may be done once. -/
def Given.switch? (g : Given) (name : String) : Option Bool :=
  match (g.switches.filter (· == name)).length with
  | 0 => some false
  | 1 => some true
  | _ => none

/-- The items of a list written with commas. -/
def splitCommas : List Char → List (List Char)
  | [] => [[]]
  | c :: cs =>
    if c = ',' then [] :: splitCommas cs
    else
      match splitCommas cs with
      | [] => [[c]]
      | item :: more => (c :: item) :: more

/-- Options changed by those given. -/
def Given.shared? (g : Given) (o : Options) : Option Options := do
  let root ← g.path? "root"
  let format ← g.single? "format"
  let verbose ← g.switch? "verbose"
  let extensions := (g.valuesOf "ext").flatMap fun v => (splitCommas v.toList).map String.ofList
  return {
    root := root.getD o.root
    extensions := if extensions.isEmpty then o.extensions else extensions
    format := format.getD o.format
    verbose := o.verbose || verbose }

/-! ## Commands -/

/-- The greatest number an argument may be. -/
def maxNumber : Nat := Nat.pow 2 64 - 1

/-- A natural number, with or without a plus sign. -/
def number? (text : String) : Option Nat :=
  let digits := match text.toList with
    | '+' :: cs => cs
    | cs => cs
  if digits.isEmpty || !digits.all Char.isDigit then none
  else
    let n := digits.foldl (fun n d => n * 10 + (d.toNat - '0'.toNat)) 0
    if n ≤ maxNumber then some n else none

/-- The value of an option that may be given once and is a number. -/
def Given.number? (g : Given) (name : String) : Option (Option Nat) :=
  match g.single? name with
  | some (some v) => (Command.number? v).map some
  | some none => some none
  | none => none

/-- The only operand. -/
def Given.operand? (g : Given) : Option String :=
  match g.operands with
  | [text] => some text
  | _ => none

/-- The options of a command by its name, beside those that hold everywhere. -/
def commandOptions : String → Option OptionNames
  | "resolve" => some ⟨["from"], []⟩
  | "exports" => some ⟨["from"], []⟩
  | "import-at" => some ⟨["line", "character", "language-id"], ["exports"]⟩
  | _ => none

/-- The request of a command with what is given to it. -/
def requestOf? (command : String) (g : Given) : Option Request := do
  let operand ← g.operand?
  match command with
  | "resolve" => return .resolve operand (← ← g.path? "from")
  | "exports" => return .exports operand (← g.path? "from")
  | _ =>
    guard !operand.isEmpty
    let line ← ← g.number? "line"
    let character := (← g.number? "character").getD 0
    return .importAt operand line character (← g.single? "language-id") (← g.switch? "exports")

/-- Options and request of a command line; none when it is not well formed. -/
def parse? (args : List String) : Option (Options × Request) := do
  let (before, rest) ← splitArguments sharedOptions true args {}
  match rest with
  | [] => none
  | command :: rest =>
    let own ← commandOptions command
    let names : OptionNames :=
      ⟨sharedOptions.valued ++ own.valued, sharedOptions.switches ++ own.switches⟩
    let (given, _) ← splitArguments names false rest {}
    let options ← given.shared? (← before.shared? {})
    return (options, ← requestOf? command given)

end ModuleAtlas.Command
