import ModuleAtlas.Project
import ModuleAtlas.Proofs.Resolution

/-!
# Changes of files that were found by an extension

A path without its extension is completed by a whole extension of the project, dots inside included
(`Resolution.candidates`), while a change is filtered by what stands behind the last dot of the
changed file's name (`affectsAnswers`). The name of a completed path ends in the whole extension
(`Path.segments_append`), so its own extension is the last part of that one, or nothing if the
name has no other dot in front (`extensionOf_append_dot`). So the change of a completed path is
noticed exactly if the last part of its extension is known by itself (`Heard`), as it always is when
the extension has no dot inside (`heard_of_bare`), and the path does not end in a slash
(`candidates_noticed_iff`).
-/

namespace ModuleAtlas

open ModuleAtlas.Path (IsName extensionOf)
open Resolution (Slashless candidates fileFor)

/-! ## The last dot -/

/-- What stands behind the last dot of an extension. -/
def lastPart (extension : String) : String :=
  String.ofList (extension.toList.reverse.takeWhile (· != '.')).reverse

/-- An extension without the dots it starts with. -/
def bare (extension : String) : String :=
  String.ofList (extension.toList.dropWhile (· == '.'))

/-- Whether the last part of an extension is known by itself: always, or as an extension of the
project. -/
def Heard (extensions : List String) (extension : String) : Prop :=
  lastPart extension ∈ fixedExtensions ∨ ∃ known ∈ extensions, bare known = lastPart extension

section LastDot

variable {tail : List Char}

theorem takeWhile_reverse_dot (front : List Char) (dotless : '.' ∉ tail) :
    (front ++ '.' :: tail).reverse.takeWhile (· != '.') = tail.reverse ∧
      (front ++ '.' :: tail).reverse.dropWhile (· != '.') = '.' :: front.reverse := by
  have all : ∀ c ∈ tail.reverse, (c != '.') = true := by
    intro c inside
    rw [bne_iff_ne]
    rintro rfl
    exact dotless (List.mem_reverse.mp inside)
  have turned : (front ++ '.' :: tail).reverse = tail.reverse ++ '.' :: front.reverse := by simp
  rw [turned, List.takeWhile_append_of_pos all, List.dropWhile_append_of_pos all]
  simp

/-- A name has the extension behind its last dot, unless it starts with that dot. -/
theorem extensionOf_append_dot (front : List Char) (dotless : '.' ∉ tail) :
    extensionOf (front ++ '.' :: tail) =
      if front = [] then none else some (String.ofList tail) := by
  obtain ⟨taken, dropped⟩ := takeWhile_reverse_dot front dotless
  rw [extensionOf, taken, dropped]
  rcases List.eq_nil_or_concat front with rfl | ⟨front, c, rfl⟩
  · rfl
  · simp

theorem lastPart_eq {extension : String} {front : List Char}
    (whole : extension.toList = front ++ '.' :: tail) (dotless : '.' ∉ tail) :
    lastPart extension = String.ofList tail := by
  rw [lastPart, whole, (takeWhile_reverse_dot front dotless).1, List.reverse_reverse]

end LastDot

/-- The last dot of a text divides it. -/
theorem exists_lastDot {cs : List Char} (dotted : '.' ∈ cs) :
    ∃ front tail, cs = front ++ '.' :: tail ∧ '.' ∉ tail := by
  obtain ⟨tail, front, turned, dotless⟩ :=
    List.eq_append_cons_of_mem (List.mem_reverse.mpr dotted)
  refine ⟨front.reverse, tail.reverse, ?_, by simpa using dotless⟩
  rw [← List.reverse_reverse cs, turned]
  simp

/-! ## Extensions of a project -/

/-- The extensions of a project start with a dot. -/
theorem head?_of_mem_extensions {root : Path} {given : List String} {e : String}
    (member : e ∈ (Project.ofRoot root given).extensions) : e.toList.head? = some '.' := by
  rw [Project.ofRoot] at member
  dsimp only at member
  split at member
  · have usual : ∀ e ∈ Project.usualExtensions, e.toList.head? = some '.' := by decide
    exact usual e member
  · obtain ⟨g, -, rfl⟩ := List.mem_map.mp member
    rw [Project.dotted]
    split
    · assumption
    · rw [String.toList_append]
      rfl

/-- An extension without a dot inside is known by itself. -/
theorem heard_of_bare {extensions : List String} {e : String} (member : e ∈ extensions)
    (dotted : e.toList.head? = some '.') (single : '.' ∉ (bare e).toList) : Heard extensions e := by
  have body : (bare e).toList = e.toList.dropWhile (· == '.') := String.toList_ofList
  have cut : e.toList.takeWhile (· == '.') ++ e.toList.dropWhile (· == '.') = e.toList :=
    List.takeWhile_append_dropWhile
  rcases List.eq_nil_or_concat (e.toList.takeWhile (· == '.')) with none | ⟨front, c, dots⟩
  · rw [none, List.nil_append] at cut
    rw [body, cut] at single
    exact absurd (List.mem_of_head? dotted) single
  · have isDot : c = '.' := by
      have inside : c ∈ e.toList.takeWhile (· == '.') := by simp [dots]
      simpa using List.all_eq_true.mp List.all_takeWhile c inside
    have whole : e.toList = front ++ '.' :: (bare e).toList := by
      rw [← cut, dots, body, isDot]
      simp
    exact .inr ⟨e, member, by rw [lastPart_eq whole single, String.ofList_toList]⟩

theorem mem_of_mem_bare {e : String} {cs : List Char} (text : e.toList = '.' :: cs) {c : Char}
    (inside : c ∈ (bare e).toList) : c ∈ cs := by
  rw [bare, String.toList_ofList, text, List.dropWhile_cons_of_pos (by simp)] at inside
  exact (List.dropWhile_sublist _).subset inside

/-! ## Names -/

namespace Path

/-- A text that does not end in a dot and has no slash is a name. -/
theorem isName_of_getLast? {cs : List Char} (nonempty : cs ≠ []) (undotted : cs.getLast? ≠ some '.')
    (slashless : '/' ∉ cs) : IsName cs := by
  refine ⟨nonempty, ?_, ?_, slashless⟩ <;> rintro rfl <;> exact undotted rfl

/-- Nothing stands behind the last slash exactly if the text ends in it. -/
theorem getLast?_eq_slash_iff {p : Path} {front : List (List Char)} {s : List Char}
    (pieces : p.segments = front ++ [s]) (text : p.text ≠ "") :
    p.text.toList.getLast? = some '/' ↔ s = [] := by
  have noSlash : '/' ∉ s := slashless_of_mem_segments (p := p) (by rw [pieces]; simp)
  have whole := text_eq_intercalate pieces
  cases front with
  | nil =>
    have whole : p.text.toList = s := by simpa using whole
    rw [whole]
    constructor
    · exact fun ends => absurd (List.mem_of_getLast? ends) noSlash
    · intro empty
      exact absurd (String.toList_eq_nil_iff.mp (whole.trans empty)) text
  | cons first rest =>
    rw [whole, intercalate_concat (by simp)]
    rcases List.eq_nil_or_concat s with rfl | ⟨more, c, rfl⟩
    · simp
    · have notSlash : c ≠ '/' := by
        rintro rfl
        exact noSlash (by simp)
      rw [List.concat_eq_append, ← List.cons_append, ← List.append_assoc, List.getLast?_concat]
      simp [notSlash]

end Path

/-! ## Candidates -/

/-- When a change of a file of a given name is noticed. -/
theorem affectsAnswers_iff {q : Path} {extensions : List String} {front tail : List Char}
    (named : q.fileName? = some (String.ofList (front ++ '.' :: tail))) (dotless : '.' ∉ tail) :
    affectsAnswers q extensions = true ↔
      String.ofList (front ++ '.' :: tail) ∈ resolutionFiles ∨
        front ≠ [] ∧ (String.ofList tail ∈ fixedExtensions ∨
          ∃ known ∈ extensions, bare known = String.ofList tail) := by
  have own : q.extension? = if front = [] then none else some (String.ofList tail) := by
    rw [Path.extension?, named, Option.bind_some, String.toList_ofList,
      extensionOf_append_dot front dotless]
  rw [affectsAnswers, named, own, Option.getD_some]
  by_cases starts : front = [] <;> simp [starts, bare]

/-- The names that configure resolution have one dot, and not in front. -/
theorem dots_of_mem_resolutionFiles :
    ∀ n ∈ resolutionFiles, n.toList.count '.' = 1 ∧ n.toList.head? ≠ some '.' := by
  decide

/-- A change of a file whose name ends in an extension of the project is noticed exactly if the last
part of the extension is known by itself and the name does not start with its only dot. -/
theorem affectsAnswers_iff_heard {q : Path} {extensions : List String} {e : String}
    {s cs : List Char} (member : e ∈ extensions) (text : e.toList = '.' :: cs)
    (named : q.fileName? = some (String.ofList (s ++ e.toList))) :
    affectsAnswers q extensions = true ↔ Heard extensions e ∧ (s = [] → '.' ∈ cs) := by
  have dotted : '.' ∈ e.toList := by simp [text]
  obtain ⟨front, tail, whole, dotless⟩ := exists_lastDot dotted
  have second : front = [] ↔ '.' ∉ cs := by
    rw [text] at whole
    cases front with
    | nil => simpa [(List.cons.inj whole).2] using dotless
    | cons c front => simp [(List.cons.inj whole).2]
  rw [whole, ← List.append_assoc] at named
  rw [affectsAnswers_iff named dotless, ← lastPart_eq whole dotless, List.append_assoc, ← whole]
  constructor
  · rintro (configures | ⟨inside, heard⟩)
    · -- A name with one dot ends in an extension with one dot.
      obtain ⟨dots, notFirst⟩ := dots_of_mem_resolutionFiles _ configures
      rw [String.toList_ofList, text] at dots notFirst
      rw [List.count_append, List.count_cons_self] at dots
      have single : '.' ∉ cs := List.count_eq_zero.mp (by omega)
      refine ⟨heard_of_bare member (by rw [text]; rfl) fun inside =>
        single (mem_of_mem_bare text inside), ?_⟩
      rintro rfl
      exact absurd rfl notFirst
    · refine ⟨heard, fun empty => ?_⟩
      rw [empty, List.nil_append] at inside
      exact Classical.not_not.mp fun single => inside (second.mpr single)
  · rintro ⟨heard, further⟩
    refine .inr ⟨fun empty => ?_, heard⟩
    obtain ⟨rfl, rfl⟩ := List.append_eq_nil_iff.mp empty
    exact second.mp rfl (further rfl)

/-- Extensions that start with a dot, do not end in one and have no slash. -/
structure WellDotted (extensions : List String) : Prop where
  dotted : ∀ e ∈ extensions, e.toList.head? = some '.'
  undotted : ∀ e ∈ extensions, e.toList.getLast? ≠ some '.'
  slashless : Slashless extensions

namespace WellDotted

variable {extensions : List String} {e : String}

/-- Whatever an extension is put behind, together they are a name. -/
theorem isName (h : WellDotted extensions) (member : e ∈ extensions) {stem : List Char}
    (slashless : '/' ∉ stem) : IsName (stem ++ e.toList) := by
  obtain ⟨cs, chars⟩ := List.head?_eq_some_iff.mp (h.dotted e member)
  refine Path.isName_of_getLast? (by simp [chars]) ?_ ?_
  · rw [List.getLast?_append_of_ne_nil _ (by simp [chars])]
    exact h.undotted e member
  · rw [List.mem_append, not_or]
    exact ⟨slashless, h.slashless e member⟩

theorem noticed_append (h : WellDotted extensions) (member : e ∈ extensions) {p : Path}
    (text : p.text ≠ "") :
    affectsAnswers (p.append e) extensions = true ↔
      Heard extensions e ∧ (p.text.toList.getLast? = some '/' → '.' ∈ e.toList.tail) := by
  obtain ⟨cs, chars⟩ := List.head?_eq_some_iff.mp (h.dotted e member)
  obtain ⟨front, s, pieces⟩ : ∃ front s, p.segments = front ++ [s] :=
    Path.exists_last_segmentsOf p.text.toList
  have noSlash : '/' ∉ s := Path.slashless_of_mem_segments (p := p) (by rw [pieces]; simp)
  have last := Path.fileName?_of_segments (Path.segments_append pieces (h.slashless e member))
    (h.isName member noSlash)
  rw [affectsAnswers_iff_heard member chars last, Path.getLast?_eq_slash_iff pieces text, chars,
    List.tail_cons]

theorem noticed_index (h : WellDotted extensions) (member : e ∈ extensions) (p : Path) :
    affectsAnswers (p / ("index" ++ e)) extensions = true ↔ Heard extensions e := by
  obtain ⟨cs, chars⟩ := List.head?_eq_some_iff.mp (h.dotted e member)
  have isName : IsName ("index" ++ e).toList := by
    rw [String.toList_append]
    exact h.isName member (by decide)
  have last : (p / ("index" ++ e)).fileName? =
      some (String.ofList ("index".toList ++ e.toList)) := by
    rw [Path.fileName?_join isName, ← String.toList_append, String.ofList_toList]
  rw [affectsAnswers_iff_heard member chars last]
  exact and_iff_left nofun

end WellDotted

/-- When the changes of what may be found for a path by an extension of the project are noticed: the
last part of the extension has to be known by itself, and a path that ends in a slash is completed
to a name without an extension, unless the extension has a second dot. An extension without a dot
inside is known by itself. Where all extensions are, and the path does not end in a slash, the file
found for it is the path itself or a file whose changes are noticed. -/
theorem candidates_noticed_iff {root : Path} {given extensions : List String}
    (isOf : extensions = (Project.ofRoot root given).extensions)
    (slashless : Slashless extensions) (undotted : ∀ e ∈ extensions, e.toList.getLast? ≠ some '.')
    {p : Path} (named : p.fileName?.isSome = true) :
    (∀ e ∈ extensions,
      (affectsAnswers (p.append e) extensions = true ↔
        Heard extensions e ∧ (p.text.toList.getLast? = some '/' → '.' ∈ e.toList.tail)) ∧
      (affectsAnswers (p / ("index" ++ e)) extensions = true ↔ Heard extensions e) ∧
      ('.' ∉ (bare e).toList → Heard extensions e)) ∧
    ((∀ e ∈ extensions, Heard extensions e) → p.text.toList.getLast? ≠ some '/' →
      ∀ t q, fileFor t extensions p = some q → q = p ∨ affectsAnswers q extensions = true) := by
  have dotted : ∀ e ∈ extensions, e.toList.head? = some '.' := by
    rw [isOf]
    exact fun e => head?_of_mem_extensions
  have wellDotted : WellDotted extensions := ⟨dotted, undotted, slashless⟩
  have text := Path.text_ne_of_fileName? named
  constructor
  · exact fun e member => ⟨wellDotted.noticed_append member text, wellDotted.noticed_index member p,
      heard_of_bare member (dotted e member)⟩
  · intro heard notSlash t q found
    have tried := List.mem_of_find?_eq_some found
    rw [candidates, List.mem_cons, List.mem_append, List.mem_map, List.mem_map] at tried
    rcases tried with rfl | ⟨e, member, rfl⟩ | ⟨e, member, rfl⟩
    · exact .inl rfl
    · refine .inr ((wellDotted.noticed_append member text).mpr ⟨heard e member, fun slash => ?_⟩)
      exact absurd slash notSlash
    · exact .inr ((wellDotted.noticed_index member p).mpr (heard e member))

/-- A directory with a file of declarations and a hidden file. -/
def declarationTree : Tree :=
  ⟨[(["p"], .directory), (["p", "x.d.ts"], .file (.text "")), (["p", "lib"], .directory),
    (["p", "lib", ".ts"], .file (.text ""))]⟩

/-- With `.ts` beside it, `.d.ts` is known by its last part; a hidden file that is found behind a
slash has no extension. -/
theorem candidates_noticed_iff_declaration :
    (Project.ofRoot ⟨"/p"⟩ ["d.ts", ".ts"]).extensions = [".d.ts", ".ts"] ∧
    fileFor declarationTree [".d.ts", ".ts"] ⟨"/p/x"⟩ = some ⟨"/p/x.d.ts"⟩ ∧
    affectsAnswers ⟨"/p/x.d.ts"⟩ [".d.ts", ".ts"] = true ∧
    fileFor declarationTree [".d.ts", ".ts"] ⟨"/p/lib/"⟩ = some ⟨"/p/lib/.ts"⟩ ∧
    ¬ affectsAnswers ⟨"/p/lib/.ts"⟩ [".d.ts", ".ts"] = true := by
  have isOf : [".d.ts", ".ts"] = (Project.ofRoot ⟨"/p"⟩ ["d.ts", ".ts"]).extensions := by decide
  have slashless : Slashless [".d.ts", ".ts"] := by decide
  have undotted : ∀ e ∈ [".d.ts", ".ts"], e.toList.getLast? ≠ some '.' := by decide
  have found : fileFor declarationTree [".d.ts", ".ts"] ⟨"/p/x"⟩ = some ⟨"/p/x.d.ts"⟩ := by
    decide +kernel
  have last : ∀ e ∈ [".d.ts", ".ts"], bare ".ts" = lastPart e := by decide +kernel
  have heard : ∀ e ∈ [".d.ts", ".ts"], Heard [".d.ts", ".ts"] e :=
    fun e member => .inr ⟨".ts", by decide, last e member⟩
  obtain ⟨-, noticed⟩ := candidates_noticed_iff isOf slashless undotted (p := ⟨"/p/x"⟩) (by decide)
  obtain ⟨each, -⟩ := candidates_noticed_iff isOf slashless undotted (p := ⟨"/p/lib/"⟩) (by decide)
  refine ⟨isOf.symm, found, ?_, by decide +kernel, ?_⟩
  · exact (noticed heard (by decide) _ _ found).resolve_left (by decide)
  · intro unnoticed
    have single := ((each ".ts" (by decide)).1.mp unnoticed).2 (by decide)
    revert single
    decide

/-- Where `.d.ts` is the only extension, a file is found by it whose changes are not noticed. -/
theorem declaration_change_unnoticed :
    Slashless (Project.ofRoot ⟨"/p"⟩ [".d.ts"]).extensions ∧
    (∀ e ∈ (Project.ofRoot ⟨"/p"⟩ [".d.ts"]).extensions, e.toList.getLast? ≠ some '.') ∧
    (⟨"/p/x"⟩ : Path).fileName?.isSome = true ∧
    fileFor declarationTree (Project.ofRoot ⟨"/p"⟩ [".d.ts"]).extensions ⟨"/p/x"⟩ =
      some ⟨"/p/x.d.ts"⟩ ∧
    affectsAnswers ⟨"/p/x.d.ts"⟩ (Project.ofRoot ⟨"/p"⟩ [".d.ts"]).extensions = false := by
  decide +kernel

end ModuleAtlas
