import ModuleAtlas.Path.Basic

/-!
# Paths and their components

The text of a path is cut at its slashes, and what the path says is read off the pieces. The
components of a parent and of a joined path are functions of the components they start from
(`components_parent?`, `components_join`), so no question about a path can tell two texts of it
apart.

A path is *normal* when it is absolute and its text is that of its components, none of which leads
back. Normal paths are the texts `/a/b/c` of lists of names (`isNormal_iff`), and normalizing an
absolute path gives one (`isNormal_normalize`).
-/

namespace ModuleAtlas.Path

/-! ## Segments -/

theorem segmentsOf_eq_splitOn (cs : List Char) : segmentsOf cs = cs.splitOn '/' := by
  induction cs with
  | nil => rfl
  | cons c cs ih =>
    rw [segmentsOf, List.splitOn_cons_eq_if_modifyHead, ih]
    by_cases slash : c = '/'
    · simp [slash]
    · rw [if_neg slash, if_neg (by simpa using slash)]
      cases pieces : cs.splitOn '/' with
      | nil => exact absurd pieces (List.splitOn_ne_nil '/' cs)
      | cons s more => rfl

theorem segmentsOf_ne_nil (cs : List Char) : segmentsOf cs ≠ [] := by
  rw [segmentsOf_eq_splitOn]
  exact List.splitOn_ne_nil '/' cs

theorem exists_last_segmentsOf (cs : List Char) : ∃ front last, segmentsOf cs = front ++ [last] :=
  ⟨_, _, (List.dropLast_concat_getLast (segmentsOf_ne_nil cs)).symm⟩

theorem segmentsOf_slash_cons (cs : List Char) :
    segmentsOf ('/' :: cs) = [] :: segmentsOf cs := by
  simp [segmentsOf]

theorem segmentsOf_append_slash (a b : List Char) :
    segmentsOf (a ++ '/' :: b) = segmentsOf a ++ segmentsOf b := by
  simp only [segmentsOf_eq_splitOn, List.splitOn_append_cons_self]

theorem segmentsOf_of_slashless {s : List Char} (slashless : '/' ∉ s) : segmentsOf s = [s] := by
  rw [segmentsOf_eq_splitOn, List.splitOn_eq_singleton slashless]

theorem segmentsOf_intercalate {pieces : List (List Char)} (nonempty : pieces ≠ [])
    (slashless : ∀ s ∈ pieces, '/' ∉ s) :
    segmentsOf (List.intercalate ['/'] pieces) = pieces := by
  rw [segmentsOf_eq_splitOn, List.splitOn_intercalate '/' slashless nonempty]

theorem slashless_of_mem_segmentsOf {cs s : List Char} (member : s ∈ segmentsOf cs) :
    '/' ∉ s := by
  induction cs generalizing s with
  | nil => simp_all [segmentsOf]
  | cons c cs ih =>
    rw [segmentsOf] at member
    by_cases slash : c = '/'
    · rw [if_pos slash, List.mem_cons] at member
      rcases member with rfl | member
      · simp
      · exact ih member
    · rw [if_neg slash] at member
      cases pieces : segmentsOf cs with
      | nil => exact absurd pieces (segmentsOf_ne_nil cs)
      | cons first more =>
        rw [pieces] at member ih
        rcases List.mem_cons.mp member with rfl | member
        · have rest := ih (List.mem_cons_self)
          simp only [List.mem_cons, not_or]
          exact ⟨fun h => slash h.symm, rest⟩
        · exact ih (List.mem_cons_of_mem _ member)

theorem intercalate_concat {front : List (List Char)} (nonempty : front ≠ []) (last : List Char) :
    List.intercalate ['/'] (front ++ [last]) = List.intercalate ['/'] front ++ '/' :: last := by
  induction front with
  | nil => exact absurd rfl nonempty
  | cons s front ih =>
    cases front with
    | nil => simp
    | cons s' front =>
      rw [List.cons_append, List.intercalate_cons_of_ne_nil (by simp), ih (by simp),
        List.intercalate_cons_cons, ← List.append_assoc]

/-! ## Components -/

/-- A name as a segment has it: not empty, no dots that mean a place, no slash. -/
def IsName (s : List Char) : Prop := s ≠ [] ∧ s ≠ ['.'] ∧ s ≠ ['.', '.'] ∧ '/' ∉ s

/-- The component of a name. -/
def nameOf (s : List Char) : Component := .name (String.ofList s)

theorem componentOf_of_isName {s : List Char} (h : IsName s) : componentOf s = some (nameOf s) := by
  obtain ⟨nonempty, dot, dots, -⟩ := h
  simp [componentOf, nameOf, nonempty, dot, dots]

/-- What a segment behind the first can stand for. -/
theorem componentOf_cases {s : List Char} (slashless : '/' ∉ s) :
    (componentOf s = none ∧ (s = [] ∨ s = ['.'])) ∨
      (componentOf s = some .parent ∧ s = ['.', '.']) ∨
      (componentOf s = some (nameOf s) ∧ IsName s) := by
  by_cases blank : s = [] ∨ s = ['.']
  · exact .inl ⟨by simp [componentOf, blank], blank⟩
  · by_cases dots : s = ['.', '.']
    · exact .inr (.inl ⟨by simp [componentOf, dots], dots⟩)
    · have name : IsName s := ⟨fun h => blank (.inl h), fun h => blank (.inr h), dots, slashless⟩
      exact .inr (.inr ⟨componentOf_of_isName name, name⟩)

theorem componentOf_text {s : List Char} {c : Component} (h : componentOf s = some c) :
    c.text = String.ofList s := by
  unfold componentOf at h
  split at h
  · cases h
  · split at h
    · next dots =>
      cases h
      rw [dots]
      rfl
    · cases h
      rfl

theorem isAbsolute_iff {p : Path} : p.isAbsolute = true ↔ ∃ cs, p.text.toList = '/' :: cs := by
  unfold isAbsolute
  cases p.text.toList with
  | nil => simp
  | cons c cs => simp

theorem components_of_absolute {p : Path} {cs : List Char} (h : p.text.toList = '/' :: cs) :
    p.components = .root :: (segmentsOf cs).filterMap componentOf := by
  have absolute : p.isAbsolute = true := isAbsolute_iff.mpr ⟨cs, h⟩
  have pieces : p.segments = [] :: segmentsOf cs := by
    rw [segments, h, segmentsOf_slash_cons]
  rw [components, pieces]
  simp only [absolute, if_true]

/-- The component that the first segment of a path gives. -/
def lead (p : Path) (first : List Char) : List Component :=
  if p.isAbsolute then [.root] else if first = ['.'] then [.here] else (componentOf first).toList

theorem components_eq_lead {p : Path} {first : List Char} {rest : List (List Char)}
    (pieces : p.segments = first :: rest) :
    p.components = p.lead first ++ rest.filterMap componentOf := by
  rw [components, pieces, lead]
  by_cases absolute : p.isAbsolute = true
  · simp [absolute]
  · by_cases dot : first = ['.']
    · simp [absolute, dot]
    · simp only [absolute, dot, if_false, Bool.false_eq_true]
      cases h : componentOf first with
      | none => simp [h]
      | some c => simp [h]

theorem exists_segments (p : Path) : ∃ first rest, p.segments = first :: rest := by
  cases pieces : p.segments with
  | nil => exact absurd pieces (segmentsOf_ne_nil _)
  | cons first rest => exact ⟨first, rest, rfl⟩

/-- The first segment of a relative path is empty only when the path is. -/
theorem first_ne_nil {p : Path} {first : List Char} {rest : List (List Char)}
    (pieces : p.segments = first :: rest) (relative : p.isAbsolute = false) (text : p.text ≠ "") :
    first ≠ [] := by
  rintro rfl
  cases chars : p.text.toList with
  | nil => exact text (String.toList_eq_nil_iff.mp chars)
  | cons c cs =>
    rw [segments, chars, segmentsOf] at pieces
    by_cases slash : c = '/'
    · rw [isAbsolute, chars, slash] at relative
      cases relative
    · rw [if_neg slash] at pieces
      split at pieces <;> simp at pieces

theorem lead_of_relative {p : Path} {first : List Char} {rest : List (List Char)}
    (pieces : p.segments = first :: rest) (relative : p.isAbsolute = false) (text : p.text ≠ "") :
    ∃ c, p.lead first = [c] ∧ c ≠ .root := by
  have nonempty : first ≠ [] := first_ne_nil pieces relative text
  rw [lead, relative]
  by_cases dot : first = ['.']
  · exact ⟨.here, by simp [dot], by simp⟩
  · by_cases dots : first = ['.', '.']
    · exact ⟨.parent, by simp [componentOf, dots], by simp⟩
    · exact ⟨.name (String.ofList first), by simp [componentOf, nonempty, dot, dots], by simp⟩

theorem components_eq_nil_iff {p : Path} : p.components = [] ↔ p.text = "" := by
  obtain ⟨first, rest, pieces⟩ := p.exists_segments
  constructor
  · intro empty
    refine Classical.byContradiction fun text => ?_
    rw [components_eq_lead pieces] at empty
    cases absolute : p.isAbsolute with
    | true => simp [lead, absolute] at empty
    | false =>
      obtain ⟨c, head, -⟩ := lead_of_relative pieces absolute text
      simp [head] at empty
  · intro text
    have blank : p = ⟨""⟩ := by rw [← text]
    rw [blank]
    rfl

/-! ## Parents -/

theorem isSolid_iff {s : List Char} : isSolid s = true ↔ ∃ c, componentOf s = some c := by
  rw [isSolid, Option.isSome_iff_exists]

theorem filterMap_of_blank {rest : List (List Char)} (blank : ∀ s ∈ rest, isSolid s = false) :
    rest.filterMap componentOf = [] := by
  rw [List.filterMap_eq_nil_iff]
  intro s member
  have none := blank s member
  rwa [isSolid, Option.isSome_eq_false_iff, Option.isNone_iff_eq_none] at none

theorem filterMap_dropWhile_blank (rest : List (List Char)) :
    (rest.dropWhile (!isSolid ·)).filterMap componentOf = rest.filterMap componentOf := by
  induction rest with
  | nil => rfl
  | cons s rest ih =>
    by_cases solid : isSolid s = true
    · rw [List.dropWhile_cons_of_neg (by simp [solid])]
    · rw [List.dropWhile_cons_of_pos (by simp [solid]), ih]
      have none : [s].filterMap componentOf = [] := filterMap_of_blank (by simpa using solid)
      rw [List.filterMap_cons, List.filterMap_nil] at none
      cases h : componentOf s with
      | none => simp [h]
      | some c => simp [h] at none

theorem dropLastSolid_none {rest : List (List Char)} (h : dropLastSolid rest = none) :
    rest.filterMap componentOf = [] := by
  unfold dropLastSolid at h
  split at h
  · next nothing =>
    have reversed := filterMap_dropWhile_blank rest.reverse
    rw [nothing, List.filterMap_nil, List.filterMap_reverse] at reversed
    exact List.reverse_eq_nil_iff.mp reversed.symm
  · cases h

/-- Taking the last component off the segments takes it off the components. -/
theorem dropLastSolid_some {rest kept : List (List Char)} (h : dropLastSolid rest = some kept) :
    rest.filterMap componentOf ≠ [] ∧
      kept.filterMap componentOf = (rest.filterMap componentOf).dropLast ∧
      ∀ s ∈ kept, s ∈ rest := by
  unfold dropLastSolid at h
  split at h
  · cases h
  · next s more found =>
    cases h
    have solid : isSolid s = true := by
      have head := List.head?_dropWhile_not (!isSolid ·) rest.reverse
      rw [found] at head
      simpa using head
    obtain ⟨c, hc⟩ := isSolid_iff.mp solid
    have reversed := filterMap_dropWhile_blank rest.reverse
    rw [found, List.filterMap_cons, hc, List.filterMap_reverse] at reversed
    have whole : rest.filterMap componentOf = (more.filterMap componentOf).reverse ++ [c] := by
      rw [← List.reverse_reverse (rest.filterMap componentOf), ← reversed]
      simp
    refine ⟨by simp [whole], ?_, ?_⟩
    · rw [whole, List.dropLast_concat, List.filterMap_reverse, filterMap_dropWhile_blank]
    · intro x member
      rw [List.mem_reverse] at member
      have inMore := (List.dropWhile_sublist _).subset member
      have inFound : x ∈ rest.reverse.dropWhile (!isSolid ·) := by
        rw [found]
        exact List.mem_cons_of_mem _ inMore
      exact List.mem_reverse.mp ((List.dropWhile_sublist _).subset inFound)

theorem slashless_of_mem_segments {p : Path} {s : List Char} (member : s ∈ p.segments) :
    '/' ∉ s :=
  slashless_of_mem_segmentsOf member

/-- Putting some of the segments behind the first together again keeps where a path starts. -/
theorem components_ofSegments {p : Path} {first : List Char} {rest kept : List (List Char)}
    (pieces : p.segments = first :: rest) (part : ∀ s ∈ kept, s ∈ rest)
    (below : p.isAbsolute = true → kept ≠ []) (text : p.text ≠ "") :
    (ofSegments (first :: kept)).components =
      p.lead first ++ kept.filterMap componentOf := by
  have slashless : ∀ s ∈ first :: kept, '/' ∉ s := by
    intro s member
    apply slashless_of_mem_segments (p := p)
    rw [pieces]
    rcases List.mem_cons.mp member with rfl | member
    · exact List.mem_cons_self
    · exact List.mem_cons_of_mem _ (part s member)
  have together : (ofSegments (first :: kept)).segments = first :: kept := by
    rw [segments, ofSegments, String.toList_ofList]
    exact segmentsOf_intercalate (by simp) slashless
  have start : (ofSegments (first :: kept)).isAbsolute = p.isAbsolute := by
    cases absolute : p.isAbsolute with
    | true =>
      obtain ⟨cs, chars⟩ := isAbsolute_iff.mp absolute
      rw [segments, chars, segmentsOf_slash_cons] at pieces
      cases pieces
      cases kept with
      | nil => exact absurd rfl (below absolute)
      | cons s kept =>
        rw [isAbsolute_iff]
        exact ⟨_, by rw [ofSegments, String.toList_ofList, List.intercalate_cons_cons]; rfl⟩
    | false =>
      have nonempty := first_ne_nil pieces absolute text
      cases first with
      | nil => exact absurd rfl nonempty
      | cons c cs =>
        have plain := slashless (c :: cs) List.mem_cons_self
        rw [isAbsolute, ofSegments, String.toList_ofList, List.intercalate_cons_cons_left]
        simp only [List.head?_cons, beq_eq_false_iff_ne, ne_eq, Option.some.injEq]
        rintro rfl
        exact plain List.mem_cons_self
  rw [components_eq_lead together]
  simp only [lead, start]

/-- The parent of a path has its components but the last. -/
theorem components_parent? {p d : Path} (h : p.parent? = some d) :
    p.components ≠ [] ∧ p.components ≠ [.root] ∧ d.components = p.components.dropLast := by
  obtain ⟨first, rest, pieces⟩ := p.exists_segments
  have whole := components_eq_lead pieces
  unfold parent? at h
  rw [pieces] at h
  dsimp only at h
  split at h
  · next kept found =>
    obtain ⟨solid, shorter, part⟩ := dropLastSolid_some found
    have text : p.text ≠ "" := by
      intro text
      have empty := components_eq_nil_iff.mpr text
      rw [whole, List.append_eq_nil_iff] at empty
      exact solid empty.2
    have last : p.components.dropLast = p.lead first ++ kept.filterMap componentOf := by
      rw [whole, List.dropLast_append_of_ne_nil solid, shorter]
    have proper : p.components ≠ [.root] := by
      intro only
      rw [whole] at only
      cases absolute : p.isAbsolute with
      | true =>
        rw [lead, absolute] at only
        exact solid (List.cons.inj only).2
      | false =>
        obtain ⟨c, head, -⟩ := lead_of_relative pieces absolute text
        rw [head] at only
        exact solid (List.cons.inj only).2
    refine ⟨fun empty => text (components_eq_nil_iff.mp empty), proper, ?_⟩
    split at h
    · next root =>
      cases h
      rw [Bool.and_eq_true, List.isEmpty_iff] at root
      rw [last, root.2, lead, root.1]
      rfl
    · next notRoot =>
      cases h
      rw [last]
      refine components_ofSegments pieces part ?_ text
      intro absolute empty
      exact notRoot (by simp [absolute, empty])
  · next nothing =>
    have blank := dropLastSolid_none nothing
    split at h
    · cases h
    · next start =>
      cases h
      rw [Bool.or_eq_true, not_or, decide_eq_true_eq, Bool.not_eq_true] at start
      obtain ⟨relative, text⟩ := start
      obtain ⟨c, head, notRoot⟩ := lead_of_relative pieces relative text
      have single : p.components = [c] := by rw [whole, blank, head, List.append_nil]
      exact ⟨by simp [single], by simp [single, notRoot], by rw [single]; rfl⟩

/-- Only the empty path and the root have no parent. -/
theorem parent?_eq_none {p : Path} (h : p.parent? = none) :
    p.components = [] ∨ p.components = [.root] := by
  obtain ⟨first, rest, pieces⟩ := p.exists_segments
  have whole := components_eq_lead pieces
  unfold parent? at h
  rw [pieces] at h
  dsimp only at h
  split at h
  · split at h <;> cases h
  · next nothing =>
    split at h
    · next start =>
      rw [Bool.or_eq_true, decide_eq_true_eq] at start
      rcases start with absolute | text
      · rw [whole, dropLastSolid_none nothing, lead, absolute]
        exact .inr rfl
      · exact .inl (components_eq_nil_iff.mpr text)
    · cases h

/-! ## Joining -/

/-- Text behind a path does not change where it starts. -/
theorem isAbsolute_append {p : Path} (text : p.text ≠ "") (suffix : String) :
    (p.append suffix).isAbsolute = p.isAbsolute := by
  rw [isAbsolute, isAbsolute, append, String.toList_append]
  cases chars : p.text.toList with
  | nil => exact absurd (String.toList_eq_nil_iff.mp chars) text
  | cons c cs => rfl

theorem text_eq_intercalate {p : Path} {pieces : List (List Char)} (h : p.segments = pieces) :
    p.text.toList = List.intercalate ['/'] pieces := by
  rw [← h, segments, segmentsOf_eq_splitOn]
  exact (List.intercalate_splitOn '/').symm

/-- Text at the end of a path goes to what stands behind its last slash. -/
theorem segments_append {p : Path} {e : String} {front : List (List Char)} {s : List Char}
    (pieces : p.segments = front ++ [s]) (slashless : '/' ∉ e.toList) :
    (p.append e).segments = front ++ [s ++ e.toList] := by
  have noSlash : ∀ x ∈ front ++ [s], '/' ∉ x := by
    rw [← pieces]
    exact fun x => slashless_of_mem_segments
  have together : List.intercalate ['/'] (front ++ [s]) ++ e.toList =
      List.intercalate ['/'] (front ++ [s ++ e.toList]) := by
    cases front with
    | nil => simp
    | cons first rest => rw [intercalate_concat (by simp), intercalate_concat (by simp)]; simp
  rw [segments, append, String.toList_append, text_eq_intercalate pieces, together]
  refine segmentsOf_intercalate (by simp) fun x member => ?_
  rcases List.mem_append.mp member with inside | isLast
  · exact noSlash x (List.mem_append_left _ inside)
  · rw [List.mem_singleton.mp isLast, List.mem_append, not_or]
    exact ⟨noSlash s (by simp), slashless⟩

/-- A relative text behind a path does not change where it starts. -/
theorem isAbsolute_join {p : Path} {q : String} (text : p.text ≠ "")
    (relative : (⟨q⟩ : Path).isAbsolute = false) : (p / q).isAbsolute = p.isAbsolute := by
  change (p.join q).isAbsolute = _
  rw [join, if_neg (by simp [relative])]
  split
  · exact isAbsolute_append text q
  · rw [String.append_assoc]
    exact isAbsolute_append text _

/-- With a slash at the end of a path or without one, the segments of a text put behind it follow
its own, less an empty one between them. -/
theorem exists_segments_join {p : Path} {q : String} {first : List Char} {rest : List (List Char)}
    (pieces : p.segments = first :: rest) (text : p.text ≠ "")
    (relative : (⟨q⟩ : Path).isAbsolute = false) :
    ∃ front, front.filterMap componentOf = rest.filterMap componentOf ∧
      (p / q).segments = first :: (front ++ segmentsOf q.toList) := by
  change ∃ front, _ ∧ (p.join q).segments = _
  rw [join, if_neg (by simp [relative])]
  by_cases slash : p.text.toList.getLast? = some '/'
  · obtain ⟨chars, whole⟩ := List.getLast?_eq_some_iff.mp slash
    rw [if_pos (.inr slash)]
    have cut : p.segments = segmentsOf chars ++ [[]] := by
      rw [segments, whole, segmentsOf_append_slash]
      rfl
    cases lead : segmentsOf chars with
    | nil => exact absurd lead (segmentsOf_ne_nil chars)
    | cons head more =>
      rw [pieces, lead, List.cons_append] at cut
      obtain ⟨rfl, rfl⟩ := List.cons.inj cut
      refine ⟨more, ?_, ?_⟩
      · rw [List.filterMap_append]
        exact (List.append_nil _).symm
      · rw [segments, String.toList_append, whole, List.append_assoc]
        change segmentsOf (chars ++ '/' :: q.toList) = _
        rw [segmentsOf_append_slash, lead]
        rfl
  · rw [if_neg (by simp [text, slash])]
    refine ⟨rest, rfl, ?_⟩
    rw [segments, String.toList_append, String.toList_append, List.append_assoc]
    change segmentsOf (p.text.toList ++ '/' :: q.toList) = _
    rw [segmentsOf_append_slash, ← segments, pieces]
    rfl

/-- A relative text behind a path adds its components to those of the path. -/
theorem components_join {p : Path} {q : String} (text : p.text ≠ "")
    (relative : (⟨q⟩ : Path).isAbsolute = false) :
    (p / q).components = p.components ++ (segmentsOf q.toList).filterMap componentOf := by
  obtain ⟨first, rest, pieces⟩ := p.exists_segments
  obtain ⟨front, same, cut⟩ := exists_segments_join pieces text relative
  rw [components_eq_lead cut, components_eq_lead pieces, List.filterMap_append, same,
    List.append_assoc]
  simp only [lead, isAbsolute_join text relative]

theorem join_of_empty {p : Path} {q : String} (text : p.text = "") : p / q = ⟨q⟩ := by
  change p.join q = _
  rw [join]
  split
  · rfl
  · rw [if_pos (.inl text), text, String.empty_append]

/-- What is put behind a text is not nothing. -/
theorem text_join_ne {p : Path} (text : p.text ≠ "") (q : String) : (p / q).text ≠ "" := by
  change (p.join q).text ≠ ""
  rw [join]
  split
  · next absolute =>
    rintro rfl
    cases absolute
  · split <;> simp [text]

theorem not_isAbsolute_of_slashless {s : String} (slashless : '/' ∉ s.toList) :
    (⟨s⟩ : Path).isAbsolute = false := by
  rw [← Bool.not_eq_true, isAbsolute_iff]
  rintro ⟨cs, chars⟩
  exact slashless (chars ▸ List.mem_cons_self)

theorem not_isAbsolute_of_isName {s : String} (name : IsName s.toList) :
    (⟨s⟩ : Path).isAbsolute = false :=
  not_isAbsolute_of_slashless name.2.2.2

/-- A text without a slash adds its component. -/
theorem components_join_slashless {p : Path} {s : String} (text : p.text ≠ "")
    (slashless : '/' ∉ s.toList) :
    (p / s).components = p.components ++ [s.toList].filterMap componentOf := by
  rw [components_join text (not_isAbsolute_of_slashless slashless),
    segmentsOf_of_slashless slashless]

theorem text_ne_of_fileName? {p : Path} (named : p.fileName?.isSome = true) : p.text ≠ "" := by
  intro empty
  rw [fileName?, components_eq_nil_iff.mpr empty] at named
  cases named

/-- A path whose text ends in a name behind its last slash has that name. -/
theorem fileName?_of_segments {p : Path} {front : List (List Char)} {s : List Char}
    (pieces : p.segments = front ++ [s]) (name : IsName s) :
    p.fileName? = some (String.ofList s) := by
  have component := componentOf_of_isName name
  cases front with
  | nil =>
    have relative : p.isAbsolute = false := by
      refine Bool.eq_false_iff.mpr fun absolute => ?_
      obtain ⟨cs, chars⟩ := isAbsolute_iff.mp absolute
      rw [segments, chars, segmentsOf_slash_cons] at pieces
      exact name.1 (List.cons.inj pieces).1.symm
    rw [fileName?, components_eq_lead pieces, lead, relative, if_neg (by simp), if_neg name.2.1,
      component]
    rfl
  | cons first rest =>
    rw [List.cons_append] at pieces
    rw [fileName?, components_eq_lead pieces, List.filterMap_append]
    simp [component, nameOf]

/-- The last name of a path is the name put behind it. -/
theorem fileName?_join {p : Path} {s : String} (name : IsName s.toList) :
    (p / s).fileName? = some s := by
  have single := segmentsOf_of_slashless name.2.2.2
  by_cases text : p.text = ""
  · have only : (⟨s⟩ : Path).segments = [] ++ [s.toList] := single
    rw [join_of_empty text, fileName?_of_segments only name, String.ofList_toList]
  · obtain ⟨first, rest, pieces⟩ := p.exists_segments
    obtain ⟨front, -, cut⟩ := exists_segments_join pieces text (not_isAbsolute_of_isName name)
    rw [single, ← List.cons_append] at cut
    rw [fileName?_of_segments cut name, String.ofList_toList]

/-! ## Texts of one path -/

theorem same_iff {p q : Path} : p.same q = true ↔ p.components = q.components := by
  rw [same, beq_iff_eq]

@[simp] theorem same_refl (p : Path) : p.same p = true := same_iff.mpr rfl

theorem same_symm {p q : Path} (h : p.same q = true) : q.same p = true :=
  same_iff.mpr (same_iff.mp h).symm

theorem same_trans {p q r : Path} (left : p.same q = true) (right : q.same r = true) :
    p.same r = true :=
  same_iff.mpr ((same_iff.mp left).trans (same_iff.mp right))

theorem same_comm (p q : Path) : p.same q = q.same p := by
  rw [Bool.eq_iff_iff]
  exact ⟨same_symm, same_symm⟩

theorem same_congr_left {p q : Path} (h : p.same q = true) (r : Path) : p.same r = q.same r := by
  rw [same, same, same_iff.mp h]

theorem same_congr_right {p q : Path} (h : p.same q = true) (r : Path) : r.same p = r.same q := by
  rw [same, same, same_iff.mp h]

theorem normalize_congr {p q : Path} (h : p.same q = true) : p.normalize = q.normalize := by
  rw [normalize, normalize, same_iff.mp h]

theorem fileName?_congr {p q : Path} (h : p.same q = true) : p.fileName? = q.fileName? := by
  rw [fileName?, fileName?, same_iff.mp h]

theorem extension?_congr {p q : Path} (h : p.same q = true) : p.extension? = q.extension? := by
  rw [extension?, extension?, fileName?_congr h]

theorem join_congr {p q : Path} (h : p.same q = true) (r : String) : (p / r).same (q / r) := by
  have components := same_iff.mp h
  rw [same_iff]
  cases absolute : (⟨r⟩ : Path).isAbsolute with
  | true =>
    have whole (x : Path) : x / r = ⟨r⟩ := by
      change x.join r = _
      rw [join, if_pos absolute]
    rw [whole, whole]
  | false =>
    by_cases text : p.text = ""
    · have text' : q.text = "" := by
        rw [← components_eq_nil_iff, ← components, components_eq_nil_iff, text]
      rw [join_of_empty text, join_of_empty text']
    · have text' : q.text ≠ "" := by
        rwa [ne_eq, ← components_eq_nil_iff, ← components, components_eq_nil_iff]
      rw [components_join text absolute, components_join text' absolute, components]

/-- What is next to a file depends on the path of the file alone, not on its text. -/
theorem normalize_beside_congr {p q : Path} (h : p.same q = true) (r : String) :
    (p.parent?.map fun d => (d / r).normalize) = q.parent?.map fun d => (d / r).normalize := by
  have components := same_iff.mp h
  cases left : p.parent? with
  | none =>
    cases right : q.parent? with
    | none => rfl
    | some d =>
      obtain ⟨nonempty, proper, -⟩ := components_parent? right
      rw [← components] at nonempty proper
      rcases parent?_eq_none left with empty | root
      · exact absurd empty nonempty
      · exact absurd root proper
  | some d =>
    obtain ⟨nonempty, proper, shorter⟩ := components_parent? left
    cases right : q.parent? with
    | none =>
      rw [components] at nonempty proper
      rcases parent?_eq_none right with empty | root
      · exact absurd empty nonempty
      · exact absurd root proper
    | some e =>
      obtain ⟨-, -, shorter'⟩ := components_parent? right
      have parents : d.same e = true := by rw [same_iff, shorter, shorter', components]
      rw [Option.map_some, Option.map_some, normalize_congr (join_congr parents r)]

/-! ## Normal paths -/

/-- Whether a path is absolute and its text is worked out: a second look changes nothing. -/
def IsNormal (p : Path) : Prop := p.isAbsolute = true ∧ p.normalize = p

instance (p : Path) : Decidable p.IsNormal := inferInstanceAs (Decidable (_ ∧ _))

/-- The path of names below the root. -/
def ofNames (names : List (List Char)) : Path :=
  ⟨String.ofList ('/' :: List.intercalate ['/'] names)⟩

theorem toList_ofNames (names : List (List Char)) :
    (ofNames names).text.toList = '/' :: List.intercalate ['/'] names :=
  String.toList_ofList

theorem isAbsolute_ofNames (names : List (List Char)) : (ofNames names).isAbsolute = true :=
  isAbsolute_iff.mpr ⟨_, toList_ofNames names⟩

theorem filterMap_names {names : List (List Char)} (h : ∀ n ∈ names, IsName n) :
    names.filterMap componentOf = names.map nameOf := by
  induction names with
  | nil => rfl
  | cons n names ih =>
    rw [List.filterMap_cons, componentOf_of_isName (h n List.mem_cons_self), List.map_cons,
      ih fun m member => h m (List.mem_cons_of_mem _ member)]

theorem components_ofNames {names : List (List Char)} (h : ∀ n ∈ names, IsName n) :
    (ofNames names).components = .root :: names.map nameOf := by
  rw [components_of_absolute (toList_ofNames names)]
  cases names with
  | nil => rfl
  | cons n names =>
    rw [segmentsOf_intercalate (by simp) fun s member => (h s member).2.2.2, filterMap_names h]

theorem ofComponents_names (names : List (List Char)) :
    ofComponents (.root :: names.map nameOf) = ofNames names := by
  have texts : (names.map nameOf).map Component.text = names.map String.ofList := by
    rw [List.map_map]
    rfl
  have back : (names.map String.ofList).map String.toList = names := by
    rw [List.map_map]
    exact List.map_id'' (fun _ => String.toList_ofList) names
  rw [ofComponents, render, ofNames, texts]
  congr 1
  apply String.toList_inj.mp
  rw [String.toList_append, String.toList_intercalate, back]
  exact (toList_ofNames names).symm

/-- Steps below the root: back, or to a name. -/
def IsStep (c : Component) : Prop := c = .parent ∨ ∃ s, IsName s ∧ c = nameOf s

theorem isStep_of_componentOf {s : List Char} {c : Component} (slashless : '/' ∉ s)
    (h : componentOf s = some c) : IsStep c := by
  rcases componentOf_cases slashless with ⟨none, -⟩ | ⟨some, -⟩ | ⟨some, name⟩
  · rw [none] at h
    cases h
  · rw [some] at h
    cases h
    exact .inl rfl
  · rw [some] at h
    cases h
    exact .inr ⟨s, name, rfl⟩

theorem isStep_of_mem_filterMap {pieces : List (List Char)} {c : Component}
    (slashless : ∀ s ∈ pieces, '/' ∉ s) (member : c ∈ pieces.filterMap componentOf) :
    IsStep c := by
  obtain ⟨s, inPieces, h⟩ := List.mem_filterMap.mp member
  exact isStep_of_componentOf (slashless s inPieces) h

/-- The components of a relative path are steps, but for a dot in front. -/
theorem isStep_of_relative {p : Path} (relative : p.isAbsolute = false) :
    ∀ c ∈ p.components, c = .here ∨ IsStep c := by
  obtain ⟨first, rest, pieces⟩ := p.exists_segments
  have slashless : ∀ s ∈ first :: rest, '/' ∉ s := by
    rw [← pieces]
    exact fun s => slashless_of_mem_segments
  intro c member
  rw [components_eq_lead pieces, List.mem_append, lead, relative] at member
  rcases member with inLead | inRest
  · by_cases dot : first = ['.']
    · rw [if_neg (by simp), if_pos dot, List.mem_singleton] at inLead
      exact .inl inLead
    · rw [if_neg (by simp), if_neg dot, Option.mem_toList] at inLead
      exact .inr (isStep_of_componentOf (slashless first List.mem_cons_self) inLead)
  · refine .inr (isStep_of_mem_filterMap (fun s inside => ?_) inRest)
    exact slashless s (List.mem_cons_of_mem _ inside)

/-- Working out steps from a place below the root ends at a place below the root. -/
theorem foldl_normalStep {steps : List Component} (below : ∀ c ∈ steps, IsStep c) :
    ∀ here : List (List Char), (∀ n ∈ here, IsName n) →
      ∃ names : List (List Char), (∀ n ∈ names, IsName n) ∧
        steps.foldl normalStep (here.map nameOf ++ [.root]) = names.map nameOf ++ [.root] := by
  induction steps with
  | nil => exact fun here h => ⟨here, h, rfl⟩
  | cons c steps ih =>
    intro here h
    have rest : ∀ c ∈ steps, IsStep c := fun c member => below c (List.mem_cons_of_mem _ member)
    rw [List.foldl_cons]
    rcases below c List.mem_cons_self with rfl | ⟨s, name, rfl⟩
    · cases here with
      | nil => exact ih rest [] h
      | cons n here => exact ih rest here fun m member => h m (List.mem_cons_of_mem _ member)
    · refine ih rest (s :: here) fun m member => ?_
      rcases List.mem_cons.mp member with rfl | member
      · exact name
      · exact h m member

theorem exists_names_of_absolute {p : Path} (absolute : p.isAbsolute = true) :
    ∃ names, (∀ n ∈ names, IsName n) ∧ p.normalize = ofNames names := by
  obtain ⟨cs, chars⟩ := isAbsolute_iff.mp absolute
  have below : ∀ c ∈ (segmentsOf cs).filterMap componentOf, IsStep c := fun c =>
    isStep_of_mem_filterMap fun s => slashless_of_mem_segmentsOf
  obtain ⟨names, isName, worked⟩ := foldl_normalStep below [] (by simp)
  refine ⟨names.reverse, by simpa using isName, ?_⟩
  have start : (Component.root :: (segmentsOf cs).filterMap componentOf).foldl normalStep [] =
      names.map nameOf ++ [.root] := worked
  rw [normalize, components_of_absolute chars, normalComponents, start, ← ofComponents_names]
  simp

theorem isNormal_ofNames {names : List (List Char)} (h : ∀ n ∈ names, IsName n) :
    (ofNames names).IsNormal := by
  have kept : ∀ here names : List (List Char),
      (names.map nameOf).foldl normalStep (here.map nameOf ++ [.root]) =
        (names.reverse ++ here).map nameOf ++ [.root] := by
    intro here names
    induction names generalizing here with
    | nil => rfl
    | cons n names ih =>
      have next := ih (n :: here)
      simp only [List.reverse_cons, List.append_assoc, List.singleton_append]
      exact next
  refine ⟨isAbsolute_ofNames names, ?_⟩
  have start : (Component.root :: names.map nameOf).foldl normalStep [] = _ :=
    kept [] names
  rw [normalize, components_ofNames h, normalComponents, start, ← ofComponents_names]
  simp

/-- The normal paths are the texts of lists of names. -/
theorem isNormal_iff {p : Path} :
    p.IsNormal ↔ ∃ names, (∀ n ∈ names, IsName n) ∧ p = ofNames names := by
  constructor
  · rintro ⟨absolute, worked⟩
    obtain ⟨names, isName, whole⟩ := exists_names_of_absolute absolute
    exact ⟨names, isName, worked.symm.trans whole⟩
  · rintro ⟨names, isName, rfl⟩
    exact isNormal_ofNames isName

theorem isNormal_normalize {p : Path} (absolute : p.isAbsolute = true) : p.normalize.IsNormal := by
  obtain ⟨names, isName, whole⟩ := exists_names_of_absolute absolute
  rw [whole]
  exact isNormal_ofNames isName

theorem eq_of_toList {p q : Path} (h : p.text.toList = q.text.toList) : p = q := by
  cases p
  cases q
  exact congrArg Path.mk (String.toList_inj.mp h)

/-- Text at the end of a path of names goes to the last name. -/
theorem ofNames_append (front : List (List Char)) (last : List Char) (e : String) :
    (ofNames (front ++ [last])).append e = ofNames (front ++ [last ++ e.toList]) := by
  apply eq_of_toList
  rw [append, String.toList_append, toList_ofNames, toList_ofNames]
  cases front with
  | nil => simp
  | cons s front =>
    rw [intercalate_concat (by simp), intercalate_concat (by simp)]
    simp

/-- A name behind a path of names is one more of them. -/
theorem ofNames_join {names : List (List Char)} (isName : ∀ n ∈ names, IsName n) {s : String}
    (name : IsName s.toList) : ofNames names / s = ofNames (names ++ [s.toList]) := by
  have relative := not_isAbsolute_of_isName name
  change (ofNames names).join s = _
  rw [join, if_neg (by simp [relative])]
  rcases List.eq_nil_or_concat names with rfl | ⟨front, last, rfl⟩
  · rw [if_pos (.inr (by rw [toList_ofNames]; rfl))]
    apply eq_of_toList
    rw [String.toList_append, toList_ofNames, toList_ofNames]
    simp
  · rw [List.concat_eq_append] at isName ⊢
    obtain ⟨nonempty, -, -, slashless⟩ := isName last (by simp)
    have ending : ∃ stem, (ofNames (front ++ [last])).text.toList = stem ++ last := by
      rw [toList_ofNames]
      cases front with
      | nil => exact ⟨['/'], by simp⟩
      | cons n front =>
        rw [intercalate_concat (by simp)]
        exact ⟨'/' :: (List.intercalate ['/'] (n :: front) ++ ['/']), by simp⟩
    obtain ⟨stem, ending⟩ := ending
    have open' : ¬ ((ofNames (front ++ [last])).text = "" ∨
        (ofNames (front ++ [last])).text.toList.getLast? = some '/') := by
      rintro (empty | slash)
      · rw [empty, eq_comm, String.toList_empty, List.append_eq_nil_iff] at ending
        exact nonempty ending.2
      · rw [ending, List.getLast?_append, List.getLast?_eq_some_getLast nonempty] at slash
        rw [← Option.some.inj slash] at slashless
        exact slashless (List.getLast_mem nonempty)
    rw [if_neg open']
    apply eq_of_toList
    have nonempty : front ++ [last] ≠ [] := by simp
    rw [String.toList_append, String.toList_append, toList_ofNames, toList_ofNames,
      intercalate_concat nonempty]
    simp

/-- A name below a normal path. -/
theorem IsNormal.join {p : Path} {s : String} (h : p.IsNormal) (name : IsName s.toList) :
    (p / s).IsNormal ∧ (p / s).components = p.components ++ [nameOf s.toList] := by
  obtain ⟨names, areNames, rfl⟩ := isNormal_iff.mp h
  have longer : ∀ n ∈ names ++ [s.toList], IsName n := by
    intro n inside
    rcases List.mem_append.mp inside with inside | isLast
    · exact areNames n inside
    · exact List.mem_singleton.mp isLast ▸ name
  rw [ofNames_join areNames name]
  refine ⟨isNormal_ofNames longer, ?_⟩
  rw [components_ofNames longer, components_ofNames areNames, List.map_append, List.map_singleton,
    List.cons_append]

theorem mem_foldl_normalStep {c : Component} {steps : List Component} :
    ∀ {here : List Component}, c ∈ steps.foldl normalStep here → c ∈ here ∨ c ∈ steps := by
  induction steps with
  | nil => exact fun h => .inl h
  | cons x steps ih =>
    intro here h
    rw [List.foldl_cons] at h
    rcases ih h with member | member
    · have step : c = x ∨ c ∈ here := by
        unfold normalStep at member
        split at member <;> simp_all
      rcases step with rfl | old
      · exact .inr List.mem_cons_self
      · exact .inl old
    · exact .inr (List.mem_cons_of_mem _ member)

/-- Working out a path does not change where it starts. -/
theorem isAbsolute_normalize (p : Path) : p.normalize.isAbsolute = p.isAbsolute := by
  cases absolute : p.isAbsolute with
  | true =>
    obtain ⟨names, -, whole⟩ := exists_names_of_absolute absolute
    rw [whole, isAbsolute_ofNames]
  | false =>
    -- No component of a relative path starts with a slash, and working out adds none.
    have plain : ∀ c ∈ p.components, c ≠ .root ∧ ∃ x xs, c.text.toList = x :: xs ∧ x ≠ '/' := by
      intro c member
      rcases isStep_of_relative absolute c member with
        rfl | rfl | ⟨s, ⟨nonempty, -, -, noSlash⟩, rfl⟩
      · exact ⟨by simp, '.', [], rfl, by simp⟩
      · exact ⟨by simp, '.', ['.'], rfl, by simp⟩
      · cases s with
        | nil => exact absurd rfl nonempty
        | cons x xs =>
          refine ⟨by simp [nameOf], x, xs, String.toList_ofList, ?_⟩
          rintro rfl
          exact noSlash List.mem_cons_self
    have worked : ∀ c ∈ normalComponents p.components,
        c ≠ .root ∧ ∃ x xs, c.text.toList = x :: xs ∧ x ≠ '/' := by
      intro c member
      rw [normalComponents, List.mem_reverse] at member
      rcases mem_foldl_normalStep member with old | new
      · cases old
      · exact plain c new
    rw [normalize, ofComponents]
    cases result : normalComponents p.components with
    | nil => rfl
    | cons c more =>
      obtain ⟨notRoot, x, xs, text, noSlash⟩ := worked c (by rw [result]; exact List.mem_cons_self)
      have chars : (render (c :: more)).toList =
          List.intercalate ['/'] ((x :: xs) :: more.map fun c => c.text.toList) := by
        have shown : render (c :: more) =
            String.intercalate "/" ((c :: more).map Component.text) := by
          cases c <;> first | exact absurd rfl notRoot | rfl
        rw [shown, String.toList_intercalate, List.map_cons, List.map_cons, text, List.map_map]
        rfl
      rw [isAbsolute, chars, List.intercalate_cons_cons_left]
      simpa using noSlash

theorem isAbsolute_congr {p q : Path} (h : p.same q = true) : p.isAbsolute = q.isAbsolute := by
  rw [← isAbsolute_normalize p, normalize_congr h, isAbsolute_normalize q]

end ModuleAtlas.Path
