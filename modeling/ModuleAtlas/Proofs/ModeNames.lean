import ModuleAtlas.Proofs.LinkedNames
import ModuleAtlas.Proofs.Modes
import ModuleAtlas.Proofs.StraightLoads

/-!
# Names in both modes

The mode decides whether imports are taken down, and nothing else: the slots of a draft, with the
types attached to them, and its unexported declarations are the same in both modes.

Linking then asks for fewer modules where imports are left out, because entries that lead to one of
them ask for none. An entry keeps its name whatever it leads to, and an `export *` asks for the same
module in the same mode, so the names that importers see are the same again
(`modes_differ_in_imports`). The declarations behind those names need not be.
-/

namespace ModuleAtlas.Atlas

open Draft (Mode Slot)
open Symbols
open Syntax (Outline)

variable {t : Tree} {project : Project} {p : Path} {d : Draft}

/-! ## Slots -/

/-- With and without imports, a slot gives the same names. -/
theorem namesGiven_agree {slot : Slot} {rest rest' : List Slot} {u u' v v' : Unit}
    {f f' : Fetched} {fs fs' : List Fetched}
    (left : Answered (PlainAnswer t project (Plain t project) p) d (slot :: rest) u (f :: fs) u')
    (right : Answered (PlainAnswer t project (Plain t project) p) d.withoutImports
      (slot :: rest') v (f' :: fs') v') :
    namesGiven slot f' = namesGiven slot f := by
  cases slot with
  | entry e => rfl
  | everything specifier =>
    -- both drafts ask for the module, and in the same mode
    cases left with
    | silent request _ => cases request
    | asked request answer _ =>
      cases right with
      | silent request' _ => cases request'
      | asked request' answer' _ =>
        cases request
        cases request'
        rw [answer'.unique answer]

theorem zipWith_namesGiven_agree {slots : List Slot} {u u' v v' : Unit} {fs fs' : List Fetched}
    (left : Answered (PlainAnswer t project (Plain t project) p) d slots u fs u')
    (right : Answered (PlainAnswer t project (Plain t project) p) d.withoutImports slots v fs' v') :
    List.zipWith namesGiven slots fs' = List.zipWith namesGiven slots fs := by
  induction slots generalizing u v fs fs' with
  | nil => rfl
  | cons slot rest ih =>
    obtain ⟨f, gs, w, rfl, others⟩ := left.exists_cons
    obtain ⟨f', gs', w', rfl, others'⟩ := right.exists_cons
    rw [List.zipWith_cons_cons, List.zipWith_cons_cons, namesGiven_agree left right,
      ih others others']

/-! ## Modules -/

/-- The names of a module are the same in both modes. -/
theorem Plain.outerNamesOf_exports {m m' : Option Linked} (full : Plain t project p .full m)
    (brief : Plain t project p .exportsOnly m') :
    m'.map (outerNamesOf ·.table.exports) = m.map (outerNamesOf ·.table.exports) := by
  rcases full.in_both_modes brief with
    ⟨rfl, rfl⟩ | ⟨d, -, ⟨rfl, rfl⟩ | ⟨fs, fs', rfl, rfl, answered, answered'⟩⟩
  · rfl
  · rfl
  · have names : outerNamesOf (filled d.withoutImports d.slots fs') =
        outerNamesOf (filled d d.slots fs) := by
      rw [outerNamesOf_filled, outerNamesOf_filled, zipWith_namesGiven_agree answered answered']
    rw [Option.map_some, Option.map_some, linkedWith, linkedWith, outerNamesOf_distinctExports,
      outerNamesOf_distinctExports]
    exact congrArg (fun names => some names.eraseDups) names

/-- The mode decides about imports only.

The draft of a syntax tree has in both modes the same slots and the same unexported declarations, so
references are followed in both or in neither; without imports it has none. The same holds of every
file, where a language that is not known is refused in both modes alike. In a part of a project
where modules refer to each other by relative specifiers and without cycles, the names that
importers see are the same in both modes and stand in the same order, the default apart, whatever
was asked before on a tree that does not change. -/
theorem modes_differ_in_imports (project : Project) (t : Tree) :
    (∀ o : Outline,
      (Draft.ofOutline .exportsOnly o).slots = (Draft.ofOutline .full o).slots ∧
      (Draft.ofOutline .exportsOnly o).locals = (Draft.ofOutline .full o).locals ∧
      (Draft.ofOutline .exportsOnly o).imports = [] ∧
      (Draft.ofOutline .exportsOnly o).isPending = (Draft.ofOutline .full o).isPending) ∧
    (∀ (path : Path) (content : String),
      Draft.ofFile .exportsOnly path content =
        (Draft.ofFile .full path content).map fun d => { d with imports := [] }) ∧
    ∀ S, Straight t project S → ∀ p, S p → ∀ before before' : List Operation,
      ((run project (before.map (t, ·))).tableAt t p .exportsOnly).1.map
          (outerNamesOf ·.exports) =
        ((run project (before'.map (t, ·))).tableAt t p .full).1.map (outerNamesOf ·.exports) := by
  refine ⟨?_, ?_, ?_⟩
  · intro o
    rw [Draft.ofOutline_exportsOnly]
    exact ⟨rfl, rfl, rfl, rfl⟩
  · exact Draft.ofFile_exportsOnly
  · intro S straight p inside before before'
    obtain ⟨m', brief, table'⟩ := exists_plain_straight (l := ⟨p, none⟩) straight
      (faithfulOn_run straight before) inside .exportsOnly
    obtain ⟨m, full, table⟩ := exists_plain_straight (l := ⟨p, none⟩) straight
      (faithfulOn_run straight before') inside .full
    rw [tableAt, tableAt, table, table', Option.map_map, Option.map_map]
    exact full.outerNamesOf_exports brief

/-- A module that imports a binding under another name, exports it, and exports everything of the
module it comes from. -/
def passingTree : Tree :=
  (({} : Tree).write ⟨"/p/main.ts"⟩ (.text
    "import \x7b a as b \x7d from '/p/lib'; export \x7b b \x7d; export * from '/p/lib';")).write
    ⟨"/p/lib.ts"⟩ (.text "export const a = 1;")

theorem straight_passingTree : Straight passingTree sample fun _ => True := by
  have orderly : Orderly passingTree sample :=
    orderly_of_texts ⟨"/p/lib.ts"⟩ "export const a = 1;" (by decide +kernel) (by decide +kernel)
  exact orderly.straight

/-- The names are those of the module and of the one it takes everything from, also where the other
mode was asked for before. -/
theorem modes_differ_in_imports_passed :
    Straight passingTree sample (fun _ => True) ∧
    ((run sample [(passingTree, .tableAt ⟨"/p/main.ts"⟩ .exportsOnly)]).tableAt passingTree
      ⟨"/p/main.ts"⟩ .full).1.map (outerNamesOf ·.exports) = some ["b", "a"] := by
  have names : ((run sample []).tableAt passingTree ⟨"/p/main.ts"⟩ .exportsOnly).1.map
      (outerNamesOf ·.exports) = some ["b", "a"] := by decide +kernel
  have agree := (modes_differ_in_imports sample passingTree).2.2 _ straight_passingTree
    ⟨"/p/main.ts"⟩ trivial [] [.tableAt ⟨"/p/main.ts"⟩ .exportsOnly]
  exact ⟨straight_passingTree, agree.symm.trans names⟩

end ModuleAtlas.Atlas
