import Mathlib.Data.List.Nodup
import ModuleAtlas.Proofs.Draft
import ModuleAtlas.Proofs.Tables

/-!
# Names of exports

Importers tell the exports of a module apart by their name and by whether they are the default
(`exportKey`). Linking leaves one export for each key. A module that refers to nothing is not
linked, and its table holds what its file exports, key by key as often as the file says it: so the
keys of an answer differ exactly if the module is linked or the keys of its file differ
(`names_unique_iff`).
-/

namespace ModuleAtlas.Atlas

open Draft (Mode)
open Resolution (Location)
open Symbols

/-- What importers tell exports apart by. -/
def exportKey (e : Export) : Bool × String := (e.isDefault, e.outerName)

/-- Linking leaves one export for each key. -/
theorem nodup_distinctExports (es : List Export) : ((distinctExports es).map exportKey).Nodup := by
  obtain ⟨-, -, apart⟩ := distinctExports_spec es
  rw [List.Nodup, List.pairwise_map]
  refine apart.imp fun {k e} different same => different ?_
  rwa [exportKey, exportKey, Prod.mk.injEq] at same

/-- The keys of a table differ if its module is linked; else the table holds the exports of its
file. -/
def NamedOnce (mode : Mode) (p : Path) (content : String) (m : Linked) : Prop :=
  ∃ d, Draft.ofFile? mode p content = some d ∧
    (d.isPending = true → (m.table.exports.map exportKey).Nodup) ∧
    (d.isPending = false → m.table.exports = d.entries)

theorem upheld_trivial (t : Tree) : Upheld t (fun _ => True) (fun _ => True) :=
  ⟨fun _ _ => trivial, fun _ _ => trivial, fun _ _ => ⟨trivial, fun _ _ => trivial⟩⟩

theorem inherited_namedOnce (t : Tree) : Inherited t (fun _ => True) NamedOnce := by
  constructor
  · intro mode p q content m same named
    rwa [NamedOnce, ← Draft.ofFile?_congr same]
  · intro mode p content d _ ok settled
    refine ⟨d, Draft.ofFile?_eq_some.mpr ok, fun pending => ?_, fun _ => rfl⟩
    rw [settled] at pending
    cases pending
  · intro mode p content d fs _ ok pending _
    refine ⟨d, Draft.ofFile?_eq_some.mpr ok, fun _ => nodup_distinctExports _, fun settled => ?_⟩
    rw [pending] at settled
    cases settled

theorem namedOnce_run (project : Project) (steps : List (Tree × Operation)) :
    AllKept NamedOnce (run project steps) := by
  have kept : True ∧ AllKept NamedOnce (run project steps) := by
    refine run_keeps (I := fun atlas => True ∧ AllKept NamedOnce atlas)
      ⟨trivial, fun e member => nomatch member⟩ fun step _ atlas kept => ?_
    exact (inherited_namedOnce step.1).perform (upheld_trivial step.1) step.2 atlas kept
  exact kept.2

/-- In every answer the keys of the exports differ exactly if the module refers to something, and
so is linked, or the keys of the exports in its file differ. -/
theorem names_unique_iff (project : Project) (steps : List (Tree × Operation)) (t : Tree)
    (p : Path) (mode : Mode) (table : Table)
    (answered : ((run project steps).tableAt t p mode).1 = some table) :
    ∃ content d, t.read? p = some content ∧ Draft.ofFile mode p content = .ok d ∧
      (d.isPending = false → table.exports = d.entries) ∧
      ((table.exports.map exportKey).Nodup ↔
        d.isPending = true ∨ (d.entries.map exportKey).Nodup) := by
  have start := namedOnce_run project steps
  obtain ⟨e, -, read, rfl, d, ofFile, once, asWritten⟩ :=
    (inherited_namedOnce t).answer (upheld_trivial t) ⟨trivial, start⟩ (.tableAt p mode) rfl
      (congrArg Answer.table answered)
  refine ⟨e.content, d, read, Draft.ofFile?_eq_some.mp ofFile, asWritten, ?_⟩
  cases pending : d.isPending with
  | true => simp [once pending]
  | false => simp [asWritten pending]

theorem names_unique_iff_ring :
    ∃ table, ((run sample [(ringTree, .tableAt ⟨"/p/b.ts"⟩ .exportsOnly)]).tableAt ringTree
      ⟨"/p/a.ts"⟩ .full).1 = some table ∧ (table.exports.map exportKey).Nodup := by
  obtain ⟨table, answered⟩ : ∃ table,
      ((run sample [(ringTree, .tableAt ⟨"/p/b.ts"⟩ .exportsOnly)]).tableAt ringTree
        ⟨"/p/a.ts"⟩ .full).1 = some table :=
    Option.isSome_iff_exists.mp (by decide +kernel)
  obtain ⟨content, d, read, ok, -, unique⟩ := names_unique_iff sample
    [(ringTree, .tableAt ⟨"/p/b.ts"⟩ .exportsOnly)] ringTree ⟨"/p/a.ts"⟩ .full table answered
  have text : ringTree.read? ⟨"/p/a.ts"⟩ = some "export * from './b'; export const a = 1;" := by
    decide +kernel
  have pending : (Draft.ofFile? .full ⟨"/p/a.ts"⟩ "export * from './b'; export const a = 1;").map
      Draft.isPending = some true := by
    decide +kernel
  rw [text] at read
  cases read
  rw [Draft.ofFile?_eq_some.mpr ok, Option.map_some] at pending
  exact ⟨table, answered, unique.mpr (.inl (Option.some.inj pending))⟩

/-- A module that exports a type and a value of one name. -/
def mergedTree : Tree :=
  ({} : Tree).write ⟨"/p/main.ts"⟩ (.text "export interface A \x7b\x7d export const A = 1;")

/-- The type and the value are two exports of one name. -/
theorem names_repeat_merged :
    ¬ ∀ table, ((run sample []).tableAt mergedTree ⟨"/p/main.ts"⟩ .full).1 = some table →
      (table.exports.map exportKey).Nodup := by
  have keys : ((run sample []).tableAt mergedTree ⟨"/p/main.ts"⟩ .full).1.map
      (fun table => table.exports.map exportKey) = some [(false, "A"), (false, "A")] := by
    decide +kernel
  obtain ⟨table, answered, twice⟩ := Option.map_eq_some_iff.mp keys
  intro unique
  have once := unique table answered
  rw [twice] at once
  simp at once

end ModuleAtlas.Atlas
