import ModuleAtlas.Proofs.Resolution
import ModuleAtlas.Proofs.Runs

/-!
# Atlases that agree with a tree

What an atlas keeps about resolving agrees with a tree when its aliases are those of the tree and
each location kept for a relative specifier is the file that the specifier means there, if there is
such a file at all (`Settled`). An atlas that agrees with a tree answers relative specifiers as the
tree does and still agrees with it afterwards (`Settled.resolve`). Linking and forgetting keep the
agreement too (`Settled.finish`, `Settled.forgets`).
-/

namespace ModuleAtlas.Atlas

open Draft (Mode)
open Resolution (Location LookupKind projectAliases relativeFile sameContext)

/-- Whether a specifier is looked up as a path in a project. -/
def IsRelative (t : Tree) (project : Project) (specifier : String) : Prop :=
  LookupKind.of (projectAliases t project.root) specifier = .relative

instance (t : Tree) (project : Project) (specifier : String) :
    Decidable (IsRelative t project specifier) :=
  inferInstanceAs (Decidable (LookupKind.of (projectAliases t project.root) specifier = .relative))

/-- The file that a relative specifier means in a project, seen from a file. -/
def fileMeant (t : Tree) (project : Project) (file : Path) (specifier : String) : Option Path :=
  relativeFile t project (projectAliases t project.root) file specifier

theorem fileMeant_congr {t : Tree} {project : Project} {file file' : Path}
    (same : file.same file' = true) (specifier : String) :
    fileMeant t project file specifier = fileMeant t project file' specifier :=
  Resolution.relativeFile_congr same specifier

/-- What an atlas of a project keeps about resolving agrees with a tree. -/
structure Settled (t : Tree) (project : Project) (atlas : Atlas) : Prop where
  sameProject : atlas.project = project
  aliases : ∀ a, atlas.aliases = some a → a = projectAliases t project.root
  locations : ∀ e ∈ atlas.locations.entries, IsRelative t project e.1.specifier →
    t.isFile e.2.path = true →
      fileMeant t project e.1.file e.1.specifier = some e.2.path ∧
        sameContext e.2.context e.1.context = true

namespace Settled

variable {t : Tree} {project : Project} {atlas atlas' : Atlas}

theorem start (t : Tree) (project : Project) : Settled t project { project } :=
  ⟨rfl, fun _ h => (nomatch h), fun _ member => (nomatch member)⟩

theorem withTables (h : Settled t project atlas) (tables : TableCache) :
    Settled t project { atlas with tables } :=
  ⟨h.sameProject, h.aliases, h.locations⟩

theorem forgets (h : Settled t project atlas) (fewer : Forgets atlas atlas') :
    Settled t project atlas' := by
  refine ⟨fewer.project.trans h.sameProject, fun a read => ?_, fun e member =>
    h.locations e (fewer.locations member)⟩
  rcases fewer.aliases with none | same
  · rw [none] at read
    cases read
  · exact h.aliases a (same ▸ read)

/-- An atlas goes by the aliases of every tree that has the same ones. -/
theorem aliasesIn_of_eq {t' : Tree} (h : Settled t project atlas)
    (same : projectAliases t' project.root = projectAliases t project.root) :
    atlas.aliasesIn t' = projectAliases t' project.root := by
  rw [aliasesIn, h.sameProject]
  cases read : atlas.aliases with
  | none => rfl
  | some a => exact (h.aliases a read).trans same.symm

theorem aliasesIn_eq (h : Settled t project atlas) :
    atlas.aliasesIn t = projectAliases t project.root :=
  h.aliasesIn_of_eq rfl

/-- Relative specifiers mean what they mean in the tree. -/
theorem resolve {specifier : String} {file : Path} {context : Option Path} {r : Option Location}
    (h : Settled t project atlas)
    (resolving : atlas.resolve t specifier file context = (r, atlas')) :
    Settled t project atlas' ∧ (IsRelative t project specifier →
      r.map (·.path) = fileMeant t project file specifier ∧
        ∀ l, r = some l → sameContext l.context context = true) := by
  obtain ⟨sameProject, -, outcome⟩ := resolve_cases resolving
  rcases outcome with ⟨k, l, member, same, isFile, rfl, aliases, fewer⟩ | ⟨aliases, found, fewer⟩
  · refine ⟨⟨sameProject.trans h.sameProject, fun a read => h.aliases a (aliases ▸ read),
      fun e inside => h.locations e (fewer e inside)⟩, fun relative => ?_⟩
    obtain ⟨specifiers, files, contexts⟩ := LocationKey.same_iff.mp same
    have kept := h.locations (k, l) member
    rw [specifiers, fileMeant_congr files] at kept
    obtain ⟨means, inContext⟩ := kept relative isFile
    refine ⟨means.symm, ?_⟩
    rintro _ ⟨⟩
    exact sameContext_trans inContext contexts
  · rw [h.aliasesIn_eq, h.sameProject] at found
    have meant : IsRelative t project specifier →
        r = (fileMeant t project file specifier).map (⟨·, context⟩) := by
      intro relative
      rw [← found, Resolution.resolve_of_relative relative]
      rfl
    refine ⟨⟨sameProject.trans h.sameProject, ?_, fun e inside relative isFile => ?_⟩,
      fun relative => ?_⟩
    · rintro _ read
      rw [aliases, h.aliasesIn_eq] at read
      exact (Option.some.inj read).symm
    · rcases fewer e inside with inside | ⟨same, isFound⟩
      · exact h.locations e inside relative isFile
      · obtain ⟨specifiers, files, contexts⟩ := LocationKey.same_iff.mp same
        rw [specifiers] at relative
        rw [meant relative] at isFound
        obtain ⟨q, means, whole⟩ := Option.map_eq_some_iff.mp isFound
        rw [specifiers, fileMeant_congr files, means, ← whole]
        exact ⟨rfl, sameContext_symm contexts⟩
    · rw [meant relative]
      cases fileMeant t project file specifier with
      | none => exact ⟨rfl, fun l h => nomatch h⟩
      | some q =>
        refine ⟨rfl, ?_⟩
        rintro _ ⟨⟩
        exact sameContext_refl context

theorem finish {s : Session} (h : Settled t project s.atlas) (l : Location) (mode : Mode)
    (content : String) (level : Level) (m : Option Linked) :
    Settled t project (s.finish l mode content level m).atlas := by
  obtain ⟨tables, kept⟩ := atlas_keep l mode content (s.nesting.isComplete level) m
    { s with nesting := (s.nesting.pop level).2 }
  rw [Session.finish, kept]
  exact h.withTables tables

theorem perform (h : Settled t project atlas) (operation : Operation) :
    Settled t project (perform t operation atlas).2 := by
  refine perform_keeps (fun resolving kept => (kept.resolve resolving).1) (fun loads kept => ?_)
    (fun forgets kept => kept.forgets forgets) operation atlas h
  exact loads.keeps (fun tables kept => kept.withTables tables)
    (fun resolving kept => (kept.resolve resolving).1) kept

end Settled

/-- While the tree does not change, an atlas agrees with it. -/
theorem settled_run (t : Tree) (project : Project) (asked : List Operation) :
    Settled t project (run project (asked.map (t, ·))) :=
  run_keeps_on (.start t project) (fun operation _ kept => kept.perform operation) asked

/-- The file that a specifier means, seen from a file of a project that nothing is kept of. -/
def meaning (t : Tree) (project : Project) (p : Path) (specifier : String) : Option Path :=
  (({ project } : Atlas).resolve t specifier p none).1.map (·.path)

theorem meaning_eq {t : Tree} {project : Project} {specifier : String}
    (relative : IsRelative t project specifier) (p : Path) :
    meaning t project p specifier = fileMeant t project p specifier :=
  (((Settled.start t project).resolve rfl).2 relative).1

end ModuleAtlas.Atlas
