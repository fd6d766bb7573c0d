import ModuleAtlas.Proofs.Freshness

/-!
# Exports in both modes

An `export *` takes the exports of its module in the mode that leaves imports out. There the names
that lead to an imported binding (`passedOn`) lead elsewhere. All other exports are the same in both
modes, with the same declarations and in the same order (`exports_agree_across_modes`).
-/

namespace ModuleAtlas.Atlas

open Draft (Mode Slot)
open Resolution (Location Slashless)
open Symbols

variable {t : Tree} {project : Project} {S : Path → Prop} {p : Path} {d : Draft}

/-! ## Leaving out names -/

/-- Leaving out what does not count before or after keeping the first of those that are alike comes
to the same, if those that are alike count alike. -/
theorem filter_foldl_keepFirst {α : Type} {alike : α → α → Bool} {counts : α → Bool}
    (respects : ∀ a b, alike a b = true → counts a = counts b) (as kept : List α) :
    (as.foldl (keepFirst alike) kept).filter counts =
      (as.filter counts).foldl (keepFirst alike) (kept.filter counts) := by
  induction as generalizing kept with
  | nil => rfl
  | cons a as ih =>
    rw [List.foldl_cons, ih]
    cases isCounted : counts a with
    | false =>
      rw [List.filter_cons_of_neg (by simp [isCounted])]
      congr 1
      unfold keepFirst
      split
      · rfl
      · rw [List.filter_append, List.filter_cons_of_neg (by simp [isCounted]), List.filter_nil,
          List.append_nil]
    | true =>
      have seen : (kept.filter counts).any (alike · a) = kept.any (alike · a) := by
        rw [List.any_filter]
        congr 1
        funext b
        cases isAlike : alike b a with
        | false => simp
        | true => simp [respects b a isAlike, isCounted]
      rw [List.filter_cons_of_pos isCounted, List.foldl_cons]
      congr 1
      unfold keepFirst
      rw [seen]
      split
      · rfl
      · rw [List.filter_append, List.filter_cons_of_pos isCounted, List.filter_nil]

/-- Whether importers see two exports under one name. All defaults are seen under one. -/
def seenAlike (e x : Export) : Bool :=
  e.isDefault == x.isDefault && (e.isDefault || e.outerName == x.outerName)

/-- An entry is seen under its name, whatever it stands for. -/
theorem seenAlike_of_mem_fill {table : Option Table} {e x : Export}
    (member : x ∈ fill d table (.entry e)) : seenAlike e x = true := by
  obtain ⟨y, whole, sameDefault, sameName⟩ := exists_fill_entry d table e
  rw [whole, List.mem_singleton] at member
  rw [member, seenAlike, sameDefault]
  cases isDefault : e.isDefault with
  | true => rfl
  | false => simp [sameName isDefault]

/-- The entries of the file at a path that lead to imported bindings. -/
def passedOn (t : Tree) (p : Path) : List Export :=
  match Draft.ofTree? t p with
  | some d => (d.slots.filter (leadsToImport d)).filterMap Slot.entry?
  | none => []

theorem mem_passedOn {e : Export} (isDraft : Draft.ofTree? t p = some d)
    (member : .entry e ∈ d.slots) (leads : leadsToImport d (.entry e) = true) :
    e ∈ passedOn t p := by
  rw [passedOn, isDraft]
  exact List.mem_filterMap.mpr ⟨_, List.mem_filter.mpr ⟨member, leads⟩, rfl⟩

theorem leadsToImport_of_passedOn (owns : passedOn t p = [])
    (isDraft : Draft.ofTree? t p = some d) :
    ∀ slot ∈ d.slots, leadsToImport d slot = false := by
  intro slot member
  cases slot with
  | everything specifier => rfl
  | entry e =>
    refine Bool.eq_false_iff.mpr fun leads => ?_
    have passed := mem_passedOn isDraft member leads
    rw [owns] at passed
    cases passed

/-- Whether an export of the module at a path is seen under none of the names that lead to
imports. -/
def isOwn (t : Tree) (p : Path) (x : Export) : Bool := !(passedOn t p).any (seenAlike · x)

theorem filter_distinctExports (t : Tree) (p : Path) (es : List Export) :
    (distinctExports es).filter (isOwn t p) = distinctExports (es.filter (isOwn t p)) := by
  refine filter_foldl_keepFirst (fun a b alike => ?_) es []
  rw [Bool.and_eq_true, beq_iff_eq, beq_iff_eq] at alike
  simp only [isOwn, seenAlike, alike.1, alike.2]

/-! ## Linking without keeping -/

/-- A slot that leads to an import stands for nothing of the module's own. -/
theorem filter_fill (isDraft : Draft.ofTree? t p = some d) {slot : Slot} (member : slot ∈ d.slots)
    (leads : leadsToImport d slot = true) (d' : Draft) (table : Option Table) :
    (fill d' table slot).filter (isOwn t p) = [] := by
  cases slot with
  | everything specifier => cases leads
  | entry e =>
    refine List.filter_eq_nil_iff.mpr fun x inside => ?_
    have seen : (passedOn t p).any (seenAlike · x) = true :=
      List.any_eq_true.mpr ⟨e, mem_passedOn isDraft member leads, seenAlike_of_mem_fill inside⟩
    rw [isOwn, seen]
    exact Bool.false_ne_true

/-- With and without imports, slots stand for the same exports of the module's own. -/
theorem filter_filled (isDraft : Draft.ofTree? t p = some d) {slots : List Slot}
    (inside : slots ⊆ d.slots) {u u' v v' : Unit} {fs fs' : List Fetched}
    (left : Answered (PlainAnswer t project (Plain t project) p) d slots u fs u')
    (right : Answered (PlainAnswer t project (Plain t project) p) d.withoutImports slots v fs' v') :
    (filled d.withoutImports slots fs').filter (isOwn t p) =
      (filled d slots fs).filter (isOwn t p) := by
  induction slots generalizing u v fs fs' with
  | nil => rfl
  | cons slot rest ih =>
    obtain ⟨member, others⟩ := List.cons_subset.mp inside
    -- the answers to the first slot are the same, unless it leads to an import
    have first : ∃ f f' gs gs', fs = f :: gs ∧ fs' = f' :: gs' ∧
        (leadsToImport d slot = false → f' = f) ∧
        (filled d.withoutImports rest gs').filter (isOwn t p) =
          (filled d rest gs).filter (isOwn t p) := by
      have requests := request?_withoutImports d slot
      cases left with
      | silent request left =>
        cases right with
        | silent request' right => exact ⟨_, _, _, _, rfl, rfl, fun _ => rfl, ih others left right⟩
        | asked request' answer' right =>
          rw [request', request, ite_self] at requests
          cases requests
      | asked request answer left =>
        cases right with
        | silent request' right =>
          refine ⟨_, _, _, _, rfl, rfl, fun own => ?_, ih others left right⟩
          rw [request', own, if_neg Bool.false_ne_true, request] at requests
          cases requests
        | asked request' answer' right =>
          refine ⟨_, _, _, _, rfl, rfl, fun own => ?_, ih others left right⟩
          rw [request', own, if_neg Bool.false_ne_true, request] at requests
          cases requests
          exact answer'.unique answer
    obtain ⟨f, f', gs, gs', rfl, rfl, same, rests⟩ := first
    rw [filled, filled, List.filter_append, List.filter_append, rests]
    congr 1
    cases leads : leadsToImport d slot with
    | true => rw [filter_fill isDraft member leads, filter_fill isDraft member leads]
    | false => rw [fill_withoutImports leads, same leads]

/-- In both modes a file gives no module, or its draft is taken as it is, or the draft is linked,
once with its imports and once without. -/
theorem Plain.in_both_modes {m m' : Option Linked} (full : Plain t project p .full m)
    (brief : Plain t project p .exportsOnly m') :
    (m = none ∧ m' = none) ∨ ∃ d, Draft.ofTree? t p = some d ∧
      ((m = some { table := d.unlinked } ∧ m' = some { table := d.withoutImports.unlinked }) ∨
        ∃ fs fs', m = some (linkedWith p d fs) ∧ m' = some (linkedWith p d.withoutImports fs') ∧
          Answered (PlainAnswer t project (Plain t project) p) d d.slots () fs () ∧
          Answered (PlainAnswer t project (Plain t project) p) d.withoutImports d.slots ()
            fs' ()) := by
  cases read : t.read? p with
  | none => exact .inl ⟨full.unique (plain_of_unread read _), brief.unique (plain_of_unread read _)⟩
  | some content =>
    have drafts := Draft.ofFile?_exportsOnly p content
    have builtFull := full.built read
    have builtBrief := brief.built read
    cases isDraft : Draft.ofFile? .full p content with
    | none =>
      rw [isDraft, Option.map_none] at drafts
      exact .inl ⟨builtFull.eq_none isDraft, builtBrief.eq_none drafts⟩
    | some d =>
      rw [isDraft, Option.map_some] at drafts
      have inTree : Draft.ofTree? t p = some d := by
        rw [Draft.ofTree?, read, Option.bind_some, isDraft]
      have pending : d.withoutImports.isPending = d.isPending := rfl
      refine .inr ⟨d, inTree, ?_⟩
      rcases builtFull.of_draft isDraft with
        ⟨settled, isPlain⟩ | ⟨isPending, fs, isLinked, answered⟩
      · rcases builtBrief.of_draft drafts with ⟨-, isPlain'⟩ | ⟨isPending, -⟩
        · exact .inl ⟨isPlain, isPlain'⟩
        · rw [pending, settled] at isPending
          cases isPending
      · rcases builtBrief.of_draft drafts with ⟨settled, -⟩ | ⟨-, fs', isLinked', answered'⟩
        · rw [pending, isPending] at settled
          cases settled
        · exact .inr ⟨fs, fs', isLinked, isLinked', answered, answered'⟩

/-- The module at a path has the same exports of its own in both modes. -/
theorem Plain.filter_exports {m m' : Option Linked} (full : Plain t project p .full m)
    (brief : Plain t project p .exportsOnly m') :
    m'.map (·.table.exports.filter (isOwn t p)) = m.map (·.table.exports.filter (isOwn t p)) := by
  rcases full.in_both_modes brief with
    ⟨rfl, rfl⟩ | ⟨d, inTree, ⟨rfl, rfl⟩ | ⟨fs, fs', rfl, rfl, answered, answered'⟩⟩
  · rfl
  · rfl
  · have fills := filter_filled inTree (List.Subset.refl _) answered answered'
    rw [Option.map_some, Option.map_some, linkedWith, linkedWith, filter_distinctExports,
      filter_distinctExports]
    exact congrArg (fun es => some (distinctExports es)) fills

theorem Answered.exists_cons {σ : Type} {R : String → Mode → σ → Fetched → σ → Prop} {slot : Slot}
    {rest : List Slot} {s s' : σ} {fs : List Fetched} (h : Answered R d (slot :: rest) s fs s') :
    ∃ f gs s₁, fs = f :: gs ∧ Answered R d rest s₁ gs s' := by
  cases h with
  | silent _ others => exact ⟨_, _, _, rfl, others⟩
  | asked _ _ others => exact ⟨_, _, _, rfl, others⟩

/-- Where all of a module is exported, its exports stand in the mode without imports. -/
theorem filled_star {q : Path} {front back : List Slot} {specifier : String} {u u' : Unit}
    {fs : List Fetched} (meant : fileMeant t project q specifier = some p)
    (answered : Answered (PlainAnswer t project (Plain t project) q) d
      (front ++ .everything specifier :: back) u fs u') :
    ∃ fs₁ fs₂ m, Plain t project p .exportsOnly m ∧
      filled d (front ++ .everything specifier :: back) fs =
        filled d front fs₁ ++ (m.map (·.table.exports)).getD [] ++ filled d back fs₂ := by
  induction front generalizing u fs with
  | nil =>
    cases answered with
    | silent request _ => cases request
    | @asked _ _ _ _ _ _ _ _ fs₂ request answer others =>
      cases request
      rcases answer with ⟨none, -⟩ | ⟨q', m, meant', plain, rfl⟩
      · rw [meant] at none
        cases none
      · rw [meant] at meant'
        cases meant'
        refine ⟨[], fs₂, m, plain, ?_⟩
        cases m <;> rfl
  | cons slot front ih =>
    obtain ⟨f, gs, v, rfl, others⟩ := answered.exists_cons
    obtain ⟨fs₁, fs₂, m, plain, whole⟩ := ih others
    refine ⟨f :: fs₁, fs₂, m, plain, ?_⟩
    rw [List.cons_append, filled, whole, filled]
    simp only [List.append_assoc]

/-! ## Answers -/

/-- On a tree that does not change, what is kept agrees with it on every part in order. -/
theorem faithfulOn_run (straight : Straight t project S) (before : List Operation) :
    FaithfulOn S t project (run project (before.map (t, ·))) := by
  refine run_keeps_on (.start t project) (fun operation atlas kept => ?_) before
  refine perform_keeps (fun found kept => kept.resolve found) (fun loads kept => ?_)
    (fun fewer kept => kept.forgets fewer) operation atlas kept
  exact (FaithfulOn.loads straight loads kept fun q member => nomatch member).kept

theorem exists_plain_run (slashless : Slashless project.extensions)
    (straight : Straight t project S) (inside : S p) (before : List Operation) (mode : Mode) :
    ∃ m, Plain t project p mode m ∧
      ((run project (before.map (t, ·))).tableAt t p mode).1 = m.map (·.table) :=
  exists_plain (l := ⟨p, none⟩) straight (faithfulOn_run straight before)
    (keepsNormal_run slashless _) inside mode

/-- Where no entry leads to an import, a file is built in both modes by the same steps. -/
theorem buildWith_exportsOnly {σ : Type} (fetch : Fetch σ) (count : σ → σ) {content : String}
    (owns : ∀ d, Draft.ofFile? .full p content = some d →
      ∀ slot ∈ d.slots, leadsToImport d slot = false) (s : σ) :
    buildWith fetch count .exportsOnly p content s =
      (buildWith fetch count .full p content s).map fun r =>
        (r.1.map Linked.withoutImports, r.2) := by
  have drafts := Draft.ofFile?_exportsOnly p content
  unfold buildWith
  cases isDraft : Draft.ofFile? .full p content with
  | none =>
    rw [isDraft, Option.map_none] at drafts
    obtain ⟨e, error⟩ := Draft.ofFile?_eq_none.mp isDraft
    obtain ⟨e', error'⟩ := Draft.ofFile?_eq_none.mp drafts
    rw [error, error']
    rfl
  | some d =>
    rw [isDraft, Option.map_some] at drafts
    rw [Draft.ofFile?_eq_some.mp isDraft, Draft.ofFile?_eq_some.mp drafts]
    have pending : d.withoutImports.isPending = d.isPending := rfl
    dsimp only
    rw [pending]
    split
    · rw [link_withoutImports fetch p (owns d isDraft), Option.map_map, Option.map_map]
      rfl
    · rfl

/-- Where no entry leads to an import and no table is kept, a module is loaded in both modes by the
same steps. -/
theorem load_exportsOnly {atlas : Atlas} {l : Location}
    (absent : ∀ mode, atlas.tables.find? l.path mode = none) (owns : passedOn t l.path = [])
    (fuel : Nat) :
    (load t (fuel + 1) l .exportsOnly { atlas }).map (·.1) =
      (load t (fuel + 1) l .full { atlas }).map (·.1.map Linked.withoutImports) := by
  rw [load, load]
  cases read : t.read? l.path with
  | none => rfl
  | some content =>
    have missed : ∀ mode, atlas.tables.get l.path mode content =
        (none, { atlas.tables with misses := atlas.tables.misses + 1 }) := by
      intro mode
      rw [TableCache.get, absent mode]
    have ownSlots : ∀ d, Draft.ofFile? .full l.path content = some d →
        ∀ slot ∈ d.slots, leadsToImport d slot = false := by
      intro d isDraft
      refine leadsToImport_of_passedOn owns ?_
      rw [Draft.ofTree?, read, Option.bind_some, isDraft]
    dsimp only
    rw [missed, missed]
    dsimp only
    split
    · rfl
    · rw [build_eq, build_eq, buildWith_exportsOnly _ _ ownSlots, Option.map_map, Option.map_map,
        Option.map_map]
      rfl

/-- A module of which no table is kept has the same exports in both modes, however it refers to
others, if no entry of its file leads to an import. -/
theorem exports_loadTable {atlas : Atlas} {l : Location}
    (absent : ∀ mode, atlas.tables.find? l.path mode = none) (owns : passedOn t l.path = []) :
    (atlas.loadTable t l .exportsOnly).1.map (·.exports) =
      (atlas.loadTable t l .full).1.map (·.exports) := by
  obtain ⟨fuel, depth⟩ : ∃ fuel, loadDepth t atlas.project = fuel + 1 := ⟨_, rfl⟩
  have loads := load_exportsOnly absent owns fuel
  rw [loadTable, loadTable, depth]
  cases brief : load t (fuel + 1) l .exportsOnly { atlas } with
  | none =>
    rw [brief, Option.map_none, eq_comm, Option.map_eq_none_iff] at loads
    rw [loads]
  | some r =>
    obtain ⟨m, s⟩ := r
    rw [brief, Option.map_some, eq_comm, Option.map_eq_some_iff] at loads
    obtain ⟨⟨m', s'⟩, full, rfl⟩ := loads
    rw [full]
    dsimp only
    rw [Option.map_map, Option.map_map, Option.map_map]
    rfl

/-- Where a module of a part in order exports everything of another, the exports of the other
without imports stand between those of the slots before and behind. -/
theorem exports_star (slashless : Slashless project.extensions) (straight : Straight t project S)
    (inside : S p) {q : Path} {content : String} {mode : Mode} {front : List Slot}
    {specifier : String} {back : List Slot} (qInside : S q) (read : t.read? q = some content)
    (ok : Draft.ofFile mode q content = .ok d)
    (slots : d.slots = front ++ .everything specifier :: back)
    (meant : fileMeant t project q specifier = some p) (before before' : List Operation) :
    ∃ table fs₁ fs₂, ((run project (before.map (t, ·))).tableAt t q mode).1 = some table ∧
      table.exports = distinctExports (filled d front fs₁ ++
        (((run project (before'.map (t, ·))).tableAt t p .exportsOnly).1.map
          (·.exports)).getD [] ++ filled d back fs₂) := by
  obtain ⟨m, plain, table⟩ := exists_plain_run slashless straight qInside before mode
  obtain ⟨m', brief, table'⟩ := exists_plain_run slashless straight inside before' .exportsOnly
  have pending : d.isPending = true := by
    rw [Draft.isPending, slots, List.any_append, List.any_cons]
    simp [Slot.isPending]
  rcases (plain.built read).of_draft (Draft.ofFile?_eq_some.mpr ok) with
    ⟨settled, -⟩ | ⟨-, fs, rfl, answered⟩
  · rw [pending] at settled
    cases settled
  · rw [slots] at answered
    obtain ⟨fs₁, fs₂, m, plain', whole⟩ := filled_star meant answered
    refine ⟨_, fs₁, fs₂, table, ?_⟩
    rw [table', brief.unique plain', Option.map_map]
    exact congrArg distinctExports (slots ▸ whole)

/-- Both modes give a module the same exports, in the same order and with the same declarations, but
for names that lead to bindings the module imports.

Where a part of the project is in order, this holds on a tree that does not change, whatever was
asked before, of all exports that are seen under other names; and the exports without imports are
what stands where another module exports everything of this one. Where the module has no such names
and no table of it is kept, it holds however modules refer to each other. -/
theorem exports_agree_across_modes {project : Project} (slashless : Slashless project.extensions)
    (t : Tree) (p : Path) :
    (∀ S, Straight t project S → S p → ∀ before before' : List Operation,
      ((run project (before.map (t, ·))).tableAt t p .exportsOnly).1.map
          (·.exports.filter (isOwn t p)) =
        ((run project (before'.map (t, ·))).tableAt t p .full).1.map
          (·.exports.filter (isOwn t p))) ∧
    (∀ S, Straight t project S → S p → ∀ (q : Path) (content : String) (mode : Mode) (d : Draft)
      (front : List Slot) (specifier : String) (back : List Slot), S q →
      t.read? q = some content → Draft.ofFile mode q content = .ok d →
      d.slots = front ++ .everything specifier :: back →
      fileMeant t project q specifier = some p → ∀ before before' : List Operation,
      ∃ table fs₁ fs₂, ((run project (before.map (t, ·))).tableAt t q mode).1 = some table ∧
        table.exports = distinctExports (filled d front fs₁ ++
          (((run project (before'.map (t, ·))).tableAt t p .exportsOnly).1.map
            (·.exports)).getD [] ++ filled d back fs₂)) ∧
    ∀ atlas : Atlas, (∀ mode, atlas.tables.find? p mode = none) → passedOn t p = [] →
      (atlas.tableAt t p .exportsOnly).1.map (·.exports) =
        (atlas.tableAt t p .full).1.map (·.exports) := by
  refine ⟨?_, ?_, ?_⟩
  · intro S straight inside before before'
    obtain ⟨m', brief, table'⟩ := exists_plain_run slashless straight inside before .exportsOnly
    obtain ⟨m, full, table⟩ := exists_plain_run slashless straight inside before' .full
    rw [table, table', Option.map_map, Option.map_map]
    exact full.filter_exports brief
  · intro S straight inside q content mode d front specifier back qInside read ok slots meant
    exact exports_star slashless straight inside qInside read ok slots meant
  · intro atlas absent owns
    exact exports_loadTable absent owns

/-- A module whose default export is a binding that it imports under another name. -/
def importedTree : Tree :=
  (({} : Tree).write ⟨"/p/lib.ts"⟩ (.text
    "import \x7b helper as h \x7d from '/p/util'; export default h; export const own = 1;")).write
    ⟨"/p/util.ts"⟩ (.text "export const helper = 1;")

theorem straight_importedTree : Straight importedTree sample fun _ => True := by
  have orderly : Orderly importedTree sample :=
    orderly_of_texts ⟨"/p/util.ts"⟩ "export const helper = 1;" (by decide +kernel)
      (by decide +kernel)
  exact orderly.straight

theorem straight_chainTree : Straight (chainTree "export const a = 1;") sample fun _ => True := by
  have orderly : Orderly (chainTree "export const a = 1;") sample :=
    orderly_of_texts ⟨"/p/lib.ts"⟩ "export const a = 1;" (by decide +kernel) (by decide +kernel)
  exact orderly.straight

theorem exports_agree_across_modes_sample :
    Slashless sample.extensions ∧
    (((run sample []).tableAt importedTree ⟨"/p/lib.ts"⟩ .exportsOnly).1.map
        (·.exports.filter (isOwn importedTree ⟨"/p/lib.ts"⟩)) =
      ((run sample []).tableAt importedTree ⟨"/p/lib.ts"⟩ .full).1.map
        (·.exports.filter (isOwn importedTree ⟨"/p/lib.ts"⟩))) ∧
    (∃ table fs₁ fs₂, ((run sample []).tableAt (chainTree "export const a = 1;")
        ⟨"/p/main.ts"⟩ .full).1 = some table ∧
      table.exports = distinctExports (filled ⟨[.everything "/p/lib"], [], []⟩ [] fs₁ ++
        (((run sample []).tableAt (chainTree "export const a = 1;") ⟨"/p/lib.ts"⟩
          .exportsOnly).1.map (·.exports)).getD [] ++
        filled ⟨[.everything "/p/lib"], [], []⟩ [] fs₂)) ∧
    passedOn ringTree ⟨"/p/a.ts"⟩ = [] ∧
      ((run sample []).tableAt ringTree ⟨"/p/a.ts"⟩ .exportsOnly).1.map (·.exports) =
        ((run sample []).tableAt ringTree ⟨"/p/a.ts"⟩ .full).1.map (·.exports) := by
  have slashless : Slashless sample.extensions := by decide
  have owns : passedOn ringTree ⟨"/p/a.ts"⟩ = [] := by decide +kernel
  refine ⟨slashless, ?_, ?_, owns, ?_⟩
  · exact (exports_agree_across_modes slashless importedTree ⟨"/p/lib.ts"⟩).1 _
      straight_importedTree trivial [] []
  · have isDraft : Draft.ofFile? .full ⟨"/p/main.ts"⟩ "export * from '/p/lib';" =
        some ⟨[.everything "/p/lib"], [], []⟩ := by decide +kernel
    have spliced := (exports_agree_across_modes slashless (chainTree "export const a = 1;")
      ⟨"/p/lib.ts"⟩).2.1
    exact spliced _ straight_chainTree trivial ⟨"/p/main.ts"⟩ _ .full _ [] "/p/lib" [] trivial
      (by decide +kernel) (Draft.ofFile?_eq_some.mp isDraft) rfl (by decide +kernel) [] []
  · exact (exports_agree_across_modes slashless ringTree ⟨"/p/a.ts"⟩).2.2 _ (fun _ => rfl) owns

/-- The default export has the name of the imported binding in one mode and its local name in the
other. -/
theorem exports_differ_imported :
    Straight importedTree sample (fun _ => True) ∧
    ((run sample []).tableAt importedTree ⟨"/p/lib.ts"⟩ .exportsOnly).1.map (·.exports) ≠
      ((run sample []).tableAt importedTree ⟨"/p/lib.ts"⟩ .full).1.map (·.exports) := by
  have brief : ((run sample []).tableAt importedTree ⟨"/p/lib.ts"⟩ .exportsOnly).1.map
      (·.outerNames) = some ["h", "own"] := by decide +kernel
  have full : ((run sample []).tableAt importedTree ⟨"/p/lib.ts"⟩ .full).1.map
      (·.outerNames) = some ["helper", "own"] := by decide +kernel
  refine ⟨straight_importedTree, fun same => ?_⟩
  have names := congrArg (Option.map (List.map Export.outerName)) same
  rw [Option.map_map, Option.map_map] at names
  exact absurd (brief.symm.trans (names.trans full)) (by decide)

end ModuleAtlas.Atlas
