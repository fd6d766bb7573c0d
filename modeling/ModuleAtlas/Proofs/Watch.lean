import ModuleAtlas.Proofs.Kept

/-!
# Loading under watch

What happens in the middle of a load is not in its result: which modules were being linked at each
moment, and which files were loaded while a table was linked. `watch` loads as `load` does and notes
both beside the session; forgetting the notes gives `load` back (`session_watch`).

Whatever holds of a load because it holds of the loads it makes is proved by `watch_induction`, or
by `load_induction` where the notes do not matter: a load ends at a file that cannot be read, a
table kept, a module that is being linked already, or a module built from answers that are loads
again.
-/

namespace ModuleAtlas.Atlas

open Draft (Mode Slot)
open Resolution (Location)

/-! ## Building -/

/-- Reads the content of a module and links it, in any kind of state. -/
def buildWith {σ : Type} (fetch : Fetch σ) (count : σ → σ) (mode : Mode) (p : Path)
    (content : String) (s : σ) : Option (Option Linked × σ) :=
  match Draft.ofFile mode p content with
  | .error _ => some (none, s)
  | .ok d =>
    if d.isPending then (link fetch p d (count s)).map fun (m, s) => (some m, s)
    else some (some { table := d.unlinked }, count s)

/-- What building a module comes to, where `R` says which answers a request can get. -/
inductive Built {σ : Type} (R : String → Mode → σ → Fetched → σ → Prop) (count : σ → σ)
    (mode : Mode) (p : Path) (content : String) : σ → Option Linked → σ → Prop
  | unsupported {s : σ} {e : Draft.UnsupportedLanguage} :
    Draft.ofFile mode p content = .error e → Built R count mode p content s none s
  | plain {s : σ} {d : Draft} :
    Draft.ofFile mode p content = .ok d → d.isPending = false →
    Built R count mode p content s (some { table := d.unlinked }) (count s)
  | linked {s s' : σ} {d : Draft} {fs : List Fetched} :
    Draft.ofFile mode p content = .ok d → d.isPending = true →
    Answered R d d.slots (count s) fs s' →
    Built R count mode p content s (some (linkedWith p d fs)) s'

theorem buildWith_iff {σ : Type} {fetch : Fetch σ} {count : σ → σ} {mode : Mode} {p : Path}
    {content : String} {s s' : σ} {m : Option Linked} :
    buildWith fetch count mode p content s = some (m, s') ↔
      Built fetch.Gives count mode p content s m s' := by
  unfold buildWith
  constructor
  · intro h
    split at h
    · next e read =>
      cases h
      exact .unsupported read
    · next d read =>
      split at h
      · next pending =>
        obtain ⟨⟨linked, s₁⟩, linking, whole⟩ := Option.map_eq_some_iff.mp h
        cases whole
        obtain ⟨fs, answered, rfl⟩ := link_iff.mp linking
        exact .linked read pending answered
      · next settled =>
        cases h
        exact .plain read (by simpa using settled)
  · intro h
    cases h with
    | unsupported read => rw [read]
    | plain read settled =>
      rw [read]
      dsimp only
      rw [settled]
      rfl
    | linked read pending answered =>
      rw [read]
      dsimp only
      rw [if_pos pending, link_iff.mpr ⟨_, answered, rfl⟩]
      rfl

section Built

variable {σ τ : Type} {R : String → Mode → σ → Fetched → σ → Prop} {count : σ → σ} {mode : Mode}
  {p : Path} {content : String} {s s' : σ} {m : Option Linked}

/-- What building comes to, seen in another kind of state. -/
theorem Built.view {R' : String → Mode → τ → Fetched → τ → Prop} {count' : τ → τ} (view : σ → τ)
    (counts : ∀ s, view (count s) = count' (view s))
    (answers : ∀ {specifier mode s f s'}, R specifier mode s f s' →
      R' specifier mode (view s) f (view s'))
    (h : Built R count mode p content s m s') :
    Built R' count' mode p content (view s) m (view s') := by
  cases h with
  | unsupported read => exact .unsupported read
  | plain read settled =>
    rw [counts]
    exact .plain read settled
  | linked read pending answered =>
    refine .linked read pending ?_
    rw [← counts]
    exact answered.view view answers

theorem Built.mono {R' : String → Mode → σ → Fetched → σ → Prop}
    (weaken : ∀ {specifier mode s f s'}, R specifier mode s f s' → R' specifier mode s f s')
    (h : Built R count mode p content s m s') : Built R' count mode p content s m s' :=
  h.view id (fun _ => rfl) weaken

/-- What every answer keeps, building keeps. -/
theorem Built.keeps {I : σ → Prop} (h : Built R count mode p content s m s')
    (counts : ∀ s, I s → I (count s))
    (step : ∀ {specifier mode s f s'}, R specifier mode s f s' → I s → I s')
    (start : I s) : I s' := by
  cases h with
  | unsupported _ => exact start
  | plain _ _ => exact counts s start
  | linked _ _ answered => exact answered.keeps step (counts s start)

/-- Building in two kinds of state that are asked alike, if the answers are such as the second can
give too. -/
theorem Built.lockstep {R' : String → Mode → τ → Fetched → τ → Prop} {count' : τ → τ}
    {rel : σ → τ → Prop} {given : Fetched → Prop} (h : Built R count mode p content s m s')
    (counts : ∀ {s u}, rel s u → rel (count s) (count' u))
    (step : ∀ {specifier mode s f s' u}, R specifier mode s f s' → given f → rel s u →
      ∃ u', R' specifier mode u f u' ∧ rel s' u')
    (all : ∀ d fs, m = some (linkedWith p d fs) → ∀ f ∈ fs, given f) {u : τ} (start : rel s u) :
    ∃ u', Built R' count' mode p content u m u' ∧ rel s' u' := by
  cases h with
  | unsupported read => exact ⟨u, .unsupported read, start⟩
  | plain read settled => exact ⟨_, .plain read settled, counts start⟩
  | linked read pending answered =>
    obtain ⟨u', answered', related⟩ := answered.lockstep step (all _ _ rfl) (counts start)
    exact ⟨u', .linked read pending answered', related⟩

theorem buildWith_mono {fetch fetch' : Fetch σ}
    (weaken : ∀ {specifier mode s f s'}, fetch.Gives specifier mode s f s' →
      fetch'.Gives specifier mode s f s')
    (h : buildWith fetch count mode p content s = some (m, s')) :
    buildWith fetch' count mode p content s = some (m, s') :=
  buildWith_iff.mpr ((buildWith_iff.mp h).mono weaken)

/-- Where every request is answered, building comes to something. -/
theorem exists_buildWith {fetch : Fetch σ} {I : σ → Prop} (count : σ → σ)
    (counts : ∀ s, I s → I (count s))
    (returns : ∀ specifier mode s, I s → ∃ f s', fetch specifier mode s = some (f, s') ∧ I s')
    (mode : Mode) (p : Path) (content : String) (start : I s) :
    ∃ m s', buildWith fetch count mode p content s = some (m, s') := by
  cases read : Draft.ofFile mode p content with
  | error e => exact ⟨_, _, buildWith_iff.mpr (.unsupported read)⟩
  | ok d =>
    by_cases pending : d.isPending = true
    · obtain ⟨fs, s', answered, -⟩ := exists_answered returns d d.slots (counts s start)
      exact ⟨_, _, buildWith_iff.mpr (.linked read pending answered)⟩
    · exact ⟨_, _, buildWith_iff.mpr (.plain read (by simpa using pending))⟩

end Built

/-- Building in two kinds of state that ask alike comes to the same. -/
theorem buildWith_map {σ τ : Type} {fetch : Fetch σ} {fetch' : Fetch τ} {count : σ → σ}
    {count' : τ → τ} (view : σ → τ) (counts : ∀ s, view (count s) = count' (view s))
    (asks : ∀ specifier mode s, (fetch specifier mode s).map (fun r => (r.1, view r.2)) =
      fetch' specifier mode (view s))
    (mode : Mode) (p : Path) (content : String) (s : σ) :
    (buildWith fetch count mode p content s).map (fun r => (r.1, view r.2)) =
      buildWith fetch' count' mode p content (view s) := by
  unfold buildWith
  split
  · rfl
  · split
    · rw [← counts, ← link_map asks, Option.map_map, Option.map_map]
      rfl
    · rw [Option.map_some, counts]

/-! ## Sessions -/

/-- A session with other tables. -/
def Session.withTables (s : Session) (tables : TableCache) : Session :=
  { s with atlas := { s.atlas with tables } }

/-- A session that has read one more file. -/
def Session.counted (s : Session) : Session := s.withTables s.atlas.tables.countRead

/-- Ends a module: it is kept, if it is complete. -/
def Session.finish (s : Session) (l : Location) (mode : Mode) (content : String) (level : Level)
    (m : Option Linked) : Session :=
  keep l mode content (s.nesting.isComplete level) m { s with nesting := (s.nesting.pop level).2 }

theorem nesting_finish (s : Session) (l : Location) (mode : Mode) (content : String)
    (level : Level) (m : Option Linked) :
    (s.finish l mode content level m).nesting = (s.nesting.pop level).2 :=
  nesting_keep

/-- A module is cut where a module of the same path is being linked. -/
theorem Nesting.push_none {n n' : Nesting} {p : Path} (h : n.push p = (none, n')) :
    ∃ i q, n.stack[i]? = some q ∧ q.same p = true ∧
      n' = { n with outermostCut := lowerCut n.outermostCut (some i) } := by
  unfold push at h
  split at h
  · next i found =>
    cases h
    obtain ⟨inside, same, -⟩ := List.findIdx?_eq_some_iff_getElem.mp found
    exact ⟨i, n.stack[i], List.getElem?_eq_getElem inside, same, rfl⟩
  · cases h

/-- A module begins where no module of the same path is being linked. -/
theorem Nesting.push_some {n n' : Nesting} {p : Path} {level : Level}
    (h : n.push p = (some level, n')) :
    (∀ q ∈ n.stack, q.same p = false) ∧ level = ⟨n.stack.length, n.outermostCut⟩ ∧
      n' = { stack := n.stack ++ [p] } := by
  unfold push at h
  split at h
  · cases h
  · next absent =>
    cases h
    exact ⟨List.findIdx?_eq_none_iff.mp absent, rfl, rfl⟩

theorem build_eq (t : Tree) (load : Load) (l : Location) (mode : Mode) (content : String)
    (s : Session) :
    build t load l mode content s =
      buildWith (fetch t load l) Session.counted mode l.path content s :=
  rfl

/-! ## One step of a load -/

/-- How a load can end, where `load` is the way to load other modules. -/
inductive LoadStep (t : Tree) (load : Load) (l : Location) (mode : Mode) (s : Session) :
    Option Linked → Session → Prop
  | unreadable : t.read? l.path = none → LoadStep t load l mode s none s
  | hit {content : String} {m : Linked} {tables : TableCache} : t.read? l.path = some content →
    s.atlas.tables.get l.path mode content = (some m, tables) →
    LoadStep t load l mode s (some m) (s.withTables tables)
  | cut {content : String} {tables : TableCache} {nesting : Nesting} :
    t.read? l.path = some content → s.atlas.tables.get l.path mode content = (none, tables) →
    s.nesting.push l.path = (none, nesting) →
    LoadStep t load l mode s none { s.withTables tables with nesting }
  | built {content : String} {tables : TableCache} {level : Level} {nesting : Nesting}
    {m : Option Linked} {s' : Session} :
    t.read? l.path = some content → s.atlas.tables.get l.path mode content = (none, tables) →
    s.nesting.push l.path = (some level, nesting) →
    Built (fetch t load l).Gives Session.counted mode l.path content
      { s.withTables tables with nesting } m s' →
    LoadStep t load l mode s m (s'.finish l mode content level m)

theorem load_succ_iff {t : Tree} {fuel : Nat} {l : Location} {mode : Mode} {s s' : Session}
    {m : Option Linked} :
    load t (fuel + 1) l mode s = some (m, s') ↔ LoadStep t (load t fuel) l mode s m s' := by
  rw [load]
  constructor
  · intro h
    split at h
    · next unread =>
      cases h
      exact .unreadable unread
    · next content read =>
      split at h
      · next kept =>
        cases h
        exact .hit read kept
      · next tables missed =>
        dsimp only at h
        split at h
        · next pushed =>
          cases h
          exact .cut read missed pushed
        · next level nesting pushed =>
          obtain ⟨⟨m, s₁⟩, building, whole⟩ := Option.map_eq_some_iff.mp h
          cases whole
          rw [build_eq] at building
          exact .built read missed pushed (buildWith_iff.mp building)
  · intro h
    cases h with
    | unreadable unread => rw [unread]
    | hit read kept =>
      rw [read]
      dsimp only
      rw [kept]
      rfl
    | cut read missed pushed =>
      rw [read]
      dsimp only
      rw [missed]
      dsimp only
      rw [pushed]
      rfl
    | built read missed pushed building =>
      rw [read]
      dsimp only
      rw [missed]
      dsimp only
      rw [pushed]
      dsimp only
      exact Option.map_eq_some_iff.mpr
        ⟨_, (build_eq ..).trans (buildWith_iff.mpr building), rfl⟩

/-! ## Notes -/

/-- For each table kept, by path and mode, the paths that were loaded while it was linked; the
latest first. -/
abbrev Ledger := List ((Path × Mode) × List Path)

/-- What was loaded while the table of a path was linked. -/
def Ledger.find? (ledger : Ledger) (p : Path) (mode : Mode) : Option (List Path) :=
  (List.find? (fun r => r.1.1.same p && r.1.2 == mode) ledger).map (·.2)

/-- A session and what was noted: the stack each time a module began, what was loaded since the
innermost module being linked began, and the ledger. -/
structure Watched where
  session : Session
  stackLog : List (List Path) := []
  loaded : List Path := []
  ledger : Ledger := []
deriving DecidableEq, Repr

namespace Watched

/-- Notes that one more file was read. -/
def counted (w : Watched) : Watched := { w with session := w.session.counted }

/-- Asks for a module at a place, in an atlas that has just been asked where it is. -/
def asking (w : Watched) (target : Location) (atlas : Atlas) : Watched :=
  { w with session := { w.session with atlas }, loaded := w.loaded ++ [target.path] }

/-- Takes a kept table: what it was linked from counts as loaded. -/
def taking (w : Watched) (p : Path) (mode : Mode) (tables : TableCache) : Watched :=
  { w with
    session := w.session.withTables tables
    loaded := w.loaded ++ (w.ledger.find? p mode).getD [] }

/-- Begins a module. -/
def beginning (w : Watched) (tables : TableCache) (nesting : Nesting) : Watched :=
  { w with
    session := { w.session.withTables tables with nesting }
    stackLog := w.stackLog ++ [nesting.stack]
    loaded := [] }

/-- Ends a module that was begun in the state `outer`: what was loaded for it goes into the ledger,
if it is kept, and was loaded for the module around it too. -/
def finish (w outer : Watched) (l : Location) (mode : Mode) (content : String) (level : Level)
    (m : Option Linked) : Watched :=
  { w with
    session := w.session.finish l mode content level m
    loaded := outer.loaded ++ w.loaded
    ledger :=
      if w.session.nesting.isComplete level && m.isSome then ((l.path, mode), w.loaded) :: w.ledger
      else w.ledger }

end Watched

/-- Asks for the module a specifier means, under watch. -/
def watchFetch (t : Tree) (watch : Location → Mode → Watched → Option (Option Linked × Watched))
    (l : Location) : Fetch Watched := fun specifier mode w =>
  match w.session.atlas.resolve t specifier l.path l.context with
  | (none, atlas) => some ({}, { w with session := { w.session with atlas } })
  | (some target, atlas) =>
    (watch target mode (w.asking target atlas)).map fun (m, w) => (fetched target m, w)

/-- Loads the module at a location, under watch. -/
def watch (t : Tree) : (fuel : Nat) → Location → Mode → Watched → Option (Option Linked × Watched)
  | 0, _, _, _ => none
  | fuel + 1, l, mode, w =>
    match t.read? l.path with
    | none => some (none, w)
    | some content =>
      match w.session.atlas.tables.get l.path mode content with
      | (some m, tables) => some (some m, w.taking l.path mode tables)
      | (none, tables) =>
        match w.session.nesting.push l.path with
        | (none, nesting) =>
          some (none, { w with session := { w.session.withTables tables with nesting } })
        | (some level, nesting) =>
          (buildWith (watchFetch t (watch t fuel) l) Watched.counted mode l.path content
            (w.beginning tables nesting)).map fun (m, w') =>
              (m, w'.finish w l mode content level m)

theorem session_watchFetch {t : Tree}
    {watch : Location → Mode → Watched → Option (Option Linked × Watched)} {load : Load}
    (loads : ∀ l mode w, (watch l mode w).map (fun r => (r.1, r.2.session)) = load l mode w.session)
    (l : Location) (specifier : String) (mode : Mode) (w : Watched) :
    (watchFetch t watch l specifier mode w).map (fun r => (r.1, r.2.session)) =
      fetch t load l specifier mode w.session := by
  unfold watchFetch fetch
  cases w.session.atlas.resolve t specifier l.path l.context with
  | mk target atlas =>
    cases target with
    | none => rfl
    | some target =>
      have load_eq := loads target mode (w.asking target atlas)
      dsimp only [Watched.asking] at load_eq ⊢
      rw [← load_eq, Option.map_map, Option.map_map]
      rfl

/-- Watching changes nothing. -/
theorem session_watch (t : Tree) (fuel : Nat) (l : Location) (mode : Mode) (w : Watched) :
    (watch t fuel l mode w).map (fun r => (r.1, r.2.session)) = load t fuel l mode w.session := by
  induction fuel generalizing l mode w with
  | zero => rfl
  | succ fuel ih =>
    rw [watch, load]
    cases t.read? l.path with
    | none => rfl
    | some content =>
      dsimp only
      cases w.session.atlas.tables.get l.path mode content with
      | mk kept tables =>
        cases kept with
        | some m => rfl
        | none =>
          dsimp only
          cases w.session.nesting.push l.path with
          | mk level nesting =>
            cases level with
            | none => rfl
            | some level =>
              dsimp only
              have built : (buildWith (watchFetch t (watch t fuel) l) Watched.counted mode l.path
                  content (w.beginning tables nesting)).map (fun r => (r.1, r.2.session)) =
                  buildWith (fetch t (load t fuel) l) Session.counted mode l.path content
                    (w.beginning tables nesting).session :=
                buildWith_map Watched.session (fun _ => rfl) (session_watchFetch ih l) mode l.path
                  content _
              rw [build_eq]
              dsimp only [Watched.beginning, Session.withTables] at built
              rw [← built, Option.map_map, Option.map_map]
              rfl

/-! ## Induction -/

/-- Loading a module under watch, with enough fuel, gives `m` and leaves `w'`. -/
def Watches (t : Tree) (l : Location) (mode : Mode) (w : Watched) (m : Option Linked)
    (w' : Watched) : Prop :=
  ∃ fuel, watch t fuel l mode w = some (m, w')

/-- Loading a module, with enough fuel, gives `m` and leaves `s'`. -/
def Loads (t : Tree) (l : Location) (mode : Mode) (s : Session) (m : Option Linked)
    (s' : Session) : Prop :=
  ∃ fuel, load t fuel l mode s = some (m, s')

theorem load_of_watch {t : Tree} {fuel : Nat} {l : Location} {mode : Mode} {w w' : Watched}
    {m : Option Linked} (h : watch t fuel l mode w = some (m, w')) :
    load t fuel l mode w.session = some (m, w'.session) := by
  rw [← session_watch, h, Option.map_some]

theorem Watches.loads {t : Tree} {l : Location} {mode : Mode} {w w' : Watched} {m : Option Linked}
    (h : Watches t l mode w m w') : Loads t l mode w.session m w'.session := by
  obtain ⟨fuel, watched⟩ := h
  exact ⟨fuel, load_of_watch watched⟩

theorem Loads.exists_watches {t : Tree} {l : Location} {mode : Mode} {s s' : Session}
    {m : Option Linked} (h : Loads t l mode s m s') :
    ∃ w', Watches t l mode { session := s } m w' ∧ w'.session = s' := by
  obtain ⟨fuel, loaded⟩ := h
  have erased := session_watch t fuel l mode { session := s }
  rw [loaded, Option.map_eq_some_iff] at erased
  obtain ⟨⟨m, w'⟩, watched, whole⟩ := erased
  cases whole
  exact ⟨w', ⟨fuel, watched⟩, rfl⟩

/-- The answer to a request of the module at `l`, under watch: nothing, if the specifier means no
file, or what the load of the file gives, where `P` says what loads can do. -/
def WatchedAnswer (t : Tree) (P : Location → Mode → Watched → Option Linked → Watched → Prop)
    (l : Location) (specifier : String) (mode : Mode) (w : Watched) (f : Fetched) (w' : Watched) :
    Prop :=
  (∃ atlas, w.session.atlas.resolve t specifier l.path l.context = (none, atlas) ∧ f = {} ∧
    w' = { w with session := { w.session with atlas } }) ∨
  ∃ target atlas m, w.session.atlas.resolve t specifier l.path l.context = (some target, atlas) ∧
    P target mode (w.asking target atlas) m w' ∧ f = fetched target m

/-- The answer to a request of the module at `l`. -/
def LoadAnswer (t : Tree) (P : Location → Mode → Session → Option Linked → Session → Prop)
    (l : Location) (specifier : String) (mode : Mode) (s : Session) (f : Fetched) (s' : Session) :
    Prop :=
  (∃ atlas, s.atlas.resolve t specifier l.path l.context = (none, atlas) ∧ f = {} ∧
    s' = { s with atlas }) ∨
  ∃ target atlas m, s.atlas.resolve t specifier l.path l.context = (some target, atlas) ∧
    P target mode { s with atlas } m s' ∧ f = fetched target m

theorem watchedAnswer_of_watchFetch {t : Tree}
    {watch : Location → Mode → Watched → Option (Option Linked × Watched)}
    {P : Location → Mode → Watched → Option Linked → Watched → Prop}
    (loads : ∀ {l mode w m w'}, watch l mode w = some (m, w') → P l mode w m w') {l : Location}
    {specifier : String} {mode : Mode} {w : Watched} {f : Fetched} {w' : Watched}
    (h : (watchFetch t watch l).Gives specifier mode w f w') :
    WatchedAnswer t P l specifier mode w f w' := by
  unfold Fetch.Gives watchFetch at h
  split at h
  · next atlas found =>
    cases h
    exact .inl ⟨atlas, found, rfl, rfl⟩
  · next target atlas found =>
    obtain ⟨⟨m, w₁⟩, load, whole⟩ := Option.map_eq_some_iff.mp h
    cases whole
    exact .inr ⟨target, atlas, m, found, loads load, rfl⟩

/-- What holds at each way a load can end, for modules built from answers of which it holds, holds
of every load. -/
theorem watch_induction {t : Tree}
    {P : Location → Mode → Watched → Option Linked → Watched → Prop}
    (unreadable : ∀ {l mode w}, t.read? l.path = none → P l mode w none w)
    (hit : ∀ {l mode w content m tables}, t.read? l.path = some content →
      w.session.atlas.tables.get l.path mode content = (some m, tables) →
      P l mode w (some m) (w.taking l.path mode tables))
    (cut : ∀ {l mode w content tables nesting}, t.read? l.path = some content →
      w.session.atlas.tables.get l.path mode content = (none, tables) →
      w.session.nesting.push l.path = (none, nesting) →
      P l mode w none { w with session := { w.session.withTables tables with nesting } })
    (built : ∀ {l mode w content tables level nesting m w'}, t.read? l.path = some content →
      w.session.atlas.tables.get l.path mode content = (none, tables) →
      w.session.nesting.push l.path = (some level, nesting) →
      Built (WatchedAnswer t (fun l mode w m w' => Watches t l mode w m w' ∧ P l mode w m w') l)
        Watched.counted mode l.path content (w.beginning tables nesting) m w' →
      P l mode w m (w'.finish w l mode content level m))
    {l : Location} {mode : Mode} {w w' : Watched} {m : Option Linked}
    (h : Watches t l mode w m w') : P l mode w m w' := by
  obtain ⟨fuel, h⟩ := h
  induction fuel generalizing l mode w w' m with
  | zero => cases h
  | succ fuel ih =>
    rw [watch] at h
    split at h
    · next unread =>
      cases h
      exact unreadable unread
    · next content read =>
      split at h
      · next kept =>
        cases h
        exact hit read kept
      · next tables missed =>
        split at h
        · next pushed =>
          cases h
          exact cut read missed pushed
        · next level nesting pushed =>
          obtain ⟨⟨m, w₁⟩, building, whole⟩ := Option.map_eq_some_iff.mp h
          cases whole
          exact built read missed pushed
            ((buildWith_iff.mp building).mono
              (watchedAnswer_of_watchFetch fun loading => ⟨⟨fuel, loading⟩, ih loading⟩))

/-- `watch_induction` without the notes. -/
theorem load_induction {t : Tree}
    {P : Location → Mode → Session → Option Linked → Session → Prop}
    (unreadable : ∀ {l mode s}, t.read? l.path = none → P l mode s none s)
    (hit : ∀ {l mode s content m tables}, t.read? l.path = some content →
      s.atlas.tables.get l.path mode content = (some m, tables) →
      P l mode s (some m) (s.withTables tables))
    (cut : ∀ {l mode s content tables nesting}, t.read? l.path = some content →
      s.atlas.tables.get l.path mode content = (none, tables) →
      s.nesting.push l.path = (none, nesting) →
      P l mode s none { s.withTables tables with nesting })
    (built : ∀ {l mode s content tables level nesting m s'}, t.read? l.path = some content →
      s.atlas.tables.get l.path mode content = (none, tables) →
      s.nesting.push l.path = (some level, nesting) →
      Built (LoadAnswer t (fun l mode s m s' => Loads t l mode s m s' ∧ P l mode s m s') l)
        Session.counted mode l.path content { s.withTables tables with nesting } m s' →
      P l mode s m (s'.finish l mode content level m))
    {l : Location} {mode : Mode} {s s' : Session} {m : Option Linked}
    (h : Loads t l mode s m s') : P l mode s m s' := by
  obtain ⟨w', watched, rfl⟩ := h.exists_watches
  let Q : Location → Mode → Watched → Option Linked → Watched → Prop :=
    fun l mode w m w' => P l mode w.session m w'.session
  have answers : ∀ {l specifier mode w f w'},
      WatchedAnswer t (fun l mode w m w' => Watches t l mode w m w' ∧ Q l mode w m w') l specifier
        mode w f w' →
      LoadAnswer t (fun l mode s m s' => Loads t l mode s m s' ∧ P l mode s m s') l specifier mode
        w.session f w'.session := by
    rintro l specifier mode w f w' (⟨atlas, found, rfl, rfl⟩ | ⟨target, atlas, m, found, load, rfl⟩)
    · exact .inl ⟨atlas, found, rfl, rfl⟩
    · exact .inr ⟨target, atlas, m, found, ⟨load.1.loads, load.2⟩, rfl⟩
  have whole : Q l mode { session := s } m w' := by
    refine watch_induction ?_ ?_ ?_ ?_ watched
    · exact fun unread => unreadable unread
    · exact fun read kept => hit read kept
    · exact fun read missed pushed => cut read missed pushed
    · intro l mode w content tables level nesting m w' read missed pushed building
      refine built read missed pushed ?_
      refine building.view Watched.session (fun _ => rfl) ?_
      exact fun answer => answers answer
  exact whole

/-! ## The stack -/

/-- A load leaves the stack as it found it. -/
theorem Watches.stack {t : Tree} {l : Location} {mode : Mode} {w w' : Watched}
    {m : Option Linked} (h : Watches t l mode w m w') :
    w'.session.nesting.stack = w.session.nesting.stack := by
  refine watch_induction (P := fun _ _ w _ w' =>
    w'.session.nesting.stack = w.session.nesting.stack) ?_ ?_ ?_ ?_ h
  · exact fun _ => rfl
  · exact fun _ _ => rfl
  · intro l mode w content tables nesting _ _ pushed
    obtain ⟨i, q, -, -, rfl⟩ := Nesting.push_none pushed
    rfl
  · intro l mode w content tables level nesting m w' _ _ pushed building
    obtain ⟨-, rfl, rfl⟩ := Nesting.push_some pushed
    have inside : w'.session.nesting.stack = w.session.nesting.stack ++ [l.path] := by
      refine building.keeps (I := fun w' : Watched =>
        w'.session.nesting.stack = w.session.nesting.stack ++ [l.path]) (fun _ h => h) ?_ rfl
      rintro specifier mode v f v' (⟨atlas, found, rfl, rfl⟩ | ⟨target, atlas, m, found, load, rfl⟩)
        unchanged
      · exact unchanged
      · exact load.2.trans unchanged
    rw [Watched.finish, nesting_finish]
    dsimp only [Nesting.pop]
    rw [inside, List.take_left]

theorem Loads.stack {t : Tree} {l : Location} {mode : Mode} {s s' : Session} {m : Option Linked}
    (h : Loads t l mode s m s') : s'.nesting.stack = s.nesting.stack := by
  obtain ⟨w', watches, rfl⟩ := h.exists_watches
  exact watches.stack

end ModuleAtlas.Atlas
