import EventStore.Aggregate.Rebuild
import EventStore.Occ.Basic

/-!
# Clients of one store

The system the code runs in: any number of `Handle` calls, direct calls of `Append`, and one run of
`RebuildStateCache`, on one store.  Each call of the store is one step, and the steps of different
calls interleave in any order.

A `Handle` call goes through the states of `Proc`: it reads the cache (`getState`), reads the
events after it and replays them (`readStream`), decides and encodes (`decide`), and appends
(`append`).  A rebuild wipes, reads page after page, and writes one stream after the other.  A
label carries what the call does not determine: injected failures of the engine, the ids
generated, the clock, which stream a rebuild writes next.  `keys` stands for whatever else happens
to the keys of a shredder.

`Sys.commits` records the batches `Handle` calls have committed, in order.
-/

namespace EventStore

variable {ι K S C E : Type} {κ : Columns}

/-- A call of `Handle`: the runtime and its arguments. -/
structure Call (K S C E : Type) where
  runtime : Runtime K S C E
  sid : StreamID
  cmd : C
  cfg : HandleConfig

/-- Where a `Handle` call is. -/
inductive Proc (K S C E : Type) where
  /-- Not started. -/
  | idle
  /-- Before its first read. -/
  | begun (c : Call K S C E)
  /-- After the read of the cache: the state and version it starts from. -/
  | seeded (c : Call K S C E) (start : S × ℕ)
  /-- `Load` has returned. -/
  | loaded (c : Call K S C E) (st : S × ℕ)
  /-- Before its append. -/
  | decided (c : Call K S C E) (events : List E) (p : AppendParams)
  /-- It has returned. -/
  | returned (res : Except Err AppendResult)

/-- Where a rebuild is. -/
inductive Rebuild (K S C E : Type) where
  /-- Not started. -/
  | idle
  /-- Reading pages. -/
  | scanning (rt : Runtime K S C E) (tenant : String) (sc : Scan S)
  /-- Writing the streams that are left. -/
  | writing (rt : Runtime K S C E) (tenant : String) (left : List (String × StreamState S))
      (written : ℕ)
  /-- It has returned. -/
  | returned (res : Except Err ℕ)

/-- The rebuild has returned without an error. -/
def Rebuild.succeeded {K S C E : Type} : Rebuild K S C E → Bool
  | .returned (.ok _) => true
  | _ => false

theorem Rebuild.succeeded_iff {K S C E : Type} {rb : Rebuild K S C E} :
    rb.succeeded = true ↔ ∃ n, rb = .returned (.ok n) := by
  constructor
  · intro h
    cases rb with
    | returned res =>
      cases res with
      | ok n => exact ⟨n, rfl⟩
      | error e => cases h
    | _ => cases h
  · rintro ⟨n, rfl⟩
    rfl

/-- The state of the system. -/
structure Sys (ι : Type) (κ : Columns) (K S C E : Type) where
  db : Db κ
  /-- The keys of the shredders. -/
  keys : K
  procs : ι → Proc K S C E
  rebuild : Rebuild K S C E
  /-- The batches committed by `Handle`, in order. -/
  commits : List (Occ.Batch ι StreamID C E)

/-- The steps. -/
inductive Label (ι K S C E : Type) where
  | begin (i : ι) (c : Call K S C E)
  | getState (i : ι) (fault : Option Err)
  | readStream (i : ι) (fault : Option Err)
  | decide (i : ι) (ids : ℕ → UUID)
  | append (i : ι) (en : Engine)
  /-- A direct call of `Append`. -/
  | direct (en : Engine) (p : AppendParams)
  /-- The keys change. -/
  | keys (k : K)
  /-- A rebuild starts: its wipe. -/
  | wipe (rt : Runtime K S C E) (tenant : String) (fault : Option Err)
  | page (fault : Option Err)
  /-- A rebuild writes the stream with the given key of its map. -/
  | upsert (key : String) (en : Engine)
  | finish

/-- What a call of the store returns when the engine may fail it. -/
def orFault {α : Type} (fault : Option Err) (x : Except Err α) : Except Err α :=
  match fault with
  | some e => .error e
  | none => x

namespace Sys

variable [DecidableEq ι]

/-- The state with one call moved on. -/
def setProc (s : Sys ι κ K S C E) (i : ι) (pr : Proc K S C E) : Sys ι κ K S C E :=
  { s with procs := fun j => if j = i then pr else s.procs j }

section Step

variable (D : Dialect κ) (H : Hasher)

/-- `Handle` reads the cache. -/
def getState (s : Sys ι κ K S C E) (i : ι) (fault : Option Err) : Option (Sys ι κ K S C E) :=
  match s.procs i with
  | .begun c =>
    let got := orFault fault (EventStore.getState D s.db c.sid)
    some (s.setProc i (.seeded c (c.runtime.seed got)))
  | _ => none

/-- `Handle` reads the events after the version it starts from, and replays them. -/
def readStream (s : Sys ι κ K S C E) (i : ι) (fault : Option Err) : Option (Sys ι κ K S C E) :=
  match s.procs i with
  | .seeded c start =>
    match c.runtime.loadTail c.sid start
        (orFault fault (EventStore.readStream D s.db c.sid start.2)) s.keys with
    | .ok st k => some { s.setProc i (.loaded c st) with keys := k }
    | .error e k => some { s.setProc i (.returned (.error e)) with keys := k }
  | _ => none

/-- `Handle` decides and encodes. -/
def decide (s : Sys ι κ K S C E) (i : ι) (ids : ℕ → UUID) : Option (Sys ι κ K S C E) :=
  match s.procs i with
  | .loaded c st =>
    match c.runtime.decideAppend c.sid c.cmd c.cfg ids st s.keys with
    | .ok (some (events, p)) k => some { s.setProc i (.decided c events p) with keys := k }
    | .ok none k => some { s.setProc i (.returned (.ok .zero)) with keys := k }
    | .error e k => some { s.setProc i (.returned (.error e)) with keys := k }
  | _ => none

/-- `Handle` appends. -/
def append (s : Sys ι κ K S C E) (i : ι) (en : Engine) : Option (Sys ι κ K S C E) :=
  match s.procs i with
  | .decided c events p =>
    let res := EventStore.append D H en p s.db
    -- a failed append may still have advanced the sequence
    some { s.setProc i (.returned res.1) with
      db := res.2
      commits := match res.1 with
        | .ok _ => s.commits ++ [⟨i, c.sid, c.cmd, events⟩]
        | .error _ => s.commits }
  | _ => none

/-- A rebuild starts. -/
def wipe (s : Sys ι κ K S C E) (rt : Runtime K S C E) (tenant : String) (fault : Option Err) :
    Option (Sys ι κ K S C E) :=
  match s.rebuild with
  | .idle =>
    match probeTypeURL rt with
    | .error e => some { s with rebuild := .returned (.error e) }
    | .ok typeURL =>
      match fault with
      | some e =>
        some { s with rebuild := .returned (.error (.wrap "aggregate: wipe state_cache" e)) }
      | none => some { s with
          db := wipeStateCacheForType s.db tenant typeURL
          rebuild := .scanning rt tenant ⟨0, []⟩ }
  | _ => none

/-- A rebuild reads a page; an empty one ends the loop. -/
def page (s : Sys ι κ K S C E) (fault : Option Err) : Option (Sys ι κ K S C E) :=
  match s.rebuild with
  | .scanning rt tenant sc =>
    match orFault fault (readPage D s.db tenant sc.cursor) with
    | .error e => some { s with rebuild := .returned (.error (.wrap "aggregate: read events" e)) }
    | .ok [] => some { s with rebuild := .writing rt tenant sc.streams 0 }
    | .ok (env :: envs) =>
      some { s with rebuild := .scanning rt tenant ((env :: envs).foldl rt.scanEvent sc) }
  | _ => none

/-- A rebuild writes a stream. -/
def upsert (s : Sys ι κ K S C E) (key : String) (en : Engine) : Option (Sys ι κ K S C E) :=
  match s.rebuild with
  | .writing rt tenant left written =>
    -- Go ranges over a map in any order, so the step names the stream
    match left.lookup key with
    | none => none
    | some st =>
      let res := rebuildStream D en rt st s.db
      match res.1 with
      | .ok () => some { s with
          db := res.2
          rebuild := .writing rt tenant (left.filter fun x => x.1 != key) (written + 1) }
      | .error e => some { s with db := res.2, rebuild := .returned (.error e) }
  | _ => none

/-- A rebuild has written all streams. -/
def finish (s : Sys ι κ K S C E) : Option (Sys ι κ K S C E) :=
  match s.rebuild with
  | .writing _ _ [] written => some { s with rebuild := .returned (.ok written) }
  | _ => none

/-- One step of the system. -/
def step (s : Sys ι κ K S C E) : Label ι K S C E → Option (Sys ι κ K S C E)
  | .begin i c =>
    match s.procs i with
    | .idle => some (s.setProc i (.begun c))
    | _ => none
  | .getState i fault => s.getState D i fault
  | .readStream i fault => s.readStream D i fault
  | .decide i ids => s.decide i ids
  | .append i en => s.append D H i en
  | .direct en p => some { s with db := (EventStore.append D H en p s.db).2 }
  | .keys k => some { s with keys := k }
  | .wipe rt tenant fault => s.wipe rt tenant fault
  | .page fault => s.page D fault
  | .upsert key en => s.upsert D key en
  | .finish => s.finish

end Step

/-- An empty store, no call started, and the given keys. -/
def start (k : K) : Sys ι κ K S C E := ⟨Db.empty, k, fun _ => .idle, .idle, []⟩

end Sys

/-! ### What a step can do -/

/-- The steps of the system, one constructor for each outcome. -/
inductive Moves [DecidableEq ι] (D : Dialect κ) (H : Hasher) (s : Sys ι κ K S C E) :
    Label ι K S C E → Sys ι κ K S C E → Prop
  | begin {i : ι} {c : Call K S C E} : s.procs i = .idle →
      Moves D H s (.begin i c) (s.setProc i (.begun c))
  | getState {i : ι} {c : Call K S C E} {fault : Option Err} : s.procs i = .begun c →
      Moves D H s (.getState i fault)
        (s.setProc i (.seeded c (c.runtime.seed (orFault fault (getState D s.db c.sid)))))
  | load {i : ι} {c : Call K S C E} {start st : S × ℕ} {fault : Option Err} {k : K} :
      s.procs i = .seeded c start →
      c.runtime.loadTail c.sid start (orFault fault (readStream D s.db c.sid start.2)) s.keys =
        .ok st k →
      Moves D H s (.readStream i fault) { s.setProc i (.loaded c st) with keys := k }
  | loadError {i : ι} {c : Call K S C E} {start : S × ℕ} {fault : Option Err} {e : Err} {k : K} :
      s.procs i = .seeded c start →
      c.runtime.loadTail c.sid start (orFault fault (readStream D s.db c.sid start.2)) s.keys =
        .error e k →
      Moves D H s (.readStream i fault) { s.setProc i (.returned (.error e)) with keys := k }
  | decide {i : ι} {c : Call K S C E} {st : S × ℕ} {ids : ℕ → UUID} {events : List E}
      {p : AppendParams} {k : K} : s.procs i = .loaded c st →
      c.runtime.decideAppend c.sid c.cmd c.cfg ids st s.keys = .ok (some (events, p)) k →
      Moves D H s (.decide i ids) { s.setProc i (.decided c events p) with keys := k }
  | decideNone {i : ι} {c : Call K S C E} {st : S × ℕ} {ids : ℕ → UUID} {k : K} :
      s.procs i = .loaded c st →
      c.runtime.decideAppend c.sid c.cmd c.cfg ids st s.keys = .ok none k →
      Moves D H s (.decide i ids) { s.setProc i (.returned (.ok .zero)) with keys := k }
  | decideError {i : ι} {c : Call K S C E} {st : S × ℕ} {ids : ℕ → UUID} {e : Err} {k : K} :
      s.procs i = .loaded c st →
      c.runtime.decideAppend c.sid c.cmd c.cfg ids st s.keys = .error e k →
      Moves D H s (.decide i ids) { s.setProc i (.returned (.error e)) with keys := k }
  | append {i : ι} {c : Call K S C E} {events : List E} {p : AppendParams} {en : Engine}
      {r : AppendResult} {db' : Db κ} : s.procs i = .decided c events p →
      append D H en p s.db = (.ok r, db') →
      Moves D H s (.append i en) { s.setProc i (.returned (.ok r)) with
        db := db', commits := s.commits ++ [⟨i, c.sid, c.cmd, events⟩] }
  | appendError {i : ι} {c : Call K S C E} {events : List E} {p : AppendParams} {en : Engine}
      {e : Err} {db' : Db κ} : s.procs i = .decided c events p →
      append D H en p s.db = (.error e, db') →
      Moves D H s (.append i en) { s.setProc i (.returned (.error e)) with db := db' }
  | direct {en : Engine} {p : AppendParams} :
      Moves D H s (.direct en p) { s with db := (append D H en p s.db).2 }
  | keys {k : K} : Moves D H s (.keys k) { s with keys := k }
  | wipeError {rt : Runtime K S C E} {tenant : String} {fault : Option Err} {e : Err} :
      s.rebuild = .idle → (∃ e', probeTypeURL rt = .error e') ∨ fault ≠ none →
      Moves D H s (.wipe rt tenant fault) { s with rebuild := .returned (.error e) }
  | wipe {rt : Runtime K S C E} {tenant typeURL : String} : s.rebuild = .idle →
      probeTypeURL rt = .ok typeURL →
      Moves D H s (.wipe rt tenant none) { s with
        db := wipeStateCacheForType s.db tenant typeURL, rebuild := .scanning rt tenant ⟨0, []⟩ }
  | pageError {rt : Runtime K S C E} {tenant : String} {sc : Scan S} {fault : Option Err}
      {e : Err} : s.rebuild = .scanning rt tenant sc →
      (∃ e', readPage D s.db tenant sc.cursor = .error e') ∨ fault ≠ none →
      Moves D H s (.page fault) { s with rebuild := .returned (.error e) }
  | page {rt : Runtime K S C E} {tenant : String} {sc : Scan S} {envs : List Envelope} :
      s.rebuild = .scanning rt tenant sc → readPage D s.db tenant sc.cursor = .ok envs →
      envs ≠ [] →
      Moves D H s (.page none)
        { s with rebuild := .scanning rt tenant (envs.foldl rt.scanEvent sc) }
  | lastPage {rt : Runtime K S C E} {tenant : String} {sc : Scan S} :
      s.rebuild = .scanning rt tenant sc → readPage D s.db tenant sc.cursor = .ok [] →
      Moves D H s (.page none) { s with rebuild := .writing rt tenant sc.streams 0 }
  | upsert {rt : Runtime K S C E} {tenant : String} {left : List (String × StreamState S)}
      {written : ℕ} {key : String} {st : StreamState S} {en : Engine} {db' : Db κ} :
      s.rebuild = .writing rt tenant left written → left.lookup key = some st →
      rebuildStream D en rt st s.db = (.ok (), db') →
      Moves D H s (.upsert key en) { s with
        db := db', rebuild := .writing rt tenant (left.filter fun x => x.1 != key) (written + 1) }
  | upsertError {rt : Runtime K S C E} {tenant : String} {left : List (String × StreamState S)}
      {written : ℕ} {key : String} {st : StreamState S} {en : Engine} {e : Err} :
      s.rebuild = .writing rt tenant left written → left.lookup key = some st →
      (rebuildStream D en rt st s.db).1 = .error e →
      Moves D H s (.upsert key en) { s with rebuild := .returned (.error e) }
  | finish {rt : Runtime K S C E} {tenant : String} {written : ℕ} :
      s.rebuild = .writing rt tenant [] written →
      Moves D H s .finish { s with rebuild := .returned (.ok written) }

/-- The clients of one store. -/
def system [DecidableEq ι] (D : Dialect κ) (H : Hasher) :
    TS (Sys ι κ K S C E) (Label ι K S C E) where
  init s := ∃ k, s = .start k
  step s l s' := s.step D H l = some s'

/-! ### Inversion -/

section Moves

variable [DecidableEq ι] {D : Dialect κ} {H : Hasher} {s s' : Sys ι κ K S C E}

/-- Every step of the system is one of the moves. -/
theorem Sys.moves {l : Label ι K S C E} (h : s.step D H l = some s') : Moves D H s l s' := by
  cases l with
  | begin i c =>
    simp only [Sys.step] at h
    split at h
    · cases h; exact .begin ‹_›
    · cases h
  | getState i fault =>
    simp only [Sys.step, Sys.getState] at h
    split at h
    · cases h; exact .getState ‹_›
    · cases h
  | readStream i fault =>
    simp only [Sys.step, Sys.readStream] at h
    split at h
    · split at h
      · cases h; exact .load ‹_› ‹_›
      · cases h; exact .loadError ‹_› ‹_›
    · cases h
  | decide i ids =>
    simp only [Sys.step, Sys.decide] at h
    split at h
    · split at h
      · cases h; exact .decide ‹_› ‹_›
      · cases h; exact .decideNone ‹_› ‹_›
      · cases h; exact .decideError ‹_› ‹_›
    · cases h
  | append i en =>
    simp only [Sys.step, Sys.append] at h
    split at h
    · rename_i c events p hp
      rcases hres : EventStore.append D H en p s.db with ⟨e | r, db'⟩
      · rw [hres] at h; cases h; exact .appendError hp hres
      · rw [hres] at h; cases h; exact .append hp hres
    · cases h
  | direct en p => cases h; exact .direct
  | keys k => cases h; exact .keys
  | wipe rt tenant fault =>
    simp only [Sys.step, Sys.wipe] at h
    split at h
    · split at h
      · cases h; exact .wipeError ‹_› (Or.inl ⟨_, ‹_›⟩)
      · split at h
        · cases h; exact .wipeError ‹_› (Or.inr (by simp))
        · cases h; exact .wipe ‹_› ‹_›
    · cases h
  | page fault =>
    simp only [Sys.step, Sys.page] at h
    split at h
    · rename_i rt tenant sc hsc
      cases fault with
      | some e => cases h; exact .pageError hsc (Or.inr (by simp))
      | none =>
        simp only [orFault] at h
        split at h
        · cases h; exact .pageError hsc (Or.inl ⟨_, ‹_›⟩)
        · cases h; exact .lastPage hsc ‹_›
        · cases h; exact .page hsc ‹_› (by simp)
    · cases h
  | upsert key en =>
    simp only [Sys.step, Sys.upsert] at h
    split at h
    · rename_i rt tenant left written hw
      split at h
      · cases h
      · rename_i st hst
        split at h
        · rename_i hres
          cases h; exact .upsert hw hst (Prod.ext hres rfl)
        · rename_i e hres
          -- a failed upsert has left the tables alone
          rw [rebuildStream_error hres] at h
          cases h; exact .upsertError hw hst hres
    · cases h
  | finish =>
    simp only [Sys.step, Sys.finish] at h
    split at h
    · cases h; exact .finish ‹_›
    · cases h

/-! ### What a step does to one call, and to the tables -/

/-- What a step may do to a call, from the tables and keys it finds. -/
inductive Proc.Next (D : Dialect κ) (db : Db κ) (k k' : K) :
    Label ι K S C E → Proc K S C E → Proc K S C E → Prop
  | begin {i : ι} {c : Call K S C E} : Next D db k k' (.begin i c) .idle (.begun c)
  | getState {i : ι} {fault : Option Err} {c : Call K S C E} :
      Next D db k k' (.getState i fault) (.begun c)
        (.seeded c (c.runtime.seed (orFault fault (EventStore.getState D db c.sid))))
  | load {i : ι} {fault : Option Err} {c : Call K S C E} {start st : S × ℕ} :
      c.runtime.loadTail c.sid start (orFault fault (readStream D db c.sid start.2)) k =
        .ok st k' →
      Next D db k k' (.readStream i fault) (.seeded c start) (.loaded c st)
  | decide {i : ι} {ids : ℕ → UUID} {c : Call K S C E} {st : S × ℕ} {events : List E}
      {p : AppendParams} :
      c.runtime.decideAppend c.sid c.cmd c.cfg ids st k = .ok (some (events, p)) k' →
      Next D db k k' (.decide i ids) (.loaded c st) (.decided c events p)
  | ret {l : Label ι K S C E} {pr : Proc K S C E} {res : Except Err AppendResult} :
      (∀ r, pr ≠ .returned r) → Next D db k k' l pr (.returned res)

omit [DecidableEq ι] in
/-- A call that has returned does not move. -/
theorem Proc.Next.not_returned {db : Db κ} {k k' : K} {l : Label ι K S C E}
    {res : Except Err AppendResult} {pr : Proc K S C E} :
    ¬ Proc.Next D db k k' l (.returned res) pr := by
  intro h
  cases h with
  | ret hne => exact hne _ rfl

/-- A step leaves a call alone or moves it on. -/
theorem Moves.proc {l : Label ι K S C E} (h : Moves D H s l s') (i : ι) :
    s'.procs i = s.procs i ∨ Proc.Next D s.db s.keys s'.keys l (s.procs i) (s'.procs i) := by
  -- a step of the call `j` is a step of `i` or leaves `i` alone
  have key : ∀ {j : ι} {pr pr' : Proc K S C E} {k' : K}, s.procs j = pr →
      Proc.Next D s.db s.keys k' l pr pr' →
      (s.setProc j pr').procs i = s.procs i ∨
        Proc.Next D s.db s.keys k' l (s.procs i) ((s.setProc j pr').procs i) := by
    rintro j pr pr' k' rfl hn
    by_cases hij : i = j
    · subst hij
      simp only [Sys.setProc, if_true]
      exact Or.inr hn
    · simp only [Sys.setProc, if_neg hij]
      exact Or.inl trivial
  cases h with
  | begin hp => exact key hp .begin
  | getState hp => exact key hp .getState
  | load hp hl => exact key hp (.load hl)
  | decide hp hd => exact key hp (.decide hd)
  | loadError hp _ => exact key hp (.ret (by simp))
  | decideNone hp _ => exact key hp (.ret (by simp))
  | decideError hp _ => exact key hp (.ret (by simp))
  | append hp _ => exact key hp (.ret (by simp))
  | appendError hp _ => exact key hp (.ret (by simp))
  | _ => exact Or.inl rfl

variable (D H) in
/-- What a step does to the tables and to the history. -/
inductive Sys.Writes (s : Sys ι κ K S C E) (l : Label ι K S C E) (s' : Sys ι κ K S C E) : Prop
  | quiet : s.db.SameTables s'.db → s.db.seq ≤ s'.db.seq → s'.commits = s.commits → Writes s l s'
  | append {i : ι} {c : Call K S C E} {events : List E} {p : AppendParams} {en : Engine}
      {r : AppendResult} {rows : List (EventRow κ)} :
      l = .append i en → s.procs i = .decided c events p → s'.procs i = .returned (.ok r) →
      Appended D H en p s.db s'.db rows →
      s'.commits = s.commits ++ [⟨i, c.sid, c.cmd, events⟩] → Writes s l s'
  | direct {p : AppendParams} {en : Engine} {rows : List (EventRow κ)} :
      l = .direct en p → Appended D H en p s.db s'.db rows → s'.commits = s.commits → Writes s l s'
  | wipe {rt : Runtime K S C E} {tenant typeURL : String} :
      l = .wipe rt tenant none → probeTypeURL rt = .ok typeURL →
      s'.db = wipeStateCacheForType s.db tenant typeURL → s'.commits = s.commits → Writes s l s'
  | upsert {rt : Runtime K S C E} {tenant : String} {left : List (String × StreamState S)}
      {written : ℕ} {key : String} {st : StreamState S} {en : Engine} :
      l = .upsert key en → s.rebuild = .writing rt tenant left written →
      left.lookup key = some st → rebuildStream D en rt st s.db = (.ok (), s'.db) →
      s'.commits = s.commits → Writes s l s'

/-- Appends, the wipe and the upserts of a rebuild write; all other steps are quiet. -/
theorem Moves.writes {l : Label ι K S C E} (h : Moves D H s l s') : s.Writes D H l s' := by
  have quiet : s'.db = s.db → s'.commits = s.commits → s.Writes D H l s' := fun hdb hc =>
    .quiet (hdb ▸ .refl _) (hdb ▸ Nat.le_refl _) hc
  cases h with
  | append hp ha =>
    obtain ⟨rows, happ⟩ := append_ok ha
    exact .append rfl hp (if_pos rfl) happ rfl
  | appendError hp ha => exact .quiet (append_error ha) (append_error_seq ha) rfl
  | @direct en p =>
    rcases hres : EventStore.append D H en p s.db with ⟨e | r, db'⟩
    · exact .quiet (append_error hres) (append_error_seq hres) rfl
    · obtain ⟨rows, happ⟩ := append_ok hres
      exact .direct rfl happ rfl
  | wipe _ hp => exact .wipe rfl hp rfl rfl
  | upsert hw hl hu => exact .upsert rfl hw hl hu rfl
  | _ => exact quiet rfl rfl

end Moves

end EventStore
