import EventStore.Es.Shard
import EventStore.LTS.Basic
import EventStore.Storage.Read

/-!
# The projection runtime

`projection.Runtime`: a call of `RunOnce` loads the saved cursor of the projector, reads a page of
the log after it, gives the events of its shard to the handler one after the other, and saves the
position it came to.  An event whose handler fails stops the call, or is set aside in
`projection_dlq` when `DLQOnFailure` is set.

A call is a sequence of steps here (`ProjectionSys.next`), each with one access to the outside: the
checkpoint, the log, the handler, the dead letter queue.  It can crash between any two of them, and
runs beside appends and the calls of other runners.  The history of a `ProjectionSys` is for the
theorems to speak about; no step reads it.  `LockKey` is left out: a call that does not get the lock
does nothing.  So is a store without a dead letter queue: both adapters have one.

## Main definitions

* `Projector` : what a runner is configured with; `Projector.validate`, `Projector.inShard`.
* `Phase` : where a call of `RunOnce` is.
* `projectionSystem` : runners beside appends.
* `ProjectionSys.Moves` : what a step can do, with `ProjectionSys.moves_of_next`.
-/

namespace EventStore

variable {κ : Columns}

/-! ### The projector -/

/-- `projection.Runtime`. -/
structure Projector where
  name : String
  tenant : String
  batchSize : ℤ
  shard : ℤ
  totalShards : ℤ
  dlqOnFailure : Bool

namespace Projector

variable (P : Projector)

/-- `validate`; the store, the checkpoint and the handler are there. -/
def validate : Except Err Unit :=
  if P.name = "" then .error (.text "projection: Name is required")
  else if P.totalShards < 0 ∨ P.shard < 0 ∨ (0 < P.totalShards ∧ P.totalShards ≤ P.shard) then
    let shard := P.shard
    let totalShards := P.totalShards
    .error (.text s!"projection: invalid sharding Shard={shard} TotalShards={totalShards}")
  else .ok ()

/-- `inShard`, for the stream an event belongs to. -/
def inShard (tenantID canonical : String) : Except Err Bool :=
  if P.totalShards ≤ 0 then .ok true
  else (writtenShard tenantID canonical P.totalShards).map
    fun sh => decide ((sh.toNat : ℤ) = P.shard)

/-- `r.batchSize()`. -/
def page : ℤ := if P.batchSize ≤ 0 then 100 else P.batchSize

/-- An error of the call. -/
def failure (what : String) (err : Err) : Err :=
  let name := P.name
  .wrap s!"projection {name}: {what}" err

end Projector

/-- The page of the log after the cursor; `lim` takes the page size into the query. -/
def Projector.readEvents (P : Projector) (D : Dialect κ) (lim : ℤ → Except Err ℕ) (db : Db κ)
    (cursor : ℕ) : Except Err (List Envelope) := do
  let n ← lim P.page
  if P.tenant = "" then readAll D db cursor n else readAllForTenant D db P.tenant cursor n

/-! ### The dead letter queue -/

/-- A row of `projection_dlq`. -/
structure ProjectionDLQRow where
  projectionName : String
  tenantID : String
  globalPosition : ℕ
  eventID : UUID
  typeURL : String
  lastError : Bytes
  enqueuedAt : Time

/-- The rows have the same primary key. -/
def ProjectionDLQRow.Clash (r r' : ProjectionDLQRow) : Prop :=
  r.projectionName = r'.projectionName ∧ r.tenantID = r'.tenantID ∧
    r.globalPosition = r'.globalPosition

instance (r r' : ProjectionDLQRow) : Decidable (r.Clash r') :=
  inferInstanceAs (Decidable (_ ∧ _ ∧ _))

/-- `projection_dlq`. -/
abbrev ProjectionDLQ := Table ProjectionDLQRow ProjectionDLQRow.Clash

/-- The row as `DO UPDATE` leaves it, if it is the one in the way of `new`. -/
def ProjectionDLQRow.refresh (new r : ProjectionDLQRow) : ProjectionDLQRow :=
  if r.Clash new then { r with lastError := new.lastError, enqueuedAt := new.enqueuedAt } else r

theorem ProjectionDLQRow.refresh_key (new r : ProjectionDLQRow) :
    (new.refresh r).projectionName = r.projectionName ∧ (new.refresh r).tenantID = r.tenantID ∧
      (new.refresh r).globalPosition = r.globalPosition := by
  unfold refresh
  split_ifs
  · exact ⟨rfl, rfl, rfl⟩
  · exact ⟨rfl, rfl, rfl⟩

theorem ProjectionDLQRow.clash_of_refresh (new a b : ProjectionDLQRow)
    (h : (new.refresh a).Clash (new.refresh b)) : a.Clash b := by
  obtain ⟨ha, ha', ha''⟩ := new.refresh_key a
  obtain ⟨hb, hb', hb''⟩ := new.refresh_key b
  unfold Clash at h ⊢
  rwa [ha, ha', ha'', hb, hb', hb''] at h

/-- `InsertProjectionDLQ`; the error text is cut at 2048 bytes. -/
def insertProjectionDLQ (dlq : ProjectionDLQ) (name : String) (env : Envelope) (lastError : String)
    (now : Time) : ProjectionDLQ :=
  let row : ProjectionDLQRow := ⟨name, env.tenantID, env.globalPosition, env.eventID, env.typeURL,
    lastError.toUTF8.data.toList.take 2048, now⟩
  match dlq.insert row with
  | some dlq' => dlq'
  | none => dlq.update row.refresh row.clash_of_refresh

/-! ### The runners -/

/-- Where a call of `RunOnce` is. -/
inductive Phase where
  /-- No call is running; with what the last one returned. -/
  | idle (returned : Option (ℕ × Option Err))
  /-- The cursor is loaded. -/
  | loaded (cursor : ℕ)
  /-- In the loop, with the events that are left. -/
  | handling (last successes : ℕ) (todo : List Envelope)
  /-- The handler has failed on `env`, which is to go to the dead letter queue. -/
  | capturing (last successes : ℕ) (env : Envelope) (err : String) (todo : List Envelope)
  /-- After the loop. -/
  | saving (last successes : ℕ) (handlerErr : Option Err)

/-- The outcome of a statement.  When the connection is lost it may have been executed. -/
inductive Outcome where
  | done
  | failed (err : Err) (executed : Bool)

/-- The statement was executed. -/
def Outcome.executed : Outcome → Bool
  | .done => true
  | .failed _ x => x

/-- An entry of the history: runner `j` and the position of an event. -/
inductive Delivery where
  /-- The handler has returned without an error. -/
  | handled (j position : ℕ)
  /-- The event is in the dead letter queue. -/
  | captured (j position : ℕ)
  deriving DecidableEq

/-- The store, the checkpoints, and the runners. -/
structure ProjectionSys (κ : Columns) where
  db : Db κ
  /-- `projection_checkpoint`, by name and tenant; 0 where there is no row. -/
  checkpoint : String × String → ℕ
  dlq : ProjectionDLQ
  phase : ℕ → Phase
  /-- What has been delivered, oldest first. -/
  log : List Delivery

/-- The steps. -/
inductive ProjectionStep where
  | append (E : Engine) (p : AppendParams)
  /-- Runner `j` starts a call: `validate` and `Load`. -/
  | load (j : ℕ) (failure : Option Err)
  | read (j : ℕ) (failure : Option Err)
  /-- One turn of the loop, up to the return of the handler if it is called; the text is that of
  its error. -/
  | event (j : ℕ) (failure : Option String)
  | insertProjectionDLQ (j : ℕ) (now : Time) (outcome : Outcome)
  | save (j : ℕ) (outcome : Outcome)
  | crash (j : ℕ)

namespace ProjectionSys

variable (s : ProjectionSys κ)

/-- No event, no checkpoint, no call. -/
def empty : ProjectionSys κ where
  db := .empty
  checkpoint _ := 0
  dlq := .empty
  phase _ := .idle none
  log := []

/-- `Load`. -/
def cursor (P : Projector) : ℕ := s.checkpoint (P.name, P.tenant)

/-- Runner `j` moved on. -/
def setPhase (j : ℕ) (x : Phase) : ProjectionSys κ :=
  { s with phase := Function.update s.phase j x }

/-- A call returns. -/
def ret (j successes : ℕ) (err : Option Err) : ProjectionSys κ :=
  s.setPhase j (.idle (some (successes, err)))

/-- `Save`. -/
def saveCheckpoint (P : Projector) (position : ℕ) : ProjectionSys κ :=
  { s with checkpoint := Function.update s.checkpoint (P.name, P.tenant) position }

/-- The event is put into the dead letter queue. -/
def capture (P : Projector) (j : ℕ) (env : Envelope) (err : String) (now : Time) :
    ProjectionSys κ :=
  { s with
    dlq := EventStore.insertProjectionDLQ s.dlq P.name env err now
    log := s.log ++ [.captured j env.globalPosition] }

variable (D : Dialect κ) (H : Hasher) (lim : ℤ → Except Err ℕ) (P : ℕ → Projector)

/-- One turn of the loop of `RunOnce`. -/
def turn (j last successes : ℕ) (env : Envelope) (todo : List Envelope)
    (failure : Option String) : ProjectionSys κ :=
  match (P j).inShard env.tenantID env.streamID.canonical, failure with
  | .error _, _ => s.setPhase j (.idle none)
  | .ok false, _ => s.setPhase j (.handling env.globalPosition successes todo)
  | .ok true, none =>
    { s.setPhase j (.handling env.globalPosition (successes + 1) todo) with
      log := s.log ++ [.handled j env.globalPosition] }
  | .ok true, some err =>
    if (P j).dlqOnFailure then s.setPhase j (.capturing last successes env err todo)
    else
      let id := env.eventID.string
      s.setPhase j (.saving last successes
        (some ((P j).failure s!"handle event {id}" (.text err))))

/-- The state after one step; runner `j` is configured with `P j`. -/
def next : ProjectionStep → Option (ProjectionSys κ)
  | .append E p => some { s with db := (append D H E p s.db).2 }
  | .load j failure =>
    match s.phase j, (P j).validate, failure with
    | .idle _, .error e, _ => some (s.ret j 0 (some e))
    | .idle _, .ok (), some e => some (s.ret j 0 (some ((P j).failure "load checkpoint" e)))
    | .idle _, .ok (), none => some (s.setPhase j (.loaded (s.cursor (P j))))
    | _, _, _ => none
  | .read j failure =>
    match s.phase j, failure with
    | .loaded _, some e => some (s.ret j 0 (some ((P j).failure "read events" e)))
    | .loaded cursor, none =>
      match (P j).readEvents D lim s.db cursor with
      | .error e => some (s.ret j 0 (some ((P j).failure "read events" e)))
      | .ok [] => some (s.ret j 0 none)
      | .ok (env :: todo) => some (s.setPhase j (.handling 0 0 (env :: todo)))
    | _, _ => none
  | .event j failure =>
    match s.phase j with
    | .handling last n [] => some (s.setPhase j (.saving last n none))
    | .handling last n (env :: todo) => some (s.turn P j last n env todo failure)
    | _ => none
  | .insertProjectionDLQ j now outcome =>
    match s.phase j with
    | .capturing last n env err todo =>
      let s' := if outcome.executed then s.capture (P j) j env err now else s
      match outcome with
      | .done => some (s'.setPhase j (.handling env.globalPosition n todo))
      | .failed e _ =>
        some (s'.setPhase j (.saving last n (some ((P j).failure "dlq capture" e))))
    | _ => none
  | .save j outcome =>
    match s.phase j with
    | .saving 0 n handlerErr => some (s.ret j n handlerErr)
    | .saving (last + 1) n handlerErr =>
      let s' := if outcome.executed then s.saveCheckpoint (P j) (last + 1) else s
      match outcome with
      | .done => some (s'.ret j n handlerErr)
      | .failed e _ => some (s'.ret j n (some ((P j).failure "save checkpoint" e)))
    | _ => none
  | .crash j => some (s.setPhase j (.idle none))

end ProjectionSys

/-- Runners beside appends. -/
def projectionSystem (D : Dialect κ) (H : Hasher) (lim : ℤ → Except Err ℕ) (P : ℕ → Projector) :
    TS (ProjectionSys κ) ProjectionStep where
  init s := s = .empty
  step s l s' := s.next D H lim P l = some s'

/-! ### What a step can do -/

/-- The position of the last event the call has passed; 0 when there is none. -/
def Phase.last : Phase → ℕ
  | .idle _ | .loaded _ => 0
  | .handling last _ _ | .capturing last _ _ _ _ | .saving last _ _ => last

/-- What is left of the page. -/
def Phase.todo : Phase → List Envelope
  | .idle _ | .loaded _ | .saving _ _ _ => []
  | .handling _ _ todo => todo
  | .capturing _ _ env _ todo => env :: todo

namespace ProjectionSys

variable {D : Dialect κ} {H : Hasher} {lim : ℤ → Except Err ℕ} {P : ℕ → Projector}
  {s s' : ProjectionSys κ}

variable (D lim P s) in
/-- The kinds of steps, by what they do to the store, the checkpoints and the history. -/
inductive Moves : ProjectionSys κ → Prop
  | append {db' : Db κ} {rows : List (EventRow κ)} :
      s.db.Grown db' rows → Moves { s with db := db' }
  /-- A call ends or crashes. -/
  | stop (j : ℕ) (r : Option (ℕ × Option Err)) : Moves (s.setPhase j (.idle r))
  | load (j : ℕ) : Moves (s.setPhase j (.loaded (s.cursor (P j))))
  | read {j cursor : ℕ} {todo : List Envelope} :
      s.phase j = .loaded cursor → (P j).readEvents D lim s.db cursor = .ok todo →
      Moves (s.setPhase j (.handling 0 0 todo))
  | skip {j last n : ℕ} {env : Envelope} {todo : List Envelope} :
      s.phase j = .handling last n (env :: todo) →
      (P j).inShard env.tenantID env.streamID.canonical = .ok false →
      Moves (s.setPhase j (.handling env.globalPosition n todo))
  | handle {j last n : ℕ} {env : Envelope} {todo : List Envelope} :
      s.phase j = .handling last n (env :: todo) →
      (P j).inShard env.tenantID env.streamID.canonical = .ok true →
      Moves { s.setPhase j (.handling env.globalPosition (n + 1) todo) with
        log := s.log ++ [.handled j env.globalPosition] }
  | refuse {j last n : ℕ} {env : Envelope} {todo : List Envelope} {err : String} :
      s.phase j = .handling last n (env :: todo) →
      (P j).inShard env.tenantID env.streamID.canonical = .ok true →
      Moves (s.setPhase j (.capturing last n env err todo))
  /-- The loop is left. -/
  | leave (j n : ℕ) (err : Option Err) :
      Moves (s.setPhase j (.saving (s.phase j).last n err))
  /-- The event is captured, which the call may not get to know. -/
  | capture {j last n : ℕ} {env : Envelope} {err : String} {todo : List Envelope} {x : Phase}
      (now : Time) : s.phase j = .capturing last n env err todo →
      (x = .handling env.globalPosition n todo ∨ ∃ e, x = .saving last n e) →
      Moves ((s.capture (P j) j env err now).setPhase j x)
  | save {j last n : ℕ} {err : Option Err} (r : Option (ℕ × Option Err)) :
      s.phase j = .saving last n err → 0 < last →
      Moves ((s.saveCheckpoint (P j) last).setPhase j (.idle r))

theorem moves_of_turn {j last n : ℕ} {env : Envelope} {todo : List Envelope}
    {failure : Option String} (h : s.phase j = .handling last n (env :: todo)) :
    s.Moves D lim P (s.turn P j last n env todo failure) := by
  have hlast : (s.phase j).last = last := congrArg Phase.last h
  unfold turn
  split
  · exact .stop j none
  · rename_i hin
    exact .skip h hin
  · rename_i hin
    exact .handle h hin
  · rename_i err hin
    split_ifs
    · exact .refuse h hin
    · rw [← hlast]
      exact .leave j n _

theorem moves_of_next {l : ProjectionStep} (h : s.next D H lim P l = some s') :
    s.Moves D lim P s' := by
  cases l with
  | append E p =>
    obtain rfl := Option.some.inj h
    obtain ⟨rows, hg⟩ : ∃ rows, s.db.Grown (EventStore.append D H E p s.db).2 rows :=
      Db.append_grown
    exact .append hg
  | load j failure =>
    simp only [next] at h
    split at h
    · exact Option.some.inj h ▸ .stop j _
    · exact Option.some.inj h ▸ .stop j _
    · exact Option.some.inj h ▸ .load j
    · cases h
  | read j failure =>
    simp only [next] at h
    split at h
    · exact Option.some.inj h ▸ .stop j _
    · rename_i cursor hp
      split at h
      · exact Option.some.inj h ▸ .stop j _
      · exact Option.some.inj h ▸ .stop j _
      · rename_i hread
        exact Option.some.inj h ▸ .read hp hread
    · cases h
  | event j failure =>
    simp only [next] at h
    split at h
    · rename_i last n hp
      have hlast : (s.phase j).last = last := congrArg Phase.last hp
      rw [← hlast] at h
      exact Option.some.inj h ▸ .leave j n none
    · rename_i hp
      exact Option.some.inj h ▸ moves_of_turn hp
    · cases h
  | insertProjectionDLQ j now outcome =>
    simp only [next] at h
    split at h
    · rename_i last n env err todo hp
      have hlast : (s.phase j).last = last := congrArg Phase.last hp
      split at h
      · exact Option.some.inj h ▸ .capture now hp (Or.inl rfl)
      · rename_i e x
        cases x
        · rw [← hlast] at h
          exact Option.some.inj h ▸ .leave j n _
        · exact Option.some.inj h ▸ .capture now hp (Or.inr ⟨_, rfl⟩)
    · cases h
  | save j outcome =>
    simp only [next] at h
    split at h
    · exact Option.some.inj h ▸ .stop j _
    · rename_i last n err hp
      split at h
      · exact Option.some.inj h ▸ .save _ hp last.succ_pos
      · rename_i e x
        cases x
        · exact Option.some.inj h ▸ .stop j _
        · exact Option.some.inj h ▸ .save _ hp last.succ_pos
    · cases h
  | crash j => exact Option.some.inj h ▸ .stop j none

end ProjectionSys

end EventStore
