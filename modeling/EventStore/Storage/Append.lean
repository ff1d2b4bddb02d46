import EventStore.Es.Chain
import EventStore.Storage.Dialect

/-!
# `Append`

`Adapter.Append` of the two adapters, which commits one batch of events, its uniqueness claims,
its outbox rows and an optional `state_cache` row in a single transaction.

Statements run in `Sql`, which fails with a driver error; the body of the transaction runs in
`Tx`, which fails with a Go error.  Both keep the tables as they were at the failure, and
`withTx` rolls them back.

## Main definitions

* `append` : the call.  It returns its result and the database it leaves.
* `prepareEvent` : the columns of one event, everything but its position.
* `Written` : the rows a batch is stored as.
* `foldOp` : what one constraint operation does to the claims.

## Main results

* `append_error` : **a failed append changes no table.**
* `append_ok` : what a successful append does to each table (`Appended`).
-/

namespace EventStore

/-- SQL statements. -/
abbrev Sql (κ : Columns) := EStateM DbErr (Db κ)

/-- The body of a transaction. -/
abbrev Tx (κ : Columns) := EStateM Err (Db κ)

variable {κ : Columns} (D : Dialect κ) (H : Hasher) (E : Engine)

/-- A statement that runs unless the engine fails it. -/
def statement {α : Type} (st : Statement) (x : Db κ → EStateM.Result DbErr (Db κ) α) : Sql κ α :=
  fun db =>
    match E.fault st with
    | some e => .error (.other e) db
    | none => x db

/-! ### Constraint operations -/

/-- The key an operation is about. -/
def ConstraintOp.key (sid : StreamID) (op : ConstraintOp) : ClaimKey :=
  ⟨sid.tenant, op.scope, op.value⟩

/-- The `ClaimUnique` statement: an insert into `unique_claims`. -/
def claimUnique (i : ℕ) (row : ClaimRow) : Sql κ Unit :=
  statement E (.constraint i) fun db =>
    match db.uniqueClaims.insert row with
    | some t => .ok () { db with uniqueClaims := t }
    | none => .error (.unique .uniqueClaims) db

/-- The `ReleaseUnique` statement: a delete by key, whichever stream holds the claim. -/
def releaseUnique (i : ℕ) (key : ClaimKey) : Sql κ Unit :=
  statement E (.constraint i) fun db =>
    .ok () { db with uniqueClaims := db.uniqueClaims.delete fun r => r.key == key }

/-- One round of the loop over the constraint operations. -/
def applyConstraint (sid : StreamID) (i : ℕ) (op : ConstraintOp) : Tx κ Unit :=
  match op.op with
  | .claim => EStateM.adaptExcept mapErr (claimUnique E i ⟨op.key sid, sid.canonical⟩)
  | .release =>
    EStateM.adaptExcept (fun e => .wrap "release constraint" e.toErr)
      (releaseUnique E i (op.key sid))
  | .unknown n =>
    let name := D.name
    throw (.text s!"{name}: unknown constraint op {n}")

/-- The loop over the constraint operations. -/
def applyConstraints (sid : StreamID) : ℕ → List ConstraintOp → Tx κ Unit
  | _, [] => pure ()
  | i, op :: ops => do
    applyConstraint D E sid i op
    applyConstraints sid (i + 1) ops

/-! ### Events -/

/-- The rows of a stream in the order of their versions. -/
def Db.streamRows (db : Db κ) (sid : StreamID) : List (EventRow κ) :=
  db.events.select (EventRow.inStream sid) EventRow.version

/-- The `LastStreamHash` query: NULL and no row are both the empty slice. -/
def Db.lastStreamHash (db : Db κ) (sid : StreamID) : Bytes :=
  ((db.streamRows sid).getLast?.bind EventRow.hash).getD []

/-- The hash the first event of a batch is linked to. -/
def Db.predecessorHash (db : Db κ) (sid : StreamID) : Bytes :=
  let h := db.lastStreamHash sid
  if h.length = 0 then zeroHash else h

/-- The envelope the hash of an event is computed over. -/
def chainEnv (p : AppendParams) (version : ℕ) (ev : EventToAppend) : Envelope where
  eventID := ev.eventID
  tenantID := p.streamID.tenant
  streamID := p.streamID
  version := version
  globalPosition := 0
  typeURL := ev.typeURL
  schemaVersion := ev.schemaVersion
  occurredAt := ev.occurredAt
  recordedAt := 0
  correlationID := ev.correlationID
  causationID := ev.causationID
  commandID := ev.commandID
  actor := ev.actor
  payload := ev.payload
  payloadJSON := none
  keyRefs := ev.keyRefs
  hash := []
  prevHash := []

/-- The columns of the `i`-th event of a batch; the position is set by the insert. -/
def eventRow (p : AppendParams) (i : ℕ) (prevHash : Bytes) (ev : EventToAppend) (actor : κ.Actor)
    (hash : Bytes) (payloadJSON keyRefs : Option κ.Json) : EventRow κ where
  eventID := ev.eventID
  tenantID := p.streamID.tenant
  streamID := p.streamID.canonical
  version := p.expectedVersion + i + 1
  globalPosition := 0
  typeURL := ev.typeURL
  schemaVersion := D.schemaColumn ev.schemaVersion
  occurredAt := D.formatTime ev.occurredAt
  recordedAt := D.formatTime (D.stamp E.clock i)
  correlationID := ev.correlationID
  causationID := ev.causationID
  commandID := ev.commandID
  actor := actor
  actorPrincipal := ev.actor.principal
  payload := ev.payload
  payloadJSON := payloadJSON
  encryptionKeyRefs := keyRefs
  hash := some hash
  prevHash := some prevHash

/-- The part of a round of the loop that comes before the insert. -/
def prepareEvent (p : AppendParams) (i : ℕ) (prevHash : Bytes) (ev : EventToAppend) :
    Except Err (EventRow κ) := do
  let actor ← D.encodeActor ev.actor
  -- the hash is over the values of the call, not over the columns
  let hash ← (computeChainHash H prevHash (chainEnv p (p.expectedVersion + i + 1) ev)).mapError
    (.wrap "compute chain hash")
  let payloadJSON ← D.storeJSON ev.payloadJSON
  let keyRefs ← D.storeJSON ev.keyRefs
  return eventRow D E p i prevHash ev actor hash payloadJSON keyRefs

/-- The database with a row inserted at the next position. -/
def Db.insertEvent (db : Db κ) (row : EventRow κ) : Option (Db κ) :=
  match h : db.events.insert { row with globalPosition := db.seq + 1 } with
  | none => none
  | some t => some
    { db with
      events := t
      seq := db.seq + 1
      ordered := by
        -- the new position is above all others, and below what will be drawn next
        obtain ⟨-, hrows⟩ := Table.insert_eq_some_iff.1 h
        have ho := List.pairwise_append.1 db.ordered
        rw [hrows, List.map_append, List.map_singleton, List.append_assoc, List.pairwise_append]
        refine ⟨ho.1, by simp, fun a ha b hb => ?_⟩
        have := ho.2.2 a ha _ List.mem_cons_self
        simp only [List.singleton_append, List.mem_cons, List.not_mem_nil, or_false] at hb
        omega }

/-- The `InsertEvent` statement; it returns the position drawn.  A row that is refused has drawn
one too. -/
def insertEvent (i : ℕ) (row : EventRow κ) : Sql κ ℕ :=
  statement E (.insertEvent i) fun db =>
    match db.insertEvent row with
    | some db' => .ok (db.seq + 1) db'
    | none => .error (.unique .events) (db.advance (db.seq + 1))

/-- The `InsertOutbox` statement. -/
def insertOutbox (i : ℕ) (row : OutboxRow) : Sql κ Unit :=
  statement E (.insertOutbox i) fun db =>
    match db.outbox.insert row with
    | some t => .ok () { db with outbox := t }
    | none => .error (.unique .outbox) db

/-- The variables of the loop over the events. -/
structure LoopVars where
  prevHash : Bytes
  startPos : ℕ
  endPos : ℕ
  recordedAt : Time

/-- One round of the loop over the events. -/
def appendEvent (p : AppendParams) (i : ℕ) (v : LoopVars) (ev : EventToAppend) : Tx κ LoopVars := do
  let row ← EStateM.ofExcept (prepareEvent D H E p i v.prevHash ev)
  let gp ← EStateM.adaptExcept mapErr (insertEvent E i row)
  EStateM.adaptExcept (fun e => .wrap "insert outbox" e.toErr)
    (insertOutbox E i ⟨p.streamID.tenant, gp, ev.eventID⟩)
  return {
    prevHash := row.hash.getD []
    startPos := if i = 0 then gp else v.startPos
    endPos := gp
    recordedAt := D.stamp E.clock i }

/-- The loop over the events. -/
def appendEvents (p : AppendParams) : ℕ → LoopVars → List EventToAppend → Tx κ LoopVars
  | _, v, [] => pure v
  | i, v, ev :: evs => do
    let v' ← appendEvent D H E p i v ev
    appendEvents p (i + 1) v' evs

/-! ### The state cache -/

/-- A schema version of 0 stands for 1. -/
def defaultSchema (v : UInt32) : UInt32 := if v = 0 then 1 else v

theorem defaultSchema_defaultSchema (v : UInt32) :
    defaultSchema (defaultSchema v) = defaultSchema v := by
  unfold defaultSchema
  split_ifs <;> simp_all

/-- The `state_cache` row of an append. -/
def stateCacheRow (p : AppendParams) (state : κ.State) : StateCacheRow κ where
  tenantID := p.streamID.tenant
  streamID := p.streamID.canonical
  typeURL := p.stateTypeURL
  state := state
  version := p.expectedVersion + p.events.length
  terminal := p.terminal
  stateSchemaVersion := D.schemaColumn (defaultSchema p.stateSchemaVersion)
  updatedAt := D.formatTime (D.stamp E.clock p.events.length)

/-- The `UpsertStateCache` statement: the row of the stream is replaced whatever it holds. -/
def upsertStateCache (row : κ.State → StateCacheRow κ) (bytes : Option Bytes) : Sql κ Unit :=
  statement E .upsertStateCache fun db =>
    match D.storeState bytes with
    | .ok s => .ok () { db with stateCache := db.stateCache.upsert (row s) }
    | .error e => .error (.other e) db

/-- The optional last statement of an append. -/
def cacheState (p : AppendParams) : Tx κ Unit :=
  match p.newStateBytes with
  | none => pure ()
  | some b =>
    EStateM.adaptExcept (fun e => .wrap "upsert state_cache" e.toErr)
      (upsertStateCache D E (stateCacheRow D E p) (some b))

/-! ### The transaction -/

/-- The statements before the first constraint operation. -/
def runPreamble : List (Statement × (Err → Err)) → Tx κ Unit
  | [] => pure ()
  | (st, wrap) :: rest => do
    EStateM.adaptExcept (fun e => wrap e.toErr) (statement E st fun db => .ok () db)
    runPreamble rest

/-- The result of an append, from the loop variables at its end. -/
def appendResult (p : AppendParams) (v : LoopVars) : AppendResult where
  startVersion := p.expectedVersion + 1
  endVersion := p.expectedVersion + p.events.length
  startGlobalPosition := v.startPos
  endGlobalPosition := v.endPos
  recordedAt := v.recordedAt

/-- The function `Append` runs in a transaction. -/
def appendBody (p : AppendParams) : Tx κ AppendResult := do
  runPreamble E D.preamble
  applyConstraints D E p.streamID 0 p.constraints
  let prevHash ← EStateM.adaptExcept (fun e => .wrap "read last hash" e.toErr)
    (statement E .lastStreamHash fun db => .ok (db.predecessorHash p.streamID) db)
  let v ← appendEvents D H E p 0 ⟨prevHash, 0, 0, 0⟩ p.events
  cacheState D E p
  return appendResult p v

/-- The database after a rollback of `db'` to `db`. -/
def rollback (db db' : Db κ) : Db κ := if D.sequenceRollsBack then db else db.advance db'.seq

/-- `withTx`, and `pgx.BeginFunc`: commit what succeeded, roll back what failed, and roll back
when the commit fails. -/
def withTx {α : Type} (body : Tx κ α) (db : Db κ) : Except Err α × Db κ :=
  match body db with
  | .error e db' => (.error e, rollback D db db')
  | .ok a db' =>
    match E.fault .commit with
    | some e => (.error e, rollback D db db')
    | none => (.ok a, db')

/-- `Adapter.Append`. -/
def append (p : AppendParams) (db : Db κ) : Except Err AppendResult × Db κ :=
  match p.streamID.validate with
  | .error e => (.error e, db)
  | .ok () =>
    if p.events.isEmpty then
      let name := D.name
      (.error (.text s!"{name}: append requires at least one event"), db)
    else withTx D E (appendBody D H E p) db

/-! ### What a failed append does -/

variable {D H E}

/-- A failed append has not started a transaction, or has rolled it back. -/
theorem append_error_cases {p : AppendParams} {db db' : Db κ} {e : Err}
    (h : append D H E p db = (.error e, db')) : db' = db ∨ ∃ db₁, db' = rollback D db db₁ := by
  unfold append at h
  split at h
  · exact Or.inl (Prod.mk.inj h).2.symm
  · split at h
    · exact Or.inl (Prod.mk.inj h).2.symm
    · unfold withTx at h
      split at h
      · exact Or.inr ⟨_, (Prod.mk.inj h).2.symm⟩
      · split at h
        · exact Or.inr ⟨_, (Prod.mk.inj h).2.symm⟩
        · cases h

/-- **A failed append changes no table**, whichever statement failed and why. -/
theorem append_error {p : AppendParams} {db db' : Db κ} {e : Err}
    (h : append D H E p db = (.error e, db')) : db.SameTables db' := by
  rcases append_error_cases h with rfl | ⟨db₁, rfl⟩
  · exact .refl _
  · unfold rollback
    split
    · exact .refl db
    · exact db.sameTables_advance _

/-- The sequence does not move back. -/
theorem append_error_seq {p : AppendParams} {db db' : Db κ} {e : Err}
    (h : append D H E p db = (.error e, db')) : db.seq ≤ db'.seq := by
  rcases append_error_cases h with rfl | ⟨db₁, rfl⟩
  · exact le_refl _
  · unfold rollback
    split
    · exact le_refl _
    · exact Nat.le_max_left ..

/-! ### What a successful append does -/

/-- A constraint operation and the stream that issued it. -/
abbrev IssuedOp := StreamID × ConstraintOp

/-- The key the operation is about. -/
def IssuedOp.key (x : IssuedOp) : ClaimKey := x.2.key x.1

/-- The operations of a call. -/
def AppendParams.ops (p : AppendParams) : List IssuedOp := p.constraints.map (Prod.mk p.streamID)

/-- What one operation does to the rows of `unique_claims`. -/
def foldOp (rows : List ClaimRow) (x : IssuedOp) : List ClaimRow :=
  match x.2.op with
  | .claim => rows ++ [⟨x.key, x.1.canonical⟩]
  | .release => rows.filter fun r => !(r.key == x.key)
  | .unknown _ => rows

/-- The operation is not refused: a claim finds its key free, and the operation is known. -/
def OpAllowed (rows : List ClaimRow) (x : IssuedOp) : Prop :=
  x.2.op = .claim ∧ (∀ r ∈ rows, r.key ≠ x.key) ∨ x.2.op = .release

/-- No operation of the list is refused. -/
def OpsAllowed : List ClaimRow → List IssuedOp → Prop
  | _, [] => True
  | rows, x :: xs => OpAllowed rows x ∧ OpsAllowed (foldOp rows x) xs

variable (D H E) in
/-- `Written p i prev seq evs rows` : the events `evs`, from the `i`-th of the batch on, are stored
as `rows`; the first is linked to `prev`, and `seq` is the last position drawn before. -/
inductive Written (p : AppendParams) :
    ℕ → Bytes → ℕ → List EventToAppend → List (EventRow κ) → Prop
  | nil {i : ℕ} {prev : Bytes} {seq : ℕ} : Written p i prev seq [] []
  | cons {i : ℕ} {prev : Bytes} {seq : ℕ} {ev : EventToAppend} {evs : List EventToAppend}
      {row : EventRow κ} {rows : List (EventRow κ)} :
      prepareEvent D H E p i prev ev = .ok row →
      Written p (i + 1) (row.hash.getD []) (seq + 1) evs rows →
      Written p i prev seq (ev :: evs) ({ row with globalPosition := seq + 1 } :: rows)

/-- The outbox row of an event. -/
def EventRow.outboxRow (r : EventRow κ) : OutboxRow := ⟨r.tenantID, r.globalPosition, r.eventID⟩

variable (D H E) in
/-- What a successful append of `p` does to `db`: `rows` are the new rows of `events`. -/
structure Appended (p : AppendParams) (db db' : Db κ) (rows : List (EventRow κ)) : Prop where
  valid : p.streamID.Valid
  nonempty : p.events ≠ []
  written : Written D H E p 0 (db.predecessorHash p.streamID) db.seq p.events rows
  events : db'.events.rows = db.events.rows ++ rows
  outbox : db'.outbox.rows = db.outbox.rows ++ rows.map EventRow.outboxRow
  claims : db'.uniqueClaims.rows = p.ops.foldl foldOp db.uniqueClaims.rows
  allowed : OpsAllowed db.uniqueClaims.rows p.ops
  stateCache : db'.stateCache = db.stateCache ∧ p.newStateBytes = none ∨
    ∃ b s, p.newStateBytes = some b ∧ D.storeState (some b) = .ok s ∧
      db'.stateCache = db.stateCache.upsert (stateCacheRow D E p s)
  seq : db'.seq = db.seq + p.events.length

section Peel

variable {α : Type} {db db' : Db κ}

@[simp] theorem statement_eq_ok {st : Statement} {x : Db κ → EStateM.Result DbErr (Db κ) α}
    {a : α} : statement E st x db = .ok a db' ↔ E.fault st = none ∧ x db = .ok a db' := by
  unfold statement
  split <;> simp_all

end Peel

section Ok

variable {p : AppendParams} {db db' : Db κ} {i : ℕ} {prev : Bytes} {ev : EventToAppend}
  {row : EventRow κ}

theorem prepareEvent_eq_ok : prepareEvent D H E p i prev ev = .ok row ↔
    ∃ actor hash pj kr, D.encodeActor ev.actor = .ok actor ∧
      computeChainHash H prev (chainEnv p (p.expectedVersion + i + 1) ev) = .ok hash ∧
      D.storeJSON ev.payloadJSON = .ok pj ∧ D.storeJSON ev.keyRefs = .ok kr ∧
      row = eventRow D E p i prev ev actor hash pj kr := by
  simp only [prepareEvent, Except.bind_eq_ok, Except.mapError_eq_ok]
  constructor
  · rintro ⟨a, ha, h, hh, pj, hpj, kr, hkr, hr⟩
    exact ⟨a, h, pj, kr, ha, hh, hpj, hkr, (Except.ok.inj hr).symm⟩
  · rintro ⟨a, h, pj, kr, ha, hh, hpj, hkr, rfl⟩
    exact ⟨a, ha, h, hh, pj, hpj, kr, hkr, rfl⟩

theorem runPreamble_ok {l : List (Statement × (Err → Err))}
    (h : runPreamble E l db = .ok () db') : db' = db := by
  induction l with
  | nil =>
    rw [runPreamble, EStateM.pure_eq_ok] at h
    exact h.2.symm
  | cons x l ih =>
    rw [runPreamble, EStateM.bind_eq_ok] at h
    obtain ⟨⟨⟩, db₁, h₁, h₂⟩ := h
    rw [EStateM.adaptExcept_eq_ok, statement_eq_ok] at h₁
    cases h₁.2
    exact ih h₂

/-- One constraint operation: only `unique_claims` changes. -/
theorem applyConstraint_ok {sid : StreamID} {op : ConstraintOp}
    (h : applyConstraint D E sid i op db = .ok () db') :
    OpAllowed db.uniqueClaims.rows (sid, op) ∧
      ∃ t, db' = { db with uniqueClaims := t } ∧
        t.rows = foldOp db.uniqueClaims.rows (sid, op) := by
  cases hop : op.op with
  | claim =>
    simp only [applyConstraint, hop, EStateM.adaptExcept_eq_ok, claimUnique, statement_eq_ok] at h
    obtain ⟨-, h⟩ := h
    split at h
    · rename_i t ht
      obtain ⟨hfree, hrows⟩ := Table.insert_eq_some_iff.1 ht
      cases h
      exact ⟨Or.inl ⟨hop, hfree⟩, t, rfl, by simp [hrows, foldOp, hop, IssuedOp.key]⟩
    · cases h
  | release =>
    simp only [applyConstraint, hop, EStateM.adaptExcept_eq_ok, releaseUnique, statement_eq_ok] at h
    cases h.2
    exact ⟨Or.inr hop, _, rfl, by simp [foldOp, hop, IssuedOp.key]⟩
  | unknown n =>
    simp only [applyConstraint, hop] at h
    cases h

theorem applyConstraints_ok {sid : StreamID} {ops : List ConstraintOp}
    (h : applyConstraints D E sid i ops db = .ok () db') :
    OpsAllowed db.uniqueClaims.rows (ops.map (Prod.mk sid)) ∧
      ∃ t, db' = { db with uniqueClaims := t } ∧
        t.rows = (ops.map (Prod.mk sid)).foldl foldOp db.uniqueClaims.rows := by
  induction ops generalizing i db with
  | nil =>
    rw [applyConstraints, EStateM.pure_eq_ok] at h
    exact ⟨trivial, db.uniqueClaims, h.2.symm, rfl⟩
  | cons op ops ih =>
    rw [applyConstraints, EStateM.bind_eq_ok] at h
    obtain ⟨⟨⟩, db₁, h₁, h₂⟩ := h
    obtain ⟨hop, t, rfl, ht⟩ := applyConstraint_ok h₁
    obtain ⟨hops, t', rfl, ht'⟩ := ih h₂
    rw [ht] at hops ht'
    exact ⟨⟨hop, hops⟩, t', rfl, ht'⟩

theorem Db.insertEvent_eq_some (h : db.insertEvent row = some db') :
    db'.events.rows = db.events.rows ++ [{ row with globalPosition := db.seq + 1 }] ∧
      db'.outbox = db.outbox ∧ db'.uniqueClaims = db.uniqueClaims ∧
      db'.stateCache = db.stateCache ∧ db'.seq = db.seq + 1 := by
  unfold Db.insertEvent at h
  split at h
  · cases h
  · rename_i t ht
    cases h
    exact ⟨(Table.insert_eq_some_iff.1 ht).2, rfl, rfl, rfl, rfl⟩

theorem Db.insertEvent_eq_none_iff :
    db.insertEvent row = none ↔ ∃ a ∈ db.events.rows, a.Clash row := by
  have hclash : (∃ a ∈ db.events.rows, a.Clash { row with globalPosition := db.seq + 1 }) ↔
      ∃ a ∈ db.events.rows, a.Clash row := Iff.rfl
  rw [← hclash, ← Table.insert_eq_none_iff]
  unfold Db.insertEvent
  split <;> simp_all

/-- One round of the loop over the events. -/
theorem appendEvent_ok {v v' : LoopVars} (h : appendEvent D H E p i v ev db = .ok v' db') :
    ∃ row, prepareEvent D H E p i v.prevHash ev = .ok row ∧ v'.prevHash = row.hash.getD [] ∧
      db'.events.rows = db.events.rows ++ [{ row with globalPosition := db.seq + 1 }] ∧
      db'.outbox.rows = db.outbox.rows ++ [⟨p.streamID.tenant, db.seq + 1, ev.eventID⟩] ∧
      db'.uniqueClaims = db.uniqueClaims ∧ db'.stateCache = db.stateCache ∧
      db'.seq = db.seq + 1 := by
  simp only [appendEvent, EStateM.bind_eq_ok, EStateM.ofExcept_eq_ok, EStateM.adaptExcept_eq_ok,
    insertEvent, insertOutbox, statement_eq_ok, EStateM.pure_eq_ok] at h
  -- the row, the insert into `events` from `db` to `db₁`, the insert into `outbox` to `db₂`
  obtain ⟨row, db₀, ⟨hrow, rfl⟩, gp, db₁, ⟨-, h₁⟩, ⟨⟩, db₂, ⟨-, h₂⟩, rfl, rfl⟩ := h
  split at h₁
  · rename_i db₁' hins
    cases h₁
    obtain ⟨he, ho, hc, hs, hq⟩ := Db.insertEvent_eq_some hins
    split at h₂
    · rename_i t ht
      cases h₂
      have hrows := (Table.insert_eq_some_iff.1 ht).2
      exact ⟨row, hrow, rfl, he, by rw [hrows, ho], hc, hs, hq⟩
    · cases h₂
  · cases h₁

/-- The loop over the events. -/
theorem appendEvents_ok {v v' : LoopVars} {evs : List EventToAppend}
    (h : appendEvents D H E p i v evs db = .ok v' db') :
    ∃ rows, Written D H E p i v.prevHash db.seq evs rows ∧
      db'.events.rows = db.events.rows ++ rows ∧
      db'.outbox.rows = db.outbox.rows ++ rows.map EventRow.outboxRow ∧
      db'.uniqueClaims = db.uniqueClaims ∧ db'.stateCache = db.stateCache ∧
      db'.seq = db.seq + evs.length := by
  induction evs generalizing i v db with
  | nil =>
    rw [appendEvents, EStateM.pure_eq_ok] at h
    obtain ⟨rfl, rfl⟩ := h
    exact ⟨[], .nil, by simp, by simp, rfl, rfl, rfl⟩
  | cons ev evs ih =>
    rw [appendEvents, EStateM.bind_eq_ok] at h
    obtain ⟨v₁, db₁, h₁, h₂⟩ := h
    obtain ⟨row, hrow, hv, he, ho, hc, hs, hq⟩ := appendEvent_ok h₁
    obtain ⟨rows, hw, he', ho', hc', hs', hq'⟩ := ih h₂
    have hout : EventRow.outboxRow { row with globalPosition := db.seq + 1 } =
        ⟨p.streamID.tenant, db.seq + 1, ev.eventID⟩ := by
      obtain ⟨_, _, _, _, -, -, -, -, rfl⟩ := prepareEvent_eq_ok.1 hrow
      rfl
    rw [hv, hq] at hw
    refine ⟨_, .cons hrow hw, ?_, ?_, hc'.trans hc, hs'.trans hs, ?_⟩
    · rw [he', he, List.append_assoc]; rfl
    · rw [ho', ho, List.append_assoc, List.map_cons, hout]; rfl
    · rw [hq', hq, List.length_cons]; omega

/-- The optional `state_cache` row. -/
theorem cacheState_ok (h : cacheState D E p db = .ok () db') :
    ∃ t, db' = { db with stateCache := t } ∧ (t = db.stateCache ∧ p.newStateBytes = none ∨
      ∃ b s, p.newStateBytes = some b ∧ D.storeState (some b) = .ok s ∧
        t = db.stateCache.upsert (stateCacheRow D E p s)) := by
  cases hb : p.newStateBytes with
  | none =>
    simp only [cacheState, hb, EStateM.pure_eq_ok] at h
    exact ⟨db.stateCache, h.2.symm, Or.inl ⟨rfl, rfl⟩⟩
  | some b =>
    simp only [cacheState, hb, EStateM.adaptExcept_eq_ok, upsertStateCache, statement_eq_ok] at h
    obtain ⟨-, h⟩ := h
    split at h
    · rename_i s hs
      cases h
      exact ⟨_, rfl, Or.inr ⟨b, s, rfl, hs, rfl⟩⟩
    · cases h

theorem appendBody_ok {r : AppendResult} (hv : p.streamID.Valid) (hne : p.events ≠ [])
    (h : appendBody D H E p db = .ok r db') : ∃ rows, Appended D H E p db db' rows := by
  simp only [appendBody, EStateM.bind_eq_ok, EStateM.adaptExcept_eq_ok, statement_eq_ok,
    EStateM.pure_eq_ok] at h
  -- one database after each part of the transaction
  obtain ⟨⟨⟩, db₁, hpre, ⟨⟩, db₂, hops, prev, db₃, ⟨-, hprev⟩, v, db₄, hev, ⟨⟩, db₅, hc, -,
    rfl⟩ := h
  cases runPreamble_ok hpre
  obtain ⟨hallow, t, rfl, ht⟩ := applyConstraints_ok hops
  cases hprev
  obtain ⟨rows, hw, he, ho, hcl, hs, hq⟩ := appendEvents_ok hev
  obtain ⟨t', rfl, ht'⟩ := cacheState_ok hc
  refine ⟨rows, ⟨hv, hne, hw, he, ho, ?_, hallow, ?_, hq⟩⟩
  · exact (congrArg Table.rows hcl).trans ht
  · rwa [hs] at ht'

/-- **What a successful append does to each table.** -/
theorem append_ok {r : AppendResult} (h : append D H E p db = (.ok r, db')) :
    ∃ rows, Appended D H E p db db' rows := by
  unfold append at h
  split at h
  · cases h
  · rename_i hv
    split at h
    · cases h
    · rename_i hne
      unfold withTx at h
      split at h
      · cases h
      · rename_i a db₁ hb
        split at h
        · cases h
        · cases h
          exact appendBody_ok hv (by simpa using hne) hb

/-- **The version range a successful append returns.** -/
theorem append_versions {r : AppendResult} (h : append D H E p db = (.ok r, db')) :
    r.startVersion = p.expectedVersion + 1 ∧
      r.endVersion = p.expectedVersion + p.events.length := by
  unfold append at h
  split at h
  · cases h
  · split at h
    · cases h
    · unfold withTx at h
      split at h
      · cases h
      · rename_i a db₁ hb
        split at h
        · cases h
        · cases h
          simp only [appendBody, EStateM.bind_eq_ok, EStateM.pure_eq_ok] at hb
          obtain ⟨-, -, -, -, -, -, -, -, -, v, -, -, -, -, -, rfl, -⟩ := hb
          exact ⟨rfl, rfl⟩

end Ok

end EventStore
