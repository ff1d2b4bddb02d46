import EventStore.Storage.Versions

/-!
# Reading the store

`ReadStream`, `ReadAll`, `ReadAllForTenant` and `GetState` of the two adapters, with the
conversion of a row into an envelope (`rowToEnvelope`).

A read is a single statement, so it sees the tables of one moment.  `readStream_eq_ok` says what a
read of a dense stream returns: the rows after `fromVersion`, in the order they were inserted.
-/

namespace EventStore

variable {κ : Columns} (D : Dialect κ)

/-- `rowToEnvelope`. -/
def rowToEnvelope (r : EventRow κ) : Except Err Envelope := do
  let quoted := r.streamID.quote
  let sid ← (parseCanonical r.tenantID r.streamID).mapError (.wrap s!"parse stream id {quoted}")
  let actor ← D.decodeActor r.actor
  let occurred ← (D.parseTime r.occurredAt).mapError (.wrap "occurred_at")
  let recorded ← (D.parseTime r.recordedAt).mapError (.wrap "recorded_at")
  return {
    eventID := r.eventID
    tenantID := r.tenantID
    streamID := sid
    version := r.version
    globalPosition := r.globalPosition
    typeURL := r.typeURL
    schemaVersion := UInt32.ofInt r.schemaVersion
    occurredAt := occurred
    recordedAt := recorded
    correlationID := r.correlationID
    causationID := r.causationID
    commandID := r.commandID
    actor := actor
    payload := r.payload
    payloadJSON := D.loadJSON r.payloadJSON
    keyRefs := D.loadJSON r.encryptionKeyRefs
    hash := r.hash.getD []
    prevHash := r.prevHash.getD [] }

/-- `collect`. -/
def collect (rows : List (EventRow κ)) : Except Err (List Envelope) := rows.mapM (rowToEnvelope D)

/-- `ReadStream`: the events of a stream with a version above `fromVersion`. -/
def readStream (db : Db κ) : StreamReader := fun sid fromVersion => do
  sid.validate
  collect D (db.events.select (fun r => r.inStream sid && decide (fromVersion < r.version))
    EventRow.version)

/-- `ReadAll`: at most `limit` events with a position above `fromPosition`. -/
def readAll (db : Db κ) (fromPosition limit : ℕ) : Except Err (List Envelope) :=
  collect D ((db.events.select (fun r => decide (fromPosition < r.globalPosition))
    EventRow.globalPosition).take limit)

/-- `ReadAllForTenant`. -/
def readAllForTenant (db : Db κ) (tenant : String) (fromPosition limit : ℕ) :
    Except Err (List Envelope) :=
  collect D ((db.events.select
    (fun r => r.tenantID == tenant && decide (fromPosition < r.globalPosition))
    EventRow.globalPosition).take limit)

/-- `es.StateCacheRow`. -/
structure CachedState where
  tenantID : String
  /-- The canonical form of the stream's identity. -/
  streamID : String
  typeURL : String
  state : Option Bytes
  version : ℕ
  terminal : Bool
  stateSchemaVersion : UInt32
  updatedAt : Time

/-- The row of `state_cache` that belongs to a stream. -/
def Db.cachedRow (db : Db κ) (sid : StreamID) : Option (StateCacheRow κ) :=
  db.stateCache.rows.find? (StateCacheRow.ofStream sid)

/-- `GetState`. -/
def getState (db : Db κ) (sid : StreamID) : Except Err CachedState :=
  match db.cachedRow sid with
  | none => .error (.sentinel .stateNotFound)
  | some row => do
    let updated ← D.parseTime row.updatedAt
    return {
      tenantID := sid.tenant
      streamID := sid.canonical
      typeURL := row.typeURL
      state := some (D.loadState row.state)
      version := row.version
      terminal := row.terminal
      stateSchemaVersion := UInt32.ofInt row.stateSchemaVersion
      updatedAt := updated }

/-- `int32(limit)` on its way into a `LIMIT`, which the Postgres engine refuses when it is
negative. -/
def Postgres.maxRows (limit : ℤ) : Except Err ℕ :=
  let n := Int.bmod limit (2 ^ 32)
  if n < 0 then .error (.text "LIMIT must not be negative") else .ok n.toNat

variable {D}

/-! ### What a read returns -/

theorem rowToEnvelope_eq_ok {r : EventRow κ} {e : Envelope} :
    rowToEnvelope D r = .ok e ↔ ∃ sid actor occurred recorded,
      parseCanonical r.tenantID r.streamID = .ok sid ∧ D.decodeActor r.actor = .ok actor ∧
      D.parseTime r.occurredAt = .ok occurred ∧ D.parseTime r.recordedAt = .ok recorded ∧
      e = ⟨r.eventID, r.tenantID, sid, r.version, r.globalPosition, r.typeURL,
        UInt32.ofInt r.schemaVersion, occurred, recorded, r.correlationID, r.causationID,
        r.commandID, actor, r.payload, D.loadJSON r.payloadJSON, D.loadJSON r.encryptionKeyRefs,
        r.hash.getD [], r.prevHash.getD []⟩ := by
  simp only [rowToEnvelope, Except.bind_eq_ok, Except.mapError_eq_ok]
  constructor
  · rintro ⟨sid, hsid, actor, hactor, occ, hocc, rec, hrec, h⟩
    exact ⟨sid, actor, occ, rec, hsid, hactor, hocc, hrec, (Except.ok.inj h).symm⟩
  · rintro ⟨sid, actor, occ, rec, hsid, hactor, hocc, hrec, rfl⟩
    exact ⟨sid, hsid, actor, hactor, occ, hocc, rec, hrec, rfl⟩

theorem collect_eq_ok {rows : List (EventRow κ)} {envs : List Envelope} :
    collect D rows = .ok envs ↔ List.Forall₂ (fun r e => rowToEnvelope D r = .ok e) rows envs :=
  Except.mapM_eq_ok_iff

/-- The row is read for the tenant; the empty tenant stands for all. -/
def EventRow.inScope (tenant : String) (r : EventRow κ) : Bool :=
  tenant == "" || r.tenantID == tenant

/-- The rows read for a tenant, in the order of their positions. -/
def Db.scope (db : Db κ) (tenant : String) : List (EventRow κ) :=
  db.events.rows.filter (EventRow.inScope tenant)

theorem Db.pairwise_scope (db : Db κ) (tenant : String) :
    (db.scope tenant).Pairwise fun a b => a.globalPosition < b.globalPosition :=
  (List.pairwise_map.1 (List.pairwise_append.1 db.ordered).1).filter _

/-- What a page of a tenant holds. -/
theorem readAll_scope_eq_ok {db : Db κ} {tenant : String} {cursor limit : ℕ}
    {envs : List Envelope} :
    (if tenant = "" then readAll D db cursor limit
      else readAllForTenant D db tenant cursor limit) = .ok envs ↔
      List.Forall₂ (fun r e => rowToEnvelope D r = .ok e)
        (((db.scope tenant).filter fun r => decide (cursor < r.globalPosition)).take limit)
        envs := by
  -- the table is in the order of the positions, so sorting a selection changes nothing
  have hsel : ∀ p : EventRow κ → Bool, db.events.select p EventRow.globalPosition =
      db.events.rows.filter p := fun p =>
    Table.select_eq_filter (((List.pairwise_map.1 (List.pairwise_append.1 db.ordered).1).filter
      p).imp Nat.le_of_lt)
  unfold readAll readAllForTenant Db.scope
  rw [List.filter_filter]
  split_ifs with ht
  · rw [collect_eq_ok, hsel]
    simp [EventRow.inScope, ht]
  · have ht' : (tenant == "") = false := beq_false_of_ne ht
    rw [collect_eq_ok, hsel]
    simp [EventRow.inScope, ht', Bool.and_comm]

/-- In a list numbered `a + 1, a + 2, ...` the elements after the `v`-th are those with a number
above `v + a`. -/
theorem filter_eq_drop {α : Type*} {f : α → ℕ} {l : List α} {a : ℕ} (v : ℕ)
    (h : l.map f = List.range' (a + 1) l.length) :
    l.filter (fun x => decide (v + a < f x)) = l.drop v := by
  induction l generalizing a v with
  | nil => simp
  | cons x l ih =>
    rw [List.map_cons, List.length_cons, List.range'_succ] at h
    obtain ⟨hx, hl⟩ := List.cons.inj h
    -- with nothing to drop all numbers are above `a`, otherwise the first element goes
    cases v with
    | zero =>
      rw [List.drop_zero, List.filter_eq_self]
      intro y hy
      have := List.mem_map_of_mem (f := f) hy
      rw [List.map_cons, h, List.mem_cons, List.mem_range'_1] at this
      exact decide_eq_true (by omega)
    | succ v =>
      rw [List.filter_cons_of_neg (by rw [decide_eq_true_eq, hx]; omega), List.drop_succ_cons,
        ← ih (a := a + 1) v hl]
      congr 1
      funext y
      congr 2
      omega

/-- The rows of a dense stream after a version are its rows from that index on. -/
theorem Db.Dense.select_after {db : Db κ} {sid : StreamID} (h : db.Dense sid) (v : ℕ) :
    db.events.select (fun r => r.inStream sid && decide (v < r.version)) EventRow.version =
      (db.stream sid).drop v := by
  have hfil : db.events.rows.filter (fun r => r.inStream sid && decide (v < r.version)) =
      (db.stream sid).filter fun r => decide (v < r.version) := by
    rw [Db.stream, List.filter_filter]
    exact congrArg (List.filter · _) (funext fun r => Bool.and_comm ..)
  have hdrop : (db.stream sid).filter (fun r => decide (v < r.version)) = (db.stream sid).drop v :=
    filter_eq_drop (a := 0) v h
  rw [Table.select_eq_filter, hfil, hdrop]
  -- the rows are in the order of the versions already
  rw [hfil]
  have : (List.range' 1 (db.stream sid).length).Pairwise (· ≤ ·) := List.pairwise_le_range'
  rw [← h, List.pairwise_map] at this
  exact this.filter _

theorem readStream_eq_ok {db : Db κ} {sid : StreamID} {v : ℕ} {envs : List Envelope}
    (h : db.Dense sid) : readStream D db sid v = .ok envs ↔ sid.Valid ∧
      List.Forall₂ (fun r e => rowToEnvelope D r = .ok e) ((db.stream sid).drop v) envs := by
  rw [readStream, Except.bind_eq_ok, h.select_after, collect_eq_ok]
  exact ⟨fun ⟨⟨⟩, hv, hc⟩ => ⟨hv, hc⟩, fun ⟨hv, hc⟩ => ⟨⟨⟩, hv, hc⟩⟩

/-- What is read from the cache is the row of the stream. -/
theorem getState_ok {db : Db κ} {sid : StreamID} {row : CachedState}
    (h : getState D db sid = .ok row) :
    ∃ r, db.cachedRow sid = some r ∧ row.version = r.version ∧
      row.state = some (D.loadState r.state) ∧
      row.stateSchemaVersion = UInt32.ofInt r.stateSchemaVersion := by
  unfold getState at h
  split at h
  · cases h
  · rename_i r hr
    obtain ⟨t, -, h⟩ := Except.bind_eq_ok.1 h
    obtain rfl := Except.ok.inj h
    exact ⟨r, hr, rfl, rfl, rfl⟩

theorem Db.cachedRow_eq_some {db : Db κ} {sid : StreamID} {r : StateCacheRow κ}
    (h : db.cachedRow sid = some r) : r ∈ db.stateCache.rows ∧ r.ofStream sid = true :=
  ⟨List.mem_of_find?_eq_some h, List.find?_some h⟩

end EventStore
