import EventStore.Es.Types
import EventStore.Table.Basic

/-!
# The tables of the store

The rows and tables of `adapters/storage/{sqlite,postgres}/migrations` that the append and read
paths use: `events`, `outbox`, `unique_claims` and `state_cache`, with their unique keys, and the
sequence `global_position` is drawn from.

The two databases have the same tables with columns of different types (a timestamp is `TEXT` in
one and `TIMESTAMPTZ` in the other), so rows are written over the types of those columns
(`Columns`).  What a database and its driver make of a value is a `Dialect`, in
`EventStore.Storage.Dialect`.

`Db` carries what the engine guarantees: unique keys hold, and positions increase in the order
rows were inserted and never pass the sequence.
-/

namespace EventStore

/-- The types of the columns that differ between the databases. -/
structure Columns where
  /-- `occurred_at`, `recorded_at`, `updated_at`. -/
  Time : Type
  /-- `actor`. -/
  Actor : Type
  /-- `payload_json`, `encryption_key_refs`. -/
  Json : Type
  /-- `state_cache.state`. -/
  State : Type

variable {κ : Columns}

/-- A row of `events`. -/
structure EventRow (κ : Columns) where
  eventID : UUID
  tenantID : String
  /-- The canonical form of the stream's identity. -/
  streamID : String
  version : ℕ
  globalPosition : ℕ
  typeURL : String
  schemaVersion : ℤ
  occurredAt : κ.Time
  recordedAt : κ.Time
  correlationID : UUID
  causationID : UUID
  commandID : UUID
  actor : κ.Actor
  actorPrincipal : String
  payload : Bytes
  payloadJSON : Option κ.Json
  encryptionKeyRefs : Option κ.Json
  /-- NULL in rows written before the chain was introduced. -/
  hash : Option Bytes
  prevHash : Option Bytes

/-- `UNIQUE (tenant_id, stream_id, version)` and `UNIQUE (tenant_id, event_id)`. -/
def EventRow.Clash (a b : EventRow κ) : Prop :=
  a.tenantID = b.tenantID ∧
    (a.streamID = b.streamID ∧ a.version = b.version ∨ a.eventID = b.eventID)

instance : DecidableRel (EventRow.Clash (κ := κ)) :=
  fun a b => inferInstanceAs (Decidable (a.tenantID = b.tenantID ∧
    (a.streamID = b.streamID ∧ a.version = b.version ∨ a.eventID = b.eventID)))

theorem EventRow.Clash.symm (a b : EventRow κ) (h : a.Clash b) : b.Clash a :=
  ⟨h.1.symm, h.2.imp (fun h => ⟨h.1.symm, h.2.symm⟩) Eq.symm⟩

/-- The row belongs to the stream. -/
def EventRow.inStream (sid : StreamID) (r : EventRow κ) : Bool :=
  r.tenantID == sid.tenant && r.streamID == sid.canonical

/-- A row of `outbox`, as it is enqueued. -/
structure OutboxRow where
  tenantID : String
  globalPosition : ℕ
  eventID : UUID
  deriving DecidableEq, Repr

/-- `PRIMARY KEY (tenant_id, global_position)`. -/
def OutboxRow.Clash (a b : OutboxRow) : Prop :=
  a.tenantID = b.tenantID ∧ a.globalPosition = b.globalPosition

instance : DecidableRel OutboxRow.Clash :=
  fun a b => inferInstanceAs
    (Decidable (a.tenantID = b.tenantID ∧ a.globalPosition = b.globalPosition))

/-- The key of a uniqueness claim. -/
structure ClaimKey where
  tenantID : String
  scope : String
  value : String
  deriving DecidableEq, Repr

/-- A row of `unique_claims`. -/
structure ClaimRow where
  key : ClaimKey
  /-- The canonical form of the stream that holds the claim. -/
  streamID : String
  deriving DecidableEq, Repr

/-- `PRIMARY KEY (tenant_id, scope, value)`. -/
def ClaimRow.Clash (a b : ClaimRow) : Prop := a.key = b.key

instance : DecidableRel ClaimRow.Clash := fun a b => inferInstanceAs (Decidable (a.key = b.key))

/-- A row of `state_cache`. -/
structure StateCacheRow (κ : Columns) where
  tenantID : String
  /-- The canonical form of the stream's identity. -/
  streamID : String
  typeURL : String
  state : κ.State
  version : ℕ
  terminal : Bool
  stateSchemaVersion : ℤ
  updatedAt : κ.Time

/-- `PRIMARY KEY (tenant_id, stream_id)`. -/
def StateCacheRow.Clash (a b : StateCacheRow κ) : Prop :=
  a.tenantID = b.tenantID ∧ a.streamID = b.streamID

instance : DecidableRel (StateCacheRow.Clash (κ := κ)) :=
  fun a b => inferInstanceAs (Decidable (a.tenantID = b.tenantID ∧ a.streamID = b.streamID))

/-- The row belongs to the stream. -/
def StateCacheRow.ofStream (sid : StreamID) (r : StateCacheRow κ) : Bool :=
  r.tenantID == sid.tenant && r.streamID == sid.canonical

/-- The database. -/
structure Db (κ : Columns) where
  events : Table (EventRow κ) EventRow.Clash
  outbox : Table OutboxRow OutboxRow.Clash
  uniqueClaims : Table ClaimRow ClaimRow.Clash
  stateCache : Table (StateCacheRow κ) StateCacheRow.Clash
  /-- The last value drawn: `sqlite_sequence`, or `events_global_position_seq`. -/
  seq : ℕ
  /-- Positions increase in insertion order and do not pass the sequence. -/
  ordered : (events.rows.map EventRow.globalPosition ++ [seq + 1]).Pairwise (· < ·)

namespace Db

/-- The database the migrations leave. -/
def empty : Db κ where
  events := .empty
  outbox := .empty
  uniqueClaims := .empty
  stateCache := .empty
  seq := 0
  ordered := by simp

/-- The database with the sequence moved on to `n`. -/
def advance (db : Db κ) (n : ℕ) : Db κ :=
  { db with
    seq := max db.seq n
    ordered := by
      have h := List.pairwise_append.1 db.ordered
      refine List.pairwise_append.2 ⟨h.1, List.pairwise_singleton _ _, fun a ha b hb => ?_⟩
      have := h.2.2 a ha _ List.mem_cons_self
      rw [List.mem_singleton.1 hb]
      omega }

/-- The rows of a stream in insertion order. -/
def stream (db : Db κ) (sid : StreamID) : List (EventRow κ) :=
  db.events.rows.filter (EventRow.inStream sid)

/-- The same four tables; the sequences may differ. -/
def SameTables (db db' : Db κ) : Prop :=
  db'.events = db.events ∧ db'.outbox = db.outbox ∧ db'.uniqueClaims = db.uniqueClaims ∧
    db'.stateCache = db.stateCache

theorem SameTables.refl (db : Db κ) : db.SameTables db := ⟨rfl, rfl, rfl, rfl⟩

theorem sameTables_advance (db : Db κ) (n : ℕ) : db.SameTables (db.advance n) :=
  ⟨rfl, rfl, rfl, rfl⟩

theorem SameTables.stream_eq {db db' : Db κ} (h : db.SameTables db') (sid : StreamID) :
    db'.stream sid = db.stream sid := by
  simp [stream, h.1]

theorem position_le_seq {db : Db κ} {r : EventRow κ} (h : r ∈ db.events.rows) :
    r.globalPosition ≤ db.seq := by
  have := (List.pairwise_append.1 db.ordered).2.2 _ (List.mem_map_of_mem h) _ List.mem_cons_self
  omega

/-- A row is determined by its position. -/
theorem eq_of_position {db : Db κ} {r r' : EventRow κ} (hr : r ∈ db.events.rows)
    (hr' : r' ∈ db.events.rows) (h : r.globalPosition = r'.globalPosition) : r = r' := by
  have hnodup : (db.events.rows.map EventRow.globalPosition).Nodup :=
    (List.pairwise_append.1 db.ordered).1.imp Nat.ne_of_lt
  exact List.inj_on_of_nodup_map hnodup hr hr' h

/-- Positions increase along the rows of every stream. -/
theorem pairwise_globalPosition_stream (db : Db κ) (sid : StreamID) :
    (db.stream sid).Pairwise fun a b => a.globalPosition < b.globalPosition := by
  have h := (List.pairwise_append.1 db.ordered).1
  exact (List.pairwise_map.1 h).filter _

theorem mem_stream {db : Db κ} {sid : StreamID} {r : EventRow κ} :
    r ∈ db.stream sid ↔
      r ∈ db.events.rows ∧ r.tenantID = sid.tenant ∧ r.streamID = sid.canonical := by
  simp [stream, EventRow.inStream]

/-- No version occurs twice in a stream. -/
theorem nodup_version_stream (db : Db κ) (sid : StreamID) :
    ((db.stream sid).map EventRow.version).Nodup := by
  rw [List.Nodup, List.pairwise_map]
  refine (List.Pairwise.and_mem.1 (db.events.unique.filter (EventRow.inStream sid))).imp ?_
  rintro a b ⟨ha, hb, hab⟩ hv
  have ha' := mem_stream.1 ha
  have hb' := mem_stream.1 hb
  exact hab ⟨ha'.2.1.trans hb'.2.1.symm, Or.inl ⟨ha'.2.2.trans hb'.2.2.symm, hv⟩⟩

end Db

end EventStore
