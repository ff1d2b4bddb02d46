import EventStore.Storage.Read
import Mathlib.Data.Int.Order.Basic
import Mathlib.Data.String.Basic

/-!
# The state stream in the store

`es.StateStreamStore` and `es.StateStreamAdmin`: a subscriber is served the rows of `state_cache`
that are newer than what it has been delivered.  The table `state_stream_subscribers` holds, for
each subscriber and stream, the last version delivered (its *position*); a stream without a row
there is at position 0.

## Main definitions

* `Position` : a row of `state_stream_subscribers`.
* `Store` : the database with that table, `Store.lastDelivered` and `Store.behind`.
* `Adapter.listStreamsBehind`, `Adapter.advanceStateStreamPosition`,
  `Adapter.resetStateStreamSubscriber`, `Adapter.resetStateStreamSubscriberForStream`.

The two adapters differ in the type of `updated_at`, by which the listing is ordered, in what
becomes of its limit, and in the tenants they can make a call for (`Adapter`).  Rows with the same
time are listed in the order of the table.
-/

namespace EventStore

variable {κ : Columns}

/-- `es.StateEnvelope`. -/
structure StateEnvelope where
  tenantID : String
  /-- The canonical form of the stream's identity. -/
  streamID : String
  typeURL : String
  version : ℕ
  stateSchemaVersion : UInt32
  state : Bytes
  updatedAt : Time
  deriving DecidableEq

namespace StateStream

/-- A stream: its tenant and its canonical form. -/
abbrev StreamKey := String × String

/-- The stream of a delivery. -/
def key (env : StateEnvelope) : StreamKey := (env.tenantID, env.streamID)

/-- The stream of a cached state. -/
def rowKey (r : StateCacheRow κ) : StreamKey := (r.tenantID, r.streamID)

/-- A row of `state_stream_subscribers`. -/
structure Position (κ : Columns) where
  name : String
  tenantID : String
  streamID : String
  lastDeliveredVersion : ℕ
  updatedAt : κ.Time

/-- `PRIMARY KEY (name, tenant_id, stream_id)`. -/
def Position.Clash (a b : Position κ) : Prop :=
  a.name = b.name ∧ a.tenantID = b.tenantID ∧ a.streamID = b.streamID

instance : DecidableRel (Position.Clash (κ := κ)) :=
  fun a b => inferInstanceAs
    (Decidable (a.name = b.name ∧ a.tenantID = b.tenantID ∧ a.streamID = b.streamID))

/-- The row is that of the subscriber and the stream. -/
def Position.isFor (name : String) (k : StreamKey) (p : Position κ) : Bool :=
  p.name == name && p.tenantID == k.1 && p.streamID == k.2

/-- The row is one of the subscriber and the tenant. -/
def Position.ofSubscriber (name tenant : String) (p : Position κ) : Bool :=
  p.name == name && p.tenantID == tenant

/-- The database and the positions of the subscribers. -/
structure Store (κ : Columns) where
  db : Db κ
  positions : Table (Position κ) Position.Clash

namespace Store

/-- What the migrations leave. -/
def empty : Store κ := ⟨.empty, .empty⟩

variable (s : Store κ)

/-- `COALESCE(p.last_delivered_version, 0)` of the left join. -/
def lastDelivered (name : String) (k : StreamKey) : ℕ :=
  ((s.positions.rows.find? (Position.isFor name k)).map Position.lastDeliveredVersion).getD 0

/-- The condition of `ListStreamsBehind`; the empty tenant stands for all. -/
def behind (name tenant : String) (r : StateCacheRow κ) : Bool :=
  decide (s.lastDelivered name (rowKey r) < r.version) && (tenant == "" || r.tenantID == tenant)

end Store

/-- An adapter's side of the state stream. -/
structure Adapter (κ : Columns) where
  base : Dialect κ
  /-- The order of `updated_at`. -/
  le : κ.Time → κ.Time → Bool
  le_total : ∀ t u, le t u = true ∨ le u t = true
  le_trans : ∀ t u v, le t u = true → le u v = true → le t v = true
  /-- A limit on its way into the query. -/
  limit : ℤ → Except Err ℕ
  /-- The error of a call that is made for a tenant; the empty tenant stands for all. -/
  scopeErr : String → Option Err

namespace Adapter

variable (A : Adapter κ)

/-- The query of `ListStreamsBehind`, without its limit. -/
def rowsBehind (name tenant : String) (s : Store κ) : List (StateCacheRow κ) :=
  (s.db.stateCache.rows.filter (s.behind name tenant)).insertionSort
    fun a b => A.le a.updatedAt b.updatedAt = true

/-- A row as the adapter returns it. -/
def toEnvelope (r : StateCacheRow κ) : Except Err StateEnvelope := do
  let updated ← A.base.parseTime r.updatedAt
  return {
    tenantID := r.tenantID
    streamID := r.streamID
    typeURL := r.typeURL
    version := r.version
    stateSchemaVersion := UInt32.ofInt r.stateSchemaVersion
    state := A.base.loadState r.state
    updatedAt := updated }

/-- `ListStreamsBehind`. -/
def listStreamsBehind (name tenant : String) (limit : ℤ) (s : Store κ) :
    Except Err (List StateEnvelope) :=
  match A.scopeErr tenant with
  | some e => .error e
  | none => do
    let n ← A.limit (if limit ≤ 0 then 100 else limit)
    ((A.rowsBehind name tenant s).take n).mapM A.toEnvelope

/-- The row `UpsertStateStreamPosition` leaves: `MAX`, or `GREATEST`, of the version that is there
and the one delivered. -/
def advanced (now : Time) (name : String) (k : StreamKey) (version : ℕ) (s : Store κ) :
    Position κ where
  name := name
  tenantID := k.1
  streamID := k.2
  lastDeliveredVersion := max (s.lastDelivered name k) version
  updatedAt := A.base.formatTime now

/-- `AdvanceStateStreamPosition`. -/
def advanceStateStreamPosition (now : Time) (name : String) (k : StreamKey) (version : ℕ)
    (s : Store κ) : Except Err (Store κ) :=
  match A.scopeErr k.1 with
  | some e => .error e
  | none => .ok { s with positions := s.positions.upsert (A.advanced now name k version s) }

/-- `ResetStateStreamSubscriber`: the number of rows deleted, and the tables.  The empty tenant does
not stand for all here. -/
def resetStateStreamSubscriber (name tenant : String) (s : Store κ) : Except Err (ℕ × Store κ) :=
  match A.scopeErr tenant with
  | some e => .error e
  | none => .ok (s.positions.rows.countP (Position.ofSubscriber name tenant),
      { s with positions := s.positions.delete (Position.ofSubscriber name tenant) })

/-- `ResetStateStreamSubscriberForStream`. -/
def resetStateStreamSubscriberForStream (name : String) (k : StreamKey) (s : Store κ) :
    Except Err (Store κ) :=
  match A.scopeErr k.1 with
  | some e => .error e
  | none => .ok { s with positions := s.positions.delete (Position.isFor name k) }

end Adapter

/-! ### The two adapters -/

/-- The SQLite adapter: times are ordered as texts. -/
def Sqlite.adapter {J : Type} (L : Sqlite.Library J) : Adapter (Sqlite.columns J) where
  base := Sqlite.dialect L
  le t u := decide (t ≤ u)
  le_total t u := (le_total t u).imp decide_eq_true decide_eq_true
  le_trans _ _ _ h h' := decide_eq_true ((of_decide_eq_true h).trans (of_decide_eq_true h'))
  limit n := .ok n.toNat
  scopeErr _ := none

/-- The Postgres adapter: a call for all tenants goes to `admin`, which may return an error. -/
def Postgres.adapter {J : Type} (L : Postgres.Library J) (admin : Option Err) :
    Adapter (Postgres.columns J) where
  base := Postgres.dialect L
  le t u := decide (t ≤ u)
  le_total t u := (Int.le_total t u).imp decide_eq_true decide_eq_true
  le_trans _ _ _ h h' := decide_eq_true ((of_decide_eq_true h).trans (of_decide_eq_true h'))
  limit := Postgres.maxRows
  scopeErr tenant := if tenant = "" then admin else none

/-! ### Positions -/

/-- A search for rows that have been dropped. -/
theorem find?_filter_of_dropped {ρ : Type*} {rows : List ρ} {f g : ρ → Bool}
    (h : ∀ r, g r = true → f r = false) : (rows.filter f).find? g = none := by
  refine List.find?_eq_none.2 fun r hr hg => ?_
  exact Bool.false_ne_true ((h r hg).symm.trans (List.mem_filter.1 hr).2)

/-- A search for rows that have been kept. -/
theorem find?_filter_of_kept {ρ : Type*} {rows : List ρ} {f g : ρ → Bool}
    (h : ∀ r, g r = true → f r = true) : (rows.filter f).find? g = rows.find? g := by
  rw [List.find?_filter]
  congr 1
  funext r
  cases hg : g r with
  | false => simp
  | true => simp [h r hg]

section Positions

variable {A : Adapter κ} {s s' : Store κ} {name name' tenant : String} {k k' : StreamKey}
  {version : ℕ} {now : Time} {p q : Position κ}

theorem Position.isFor_iff :
    p.isFor name k = true ↔ p.name = name ∧ p.tenantID = k.1 ∧ p.streamID = k.2 := by
  rw [isFor, Bool.and_eq_true, Bool.and_eq_true, beq_iff_eq, beq_iff_eq, beq_iff_eq, and_assoc]

/-- A row is for one subscriber and one stream. -/
theorem Position.eq_of_isFor (h : p.isFor name k = true) (h' : p.isFor name' k' = true) :
    name = name' ∧ k = k' := by
  rw [isFor_iff] at h h'
  exact ⟨h.1.symm.trans h'.1, Prod.ext (h.2.1.symm.trans h'.2.1) (h.2.2.symm.trans h'.2.2)⟩

/-- Rows for the same subscriber and stream are in each other's way. -/
theorem Position.isFor_iff_clash (h : q.isFor name k = true) :
    p.isFor name k = true ↔ p.Clash q := by
  rw [isFor_iff] at h ⊢
  rw [Clash, h.1, h.2.1, h.2.2]

/-- An advance moves the position of one subscriber on one stream, and never back. -/
theorem Adapter.lastDelivered_advance
    (h : A.advanceStateStreamPosition now name k version s = .ok s') :
    s'.lastDelivered name' k' =
      if name' = name ∧ k' = k then max (s.lastDelivered name k) version
      else s.lastDelivered name' k' := by
  unfold advanceStateStreamPosition at h
  split at h
  · cases h
  obtain rfl := Except.ok.inj h
  have hnew : (A.advanced now name k version s).isFor name k = true := by
    simp [advanced, Position.isFor]
  rw [Store.lastDelivered, Table.upsert, List.find?_append]
  split_ifs with heq
  · -- the old row has gone
    obtain ⟨rfl, rfl⟩ := heq
    rw [find?_filter_of_dropped, Option.none_or, List.find?_cons_of_pos hnew]
    · rfl
    · intro p hp
      simpa using (Position.isFor_iff_clash hnew).1 hp
  · -- the row looked for is another one
    have hnot : ¬ (A.advanced now name k version s).isFor name' k' = true :=
      fun hf => heq (Position.eq_of_isFor hf hnew)
    rw [find?_filter_of_kept, List.find?_cons_of_neg hnot, List.find?_nil, Option.or_none]
    · rfl
    · intro p hp
      have hclash : ¬ p.Clash (A.advanced now name k version s) := fun hc =>
        heq (Position.eq_of_isFor hp ((Position.isFor_iff_clash hnew).2 hc))
      simpa using hclash

theorem Adapter.db_advance
    (h : A.advanceStateStreamPosition now name k version s = .ok s') : s'.db = s.db := by
  unfold advanceStateStreamPosition at h
  split at h
  · cases h
  · exact (Except.ok.inj h) ▸ rfl

/-- A deletion takes a position back to 0, or leaves it as it is. -/
theorem Store.lastDelivered_delete {f : Position κ → Bool} {del : Prop} [Decidable del]
    (hf : ∀ p : Position κ, p.isFor name k = true → (f p = true ↔ del)) :
    Store.lastDelivered { s with positions := s.positions.delete f } name k =
      if del then 0 else s.lastDelivered name k := by
  rw [lastDelivered, Table.rows_delete]
  split_ifs with hdel
  · rw [find?_filter_of_dropped]
    · rfl
    · intro p hp
      rw [(hf p hp).2 hdel]
      rfl
  · rw [find?_filter_of_kept]
    · rfl
    · intro p hp
      have hnot : ¬ f p = true := fun h => hdel ((hf p hp).1 h)
      rw [Bool.not_eq_true] at hnot
      rw [hnot]
      rfl

/-- A reset of a subscriber takes back the positions of one tenant. -/
theorem Adapter.lastDelivered_reset {deleted : ℕ}
    (h : A.resetStateStreamSubscriber name tenant s = .ok (deleted, s')) :
    s'.lastDelivered name' k =
      if name' = name ∧ k.1 = tenant then 0 else s.lastDelivered name' k := by
  unfold resetStateStreamSubscriber at h
  split at h
  · cases h
  obtain ⟨-, rfl⟩ := Prod.mk.inj (Except.ok.inj h)
  refine Store.lastDelivered_delete fun p hp => ?_
  rw [Position.isFor_iff] at hp
  rw [Position.ofSubscriber, Bool.and_eq_true, beq_iff_eq, beq_iff_eq, hp.1, hp.2.1]

theorem Adapter.db_reset {deleted : ℕ}
    (h : A.resetStateStreamSubscriber name tenant s = .ok (deleted, s')) : s'.db = s.db := by
  unfold resetStateStreamSubscriber at h
  split at h
  · cases h
  · obtain ⟨-, rfl⟩ := Prod.mk.inj (Except.ok.inj h)
    rfl

/-- A reset of one stream takes back its position. -/
theorem Adapter.lastDelivered_resetForStream
    (h : A.resetStateStreamSubscriberForStream name k s = .ok s') :
    s'.lastDelivered name' k' =
      if name' = name ∧ k' = k then 0 else s.lastDelivered name' k' := by
  unfold resetStateStreamSubscriberForStream at h
  split at h
  · cases h
  obtain rfl := Except.ok.inj h
  refine Store.lastDelivered_delete fun p hp => ⟨fun hp' => Position.eq_of_isFor hp hp', ?_⟩
  rintro ⟨rfl, rfl⟩
  exact hp

theorem Adapter.db_resetForStream
    (h : A.resetStateStreamSubscriberForStream name k s = .ok s') : s'.db = s.db := by
  unfold resetStateStreamSubscriberForStream at h
  split at h
  · cases h
  · exact (Except.ok.inj h) ▸ rfl

end Positions

/-! ### The listing -/

section Listing

variable {A : Adapter κ} {s : Store κ} {name tenant : String} {r : StateCacheRow κ}
  {env : StateEnvelope}

theorem Store.behind_iff : s.behind name tenant r = true ↔
    s.lastDelivered name (rowKey r) < r.version ∧ (tenant = "" ∨ r.tenantID = tenant) := by
  rw [behind, Bool.and_eq_true, Bool.or_eq_true, decide_eq_true_iff, beq_iff_eq, beq_iff_eq]

theorem Adapter.mem_rowsBehind : r ∈ A.rowsBehind name tenant s ↔
    r ∈ s.db.stateCache.rows ∧ s.behind name tenant r = true := by
  rw [rowsBehind, List.mem_insertionSort, List.mem_filter]

theorem Adapter.toEnvelope_eq_ok : A.toEnvelope r = .ok env ↔
    ∃ t, A.base.parseTime r.updatedAt = .ok t ∧
      env = ⟨r.tenantID, r.streamID, r.typeURL, r.version, UInt32.ofInt r.stateSchemaVersion,
        A.base.loadState r.state, t⟩ := by
  rw [toEnvelope, Except.bind_eq_ok]
  exact exists_congr fun t => and_congr_right fun _ =>
    ⟨fun h => (Except.ok.inj h).symm, fun h => congrArg Except.ok h.symm⟩

/-- What a listing returns. -/
theorem Adapter.listStreamsBehind_eq_ok {limit : ℤ} {envs : List StateEnvelope} :
    A.listStreamsBehind name tenant limit s = .ok envs ↔
      A.scopeErr tenant = none ∧ ∃ n, A.limit (if limit ≤ 0 then 100 else limit) = .ok n ∧
        List.Forall₂ (fun r env => A.toEnvelope r = .ok env)
          ((A.rowsBehind name tenant s).take n) envs := by
  unfold listStreamsBehind
  split
  · rename_i e he
    simp [he]
  · rename_i he
    simp only [he, true_and, Except.bind_eq_ok, Except.mapM_eq_ok_iff]

end Listing

end StateStream

end EventStore
