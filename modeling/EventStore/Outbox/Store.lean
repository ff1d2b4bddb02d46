import EventStore.Storage.Read
import Mathlib.Data.Int.Order.Basic

/-!
# The outbox table

`es.OutboxStore` and the operator actions of `es.OutboxAdmin`, as the two adapters implement them:
`PendingOutbox`, `QuarantinedStreams`, the two marks, `CleanupPublishedOutbox`, and `ReplayDLQ`,
`AbandonDLQ`, `ReplayAllDLQ`.  Each is one statement.

An append inserts the key columns of an outbox row (`OutboxRow`) and leaves the others at their
defaults; the drain and the operators are the ones to change them (`OutboxEntry`).  The table
`db.outbox` of the append path keeps every row ever enqueued, and `OutboxDb.outbox` is what cleanups
have left of it: an `OutboxDb` carries the proof that its entries are those of events, each at most
once and in the order of the events.

The query behind `PendingOutbox` gives out at most one row of a stream, its *head*: the lowest
version that is unpublished and below the threshold of attempts.  The adapters write the rule
differently (a minimum per stream, and `NOT EXISTS`), and they differ in where the tenant is
filtered: by row level security before the limit, or in Go after it.  An `OutboxDialect` collects
these differences.
-/

namespace EventStore

/-- A row of `outbox`. -/
structure OutboxEntry (κ : Columns) extends OutboxRow where
  publishedAt : Option κ.Time
  attempts : ℕ
  lastError : Option Bytes
  nextAttemptAt : Option κ.Time

variable {κ : Columns}

/-- The row with the defaults of the other columns. -/
def OutboxRow.enqueue (o : OutboxRow) : OutboxEntry κ :=
  { o with publishedAt := none, attempts := 0, lastError := none, nextAttemptAt := none }

/-- `tenant_id = ? AND global_position = ?`. -/
def OutboxEntry.hasKey (tenantID : String) (globalPosition : ℕ) (o : OutboxEntry κ) : Bool :=
  o.tenantID == tenantID && o.globalPosition == globalPosition

/-- The database with the live rows of `outbox`. -/
structure OutboxDb (κ : Columns) where
  db : Db κ
  outbox : List (OutboxEntry κ)
  /-- The rows are of events, each at most once, in the order of the events. -/
  enqueued : (outbox.map OutboxEntry.toOutboxRow).Sublist (db.events.rows.map EventRow.outboxRow)

namespace OutboxDb

/-- The database the migrations leave. -/
def empty : OutboxDb κ := ⟨.empty, [], .slnil⟩

/-! ### Appending -/

/-- The rows an append has inserted into `outbox`, from the tables before and after it. -/
def inserted (db db' : Db κ) : List OutboxRow := db'.outbox.rows.drop db.outbox.rows.length

variable {D : Dialect κ} {H : Hasher} {E : Engine}

theorem append_inserted (p : AppendParams) (db : Db κ) :
    ∃ rows, (EventStore.append D H E p db).2.events.rows = db.events.rows ++ rows ∧
      inserted db (EventStore.append D H E p db).2 = rows.map EventRow.outboxRow := by
  rcases hres : EventStore.append D H E p db with ⟨e | r, db'⟩
  · obtain ⟨he, ho, -⟩ := append_error hres
    exact ⟨[], by rw [he, List.append_nil], by rw [inserted, ho, List.drop_length]; rfl⟩
  · obtain ⟨rows, ha⟩ := append_ok hres
    exact ⟨rows, ha.events, by rw [inserted, ha.outbox, List.drop_left]⟩

variable (D H E) in
/-- `Append` with the outbox rows it enqueues. -/
def append (p : AppendParams) (s : OutboxDb κ) : Except Err AppendResult × OutboxDb κ :=
  ((EventStore.append D H E p s.db).1,
    { db := (EventStore.append D H E p s.db).2
      outbox := s.outbox ++
        (inserted s.db (EventStore.append D H E p s.db).2).map OutboxRow.enqueue
      enqueued := by
        obtain ⟨rows, he, hi⟩ := append_inserted (D := D) (H := H) (E := E) p s.db
        have hid : OutboxEntry.toOutboxRow ∘ OutboxRow.enqueue (κ := κ) = id := rfl
        rw [he, hi, List.map_append, List.map_append, List.map_map, hid, List.map_id]
        exact s.enqueued.append (.refl _) })

/-! ### Updates -/

/-- `UPDATE outbox SET ... WHERE ...`. -/
def update (s : OutboxDb κ) (p : OutboxEntry κ → Bool) (f : OutboxEntry κ → OutboxEntry κ)
    (hf : ∀ o, (f o).toOutboxRow = o.toOutboxRow) : OutboxDb κ :=
  { s with
    outbox := s.outbox.map fun o => if p o then f o else o
    enqueued := by
      have hkey : OutboxEntry.toOutboxRow ∘ (fun o => if p o then f o else o) =
          OutboxEntry.toOutboxRow := by
        funext o
        rw [Function.comp_apply]
        split_ifs
        · exact hf o
        · rfl
      rw [List.map_map, hkey]
      exact s.enqueued }

/-- `DELETE FROM outbox WHERE ...`. -/
def delete (s : OutboxDb κ) (p : OutboxEntry κ → Bool) : OutboxDb κ :=
  { s with
    outbox := s.outbox.filter fun o => !p o
    enqueued := (List.filter_sublist.map _).trans s.enqueued }

@[simp] theorem db_update (s : OutboxDb κ) (p : OutboxEntry κ → Bool)
    (f : OutboxEntry κ → OutboxEntry κ) (hf : ∀ o, (f o).toOutboxRow = o.toOutboxRow) :
    (s.update p f hf).db = s.db := rfl

@[simp] theorem db_delete (s : OutboxDb κ) (p : OutboxEntry κ → Bool) :
    (s.delete p).db = s.db := rfl

end OutboxDb

/-! ### Queries -/

/-- A row of `outbox JOIN events`. -/
structure Pending (κ : Columns) where
  entry : OutboxEntry κ
  event : EventRow κ

namespace Pending

/-- The row is unpublished, and below the threshold of attempts. -/
def live (max : ℕ) (x : Pending κ) : Bool :=
  x.entry.publishedAt.isNone && decide (x.entry.attempts < max)

/-- The row is unpublished, and has reached the threshold. -/
def dead (max : ℕ) (x : Pending κ) : Bool :=
  x.entry.publishedAt.isNone && decide (max ≤ x.entry.attempts)

/-- The rows are of one stream. -/
def sameStream (x y : Pending κ) : Bool :=
  x.event.tenantID == y.event.tenantID && x.event.streamID == y.event.streamID

end Pending

/-- The join of the two tables. -/
def OutboxDb.joined (s : OutboxDb κ) : List (Pending κ) :=
  s.outbox.flatMap fun o =>
    (s.db.events.rows.filter fun e => e.tenantID == o.tenantID && e.eventID == o.eventID).map
      (Pending.mk o)

/-- `safeMaxAttempts`: 0 stands for no limit. -/
def safeMaxAttempts (n : ℕ) : ℕ := if n = 0 then 2147483647 else n

/-- `QuarantinedStreams`: tenants and canonical forms. -/
def OutboxDb.quarantinedStreams (s : OutboxDb κ) (tenant : String) (maxAttempts : ℕ) :
    List (String × String) :=
  (s.joined.filter fun x => x.dead (safeMaxAttempts maxAttempts) &&
    (tenant == "" || x.entry.tenantID == tenant)).map fun x =>
      (x.entry.tenantID, x.event.streamID)

/-- An adapter's side of the outbox. -/
structure OutboxDialect (κ : Columns) where
  base : Dialect κ
  /-- `<=` on time columns. -/
  le : κ.Time → κ.Time → Bool
  /-- `<` on time columns. -/
  lt : κ.Time → κ.Time → Bool
  /-- What the SQL function for the current time writes. -/
  sqlNow : Time → κ.Time
  /-- A limit on its way into the query. -/
  limit : ℕ → Except Err ℕ
  /-- The head rule of the query: the joined rows, the threshold, and the row. -/
  head : List (Pending κ) → ℕ → Pending κ → Bool
  /-- Among the rows that are live, the rule picks the ones of the lowest version. -/
  head_iff : ∀ {rows : List (Pending κ)} {max : ℕ} {x : Pending κ}, x ∈ rows → x.live max = true →
    (head rows max x = true ↔
      ∀ y ∈ rows, y.sameStream x = true → y.live max = true → x.event.version ≤ y.event.version)
  /-- The query sees the rows of the tenant only. -/
  tenantInQuery : Bool

/-- `es.OutboxRow`. -/
structure PendingRow where
  envelope : Envelope
  attempts : ℕ

namespace OutboxDialect

variable (Q : OutboxDialect κ)

/-- The row may be tried again. -/
def due (now : Time) (x : Pending κ) : Bool :=
  x.entry.nextAttemptAt.all fun t => Q.le t (Q.base.formatTime now)

/-- The rows `PendingOutboxWithEnvelope` selects from. -/
def visible (tenant : String) (s : OutboxDb κ) : List (Pending κ) :=
  if Q.tenantInQuery ∧ tenant ≠ "" then s.joined.filter fun x => x.entry.tenantID == tenant
  else s.joined

/-- The rows that satisfy the conditions of the query. -/
def heads (tenant : String) (max : ℕ) (now : Time) (s : OutboxDb κ) : List (Pending κ) :=
  (Q.visible tenant s).filter fun x =>
    x.live max && Q.due now x && Q.head (Q.visible tenant s) max x

/-- The rows in the order of their positions. -/
def byPosition (rows : List (Pending κ)) : List (Pending κ) :=
  rows.insertionSort fun x y => x.entry.globalPosition ≤ y.entry.globalPosition

/-- `rowToEnvelopeOutbox`; the query does not select `payload_json`. -/
def rowToEnvelopeOutbox (x : Pending κ) : Except Err Envelope :=
  (rowToEnvelope Q.base x.event).map fun e =>
    { e with
      tenantID := x.entry.tenantID
      eventID := x.entry.eventID
      globalPosition := x.entry.globalPosition
      payloadJSON := none }

/-- A selected row as the adapter returns it. -/
def toPendingRow (x : Pending κ) : Except Err PendingRow :=
  (Q.rowToEnvelopeOutbox x).map (⟨·, x.entry.attempts⟩)

/-- The rows of a page, before they are converted: where the query sees all tenants, the others
are dropped after the limit. -/
def page (tenant : String) (limit max : ℕ) (now : Time) (s : OutboxDb κ) : List (Pending κ) :=
  let rows := (byPosition (Q.heads tenant max now s)).take limit
  if Q.tenantInQuery ∨ tenant = "" then rows else rows.filter fun x => x.entry.tenantID == tenant

/-- `PendingOutbox`; the empty tenant stands for all. -/
def pendingOutbox (tenant : String) (limit maxAttempts : ℕ) (now : Time) (s : OutboxDb κ) :
    Except Err (List PendingRow) := do
  let n ← Q.limit limit
  (Q.page tenant n (safeMaxAttempts maxAttempts) now s).mapM Q.toPendingRow

/-! ### Marks and operator actions -/

/-- `MarkOutboxPublished`. -/
def markOutboxPublished (now : Time) (tenantID : String) (globalPosition : ℕ) (s : OutboxDb κ) :
    OutboxDb κ :=
  s.update (OutboxEntry.hasKey tenantID globalPosition)
    (fun o => { o with publishedAt := some (Q.sqlNow now) }) fun _ => rfl

/-- `MarkOutboxFailed`; the message is cut at 2048 bytes. -/
def markOutboxFailed (tenantID : String) (globalPosition : ℕ) (errMsg : Bytes)
    (nextAttemptAt : Time) (s : OutboxDb κ) : OutboxDb κ :=
  s.update (OutboxEntry.hasKey tenantID globalPosition)
    (fun o => { o with
      attempts := o.attempts + 1
      lastError := some (errMsg.take 2048)
      nextAttemptAt := some (Q.base.formatTime nextAttemptAt) }) fun _ => rfl

/-- The rows `CleanupPublishedOutbox` deletes. -/
def expired (tenantID : String) (olderThan : Time) (o : OutboxEntry κ) : Bool :=
  o.tenantID == tenantID && o.publishedAt.any fun t => Q.lt t (Q.base.formatTime olderThan)

/-- `CleanupPublishedOutbox`. -/
def cleanupPublishedOutbox (tenantID : String) (olderThan : Time) (s : OutboxDb κ) : OutboxDb κ :=
  s.delete (Q.expired tenantID olderThan)

end OutboxDialect

/-- The columns a replay resets. -/
def OutboxEntry.replay (o : OutboxEntry κ) : OutboxEntry κ :=
  { o with attempts := 0, nextAttemptAt := none, lastError := none }

/-- `ReplayDLQ`: any row, published or not. -/
def replayDLQ (tenantID : String) (globalPosition : ℕ) (s : OutboxDb κ) : OutboxDb κ :=
  s.update (OutboxEntry.hasKey tenantID globalPosition) OutboxEntry.replay fun _ => rfl

/-- The rows `ReplayAllDLQ` resets. -/
def OutboxEntry.inDLQ (tenantID : String) (maxAttempts : ℕ) (o : OutboxEntry κ) : Bool :=
  o.tenantID == tenantID && o.publishedAt.isNone &&
    decide (safeMaxAttempts maxAttempts ≤ o.attempts)

/-- `ReplayAllDLQ`. -/
def replayAllDLQ (tenantID : String) (maxAttempts : ℕ) (s : OutboxDb κ) : OutboxDb κ :=
  s.update (OutboxEntry.inDLQ tenantID maxAttempts) OutboxEntry.replay fun _ => rfl

/-- The rows `AbandonDLQ` closes. -/
def OutboxEntry.isOpen (tenantID : String) (globalPosition : ℕ) (o : OutboxEntry κ) : Bool :=
  o.hasKey tenantID globalPosition && o.publishedAt.isNone

/-- `AbandonDLQ`: the row counts as published from now on. -/
def OutboxDialect.abandonDLQ (Q : OutboxDialect κ) (now : Time) (tenantID : String)
    (globalPosition : ℕ) (s : OutboxDb κ) : OutboxDb κ :=
  s.update (OutboxEntry.isOpen tenantID globalPosition)
    (fun o => { o with
      publishedAt := some (Q.sqlNow now)
      lastError := some (o.lastError.getD [] ++ " [abandoned]".toUTF8.data.toList) }) fun _ => rfl

/-! ### The two adapters -/

namespace Sqlite

/-- The `head_versions` of the query: the lowest live version of the stream of `x`. -/
def headVersion (rows : List (Pending κ)) (max : ℕ) (x : Pending κ) : Option ℕ :=
  ((rows.filter fun y => y.sameStream x && y.live max).map fun y => y.event.version).min?

/-- Among the live rows, those of a head version are the ones of the lowest version. -/
theorem headVersion_iff {rows : List (Pending κ)} {max : ℕ} {x : Pending κ} (hx : x ∈ rows)
    (hlive : x.live max = true) :
    (headVersion rows max x == some x.event.version) = true ↔
      ∀ y ∈ rows, y.sameStream x = true → y.live max = true →
        x.event.version ≤ y.event.version := by
  have hself : x.sameStream x = true := by simp [Pending.sameStream]
  rw [beq_iff_eq, headVersion, List.min?_eq_some_iff, List.mem_map]
  constructor
  · rintro ⟨-, hmin⟩ y hy hs hl
    exact hmin _ (List.mem_map_of_mem (List.mem_filter.2 ⟨hy, by rw [hs, hl]; rfl⟩))
  · intro hmin
    refine ⟨⟨x, List.mem_filter.2 ⟨hx, by rw [hself, hlive]; rfl⟩, rfl⟩, fun v hv => ?_⟩
    obtain ⟨y, hy, rfl⟩ := List.mem_map.1 hv
    obtain ⟨hy, hc⟩ := List.mem_filter.1 hy
    obtain ⟨hs, hl⟩ := Bool.and_eq_true_iff.1 hc
    exact hmin y hy hs hl

/-- The outbox of the SQLite adapter: times are compared as texts, and `now` is written by
`strftime`. -/
def outbox {J : Type} (L : Library J) (strftime : Time → String) : OutboxDialect (columns J) where
  base := dialect L
  le s t := decide (s ≤ t)
  lt s t := decide (s < t)
  sqlNow := strftime
  limit := .ok
  head rows max x := headVersion rows max x == some x.event.version
  head_iff := headVersion_iff
  tenantInQuery := false

/-- The outbox of a small library. -/
def smallOutbox : OutboxDialect (columns Bytes) := outbox .small fun _ => ""

end Sqlite

namespace Postgres

/-- The `NOT EXISTS` of the query: no live row of the stream has a lower version. -/
def isHead (rows : List (Pending κ)) (max : ℕ) (x : Pending κ) : Bool :=
  !rows.any fun y => y.sameStream x && decide (y.event.version < x.event.version) && y.live max

/-- No lower version exists if the row is of the lowest one. -/
theorem isHead_iff {rows : List (Pending κ)} {max : ℕ} {x : Pending κ} :
    isHead rows max x = true ↔ ∀ y ∈ rows, y.sameStream x = true → y.live max = true →
      x.event.version ≤ y.event.version := by
  rw [isHead, Bool.not_eq_true', List.any_eq_false]
  refine forall₂_congr fun y _ => ?_
  rw [Bool.not_eq_true, Bool.and_eq_false_iff, Bool.and_eq_false_iff, decide_eq_false_iff_not,
    Nat.not_lt]
  cases y.sameStream x <;> cases y.live max <;> simp

/-- The outbox of the Postgres adapter. -/
def outbox {J : Type} (L : Library J) : OutboxDialect (columns J) where
  base := dialect L
  le s t := decide (s ≤ t)
  lt s t := decide (s < t)
  sqlNow := micros
  limit n := maxRows n
  head := isHead
  head_iff _ _ := isHead_iff
  tenantInQuery := true

end Postgres

/-! ### The join -/

namespace OutboxDb

variable {s : OutboxDb κ} {x y : Pending κ}

/-- Every entry is of an event. -/
theorem exists_event {o : OutboxEntry κ} (h : o ∈ s.outbox) :
    ∃ e ∈ s.db.events.rows, e.outboxRow = o.toOutboxRow :=
  List.mem_map.1 (s.enqueued.subset (List.mem_map_of_mem h))

/-- The join pairs an entry with its event. -/
theorem mem_joined : x ∈ s.joined ↔ x.entry ∈ s.outbox ∧ x.event ∈ s.db.events.rows ∧
    x.event.outboxRow = x.entry.toOutboxRow := by
  obtain ⟨o, e⟩ := x
  simp only [joined, List.mem_flatMap, List.mem_map, List.mem_filter, Bool.and_eq_true, beq_iff_eq,
    Pending.mk.injEq]
  constructor
  · rintro ⟨o', ho, e', ⟨he, ht, hi⟩, rfl, rfl⟩
    obtain ⟨e₁, he₁, hkey⟩ := exists_event ho
    refine ⟨ho, he, ?_⟩
    -- the event of the entry has the same tenant and id, so it is the joined one
    have hsame : e₁ = e' := by
      refine Table.eq_of_clash EventRow.Clash.symm he₁ he ⟨?_, Or.inr ?_⟩
      · rw [ht]
        exact congrArg OutboxRow.tenantID hkey
      · rw [hi]
        exact congrArg OutboxRow.eventID hkey
    rw [← hsame, hkey]
  · rintro ⟨ho, he, hkey⟩
    exact ⟨o, ho, e, ⟨he, congrArg OutboxRow.tenantID hkey, congrArg OutboxRow.eventID hkey⟩, rfl,
      rfl⟩

theorem tenantID_of_mem (h : x ∈ s.joined) : x.entry.tenantID = x.event.tenantID :=
  (congrArg OutboxRow.tenantID (mem_joined.1 h).2.2).symm

theorem globalPosition_of_mem (h : x ∈ s.joined) :
    x.entry.globalPosition = x.event.globalPosition :=
  (congrArg OutboxRow.globalPosition (mem_joined.1 h).2.2).symm

/-- Entries stand in the order of their positions. -/
theorem pairwise_outbox :
    s.outbox.Pairwise fun a b => a.globalPosition < b.globalPosition := by
  have h := (List.pairwise_append.1 s.db.ordered).1
  rw [List.pairwise_map] at h
  have h' : (s.db.events.rows.map EventRow.outboxRow).Pairwise fun a b =>
      a.globalPosition < b.globalPosition := List.pairwise_map.2 h
  have hsub := h'.sublist s.enqueued
  rwa [List.pairwise_map] at hsub

/-- So do the rows of the join. -/
theorem pairwise_joined :
    s.joined.Pairwise fun x y => x.entry.globalPosition < y.entry.globalPosition := by
  refine List.pairwise_flatMap.2 ⟨fun o _ => ?_, ?_⟩
  · -- an entry has one event
    rw [List.pairwise_map]
    refine (List.Pairwise.and_mem.1 (s.db.events.unique.filter _)).imp ?_
    rintro a b ⟨ha, hb, hab⟩
    simp only [List.mem_filter, Bool.and_eq_true, beq_iff_eq] at ha hb
    exact absurd ⟨ha.2.1.trans hb.2.1.symm, Or.inr (ha.2.2.trans hb.2.2.symm)⟩ hab
  · refine pairwise_outbox.imp fun {a b} hab x hx y hy => ?_
    obtain ⟨_, -, rfl⟩ := List.mem_map.1 hx
    obtain ⟨_, -, rfl⟩ := List.mem_map.1 hy
    exact hab

/-- A row of the join is determined by its position. -/
theorem eq_of_position (hx : x ∈ s.joined) (hy : y ∈ s.joined)
    (h : x.entry.globalPosition = y.entry.globalPosition) : x = y := by
  have hnodup : (s.joined.map fun x => x.entry.globalPosition).Nodup :=
    List.pairwise_map.2 (pairwise_joined.imp Nat.ne_of_lt)
  exact List.inj_on_of_nodup_map hnodup hx hy h

/-- The event of a row determines it. -/
theorem eq_of_event (hx : x ∈ s.joined) (hy : y ∈ s.joined) (h : x.event = y.event) : x = y := by
  refine eq_of_position hx hy ?_
  rw [globalPosition_of_mem hx, globalPosition_of_mem hy, h]

/-- Rows of one stream and one version are one row. -/
theorem eq_of_version (hx : x ∈ s.joined) (hy : y ∈ s.joined) (hs : x.sameStream y = true)
    (hv : x.event.version = y.event.version) : x = y := by
  obtain ⟨ht, hstream⟩ := Bool.and_eq_true_iff.1 hs
  refine eq_of_event hx hy (Table.eq_of_clash EventRow.Clash.symm (mem_joined.1 hx).2.1
    (mem_joined.1 hy).2.1 ⟨eq_of_beq ht, Or.inl ⟨eq_of_beq hstream, hv⟩⟩)

/-- An update changes the entries of the join. -/
theorem joined_update (s : OutboxDb κ) (p : OutboxEntry κ → Bool)
    (f : OutboxEntry κ → OutboxEntry κ) (hf : ∀ o, (f o).toOutboxRow = o.toOutboxRow) :
    (s.update p f hf).joined =
      s.joined.map fun x => ⟨if p x.entry then f x.entry else x.entry, x.event⟩ := by
  simp only [joined, update, List.flatMap_map, List.map_flatMap, List.map_map]
  refine List.flatMap_congr fun o _ => ?_
  have hkey : (if p o then f o else o).toOutboxRow = o.toOutboxRow := by
    split_ifs
    · exact hf o
    · rfl
  rw [show (if p o then f o else o).tenantID = o.tenantID from congrArg OutboxRow.tenantID hkey,
    show (if p o then f o else o).eventID = o.eventID from congrArg OutboxRow.eventID hkey]
  rfl

/-- A deletion takes rows out of the join. -/
theorem mem_joined_delete {p : OutboxEntry κ → Bool} :
    x ∈ (s.delete p).joined ↔ x ∈ s.joined ∧ p x.entry = false := by
  rw [mem_joined, mem_joined, delete, List.mem_filter, Bool.not_eq_true']
  exact ⟨fun ⟨⟨ho, hp⟩, he, hk⟩ => ⟨⟨ho, he, hk⟩, hp⟩, fun ⟨⟨ho, he, hk⟩, hp⟩ => ⟨⟨ho, hp⟩, he, hk⟩⟩

/-- An append adds the rows of its events to the join. -/
theorem mem_joined_append {D : Dialect κ} {H : Hasher} {E : Engine} {p : AppendParams}
    {rows : List (EventRow κ)} (h : (s.append D H E p).2.db.events.rows = s.db.events.rows ++ rows)
    (hi : inserted s.db (s.append D H E p).2.db = rows.map EventRow.outboxRow) :
    x ∈ (s.append D H E p).2.joined ↔
      x ∈ s.joined ∨ ∃ r ∈ rows, x = ⟨r.outboxRow.enqueue, r⟩ := by
  have ho : (s.append D H E p).2.outbox =
      s.outbox ++ rows.map fun r => r.outboxRow.enqueue := by
    have : (s.append D H E p).2.outbox =
        s.outbox ++ (inserted s.db (s.append D H E p).2.db).map OutboxRow.enqueue := rfl
    rw [this, hi, List.map_map]
    rfl
  constructor
  · intro hx
    obtain ⟨hxo, hxe, hk⟩ := mem_joined.1 hx
    rw [ho, List.mem_append, List.mem_map] at hxo
    rcases hxo with hxo | ⟨r, hr, hro⟩
    · -- an old entry has its event among the old ones
      obtain ⟨e, he, hek⟩ := exists_event hxo
      have hsame : x.event = e := by
        refine Table.eq_of_clash EventRow.Clash.symm hxe (h ▸ List.mem_append_left _ he)
          ⟨congrArg OutboxRow.tenantID (hk.trans hek.symm), Or.inr ?_⟩
        exact congrArg OutboxRow.eventID (hk.trans hek.symm)
      exact Or.inl (mem_joined.2 ⟨hxo, hsame ▸ he, hk⟩)
    · refine Or.inr ⟨r, hr, ?_⟩
      have hsame : x.event = r := by
        rw [← hro] at hk
        refine Table.eq_of_clash EventRow.Clash.symm hxe (h ▸ List.mem_append_right _ hr)
          ⟨congrArg OutboxRow.tenantID hk, Or.inr (congrArg OutboxRow.eventID hk)⟩
      cases x
      simp_all
  · rintro (hx | ⟨r, hr, rfl⟩)
    · obtain ⟨hxo, hxe, hk⟩ := mem_joined.1 hx
      exact mem_joined.2 ⟨ho ▸ List.mem_append_left _ hxo, h ▸ List.mem_append_left _ hxe, hk⟩
    · exact mem_joined.2 ⟨ho ▸ List.mem_append_right _ (List.mem_map_of_mem hr),
        h ▸ List.mem_append_right _ hr, rfl⟩

end OutboxDb

/-! ### What a page holds -/

namespace OutboxDialect

open OutboxDb

variable {Q : OutboxDialect κ} {s : OutboxDb κ} {tenant : String} {max limit : ℕ} {now : Time}
  {x y : Pending κ}

theorem visible_sublist : (Q.visible tenant s).Sublist s.joined := by
  unfold visible
  split_ifs
  · exact List.filter_sublist
  · exact .refl _

theorem heads_sublist : (Q.heads tenant max now s).Sublist s.joined :=
  List.filter_sublist.trans visible_sublist

/-- The rows come in the order of the positions. -/
theorem byPosition_heads :
    byPosition (Q.heads tenant max now s) = Q.heads tenant max now s :=
  ((pairwise_joined.sublist heads_sublist).imp Nat.le_of_lt).insertionSort_eq

/-- The heads of the streams that may be tried now: their live rows of the lowest version. -/
theorem mem_heads : x ∈ Q.heads tenant max now s ↔ x ∈ Q.visible tenant s ∧ x.live max = true ∧
    Q.due now x = true ∧ ∀ y ∈ s.joined, y.sameStream x = true → y.live max = true →
      x.event.version ≤ y.event.version := by
  rw [heads, List.mem_filter, Bool.and_eq_true, Bool.and_eq_true]
  refine and_congr_right fun hx => ?_
  rw [and_assoc]
  refine and_congr_right fun hl => and_congr_right fun _ => ?_
  rw [Q.head_iff hx hl]
  -- the rows of the stream are visible if one of them is
  refine ⟨fun h y hy hs hl => h y ?_ hs hl, fun h y hy => h y (visible_sublist.subset hy)⟩
  have hxj := visible_sublist.subset hx
  unfold visible at hx ⊢
  split_ifs at hx ⊢ with hc
  · refine List.mem_filter.2 ⟨hy, ?_⟩
    have hxt := (List.mem_filter.1 hx).2
    rw [beq_iff_eq, tenantID_of_mem hxj] at hxt
    rw [beq_iff_eq, tenantID_of_mem hy, ← hxt]
    exact eq_of_beq (Bool.and_eq_true_iff.1 hs).1
  · exact hy

theorem page_sublist : (Q.page tenant limit max now s).Sublist (Q.heads tenant max now s) := by
  unfold page
  rw [byPosition_heads]
  dsimp only
  split_ifs
  · exact List.take_sublist _ _
  · exact List.filter_sublist.trans (List.take_sublist _ _)

/-- A page is of the tenant it was asked for. -/
theorem tenantID_of_mem_page (hx : x ∈ Q.page tenant limit max now s) (ht : tenant ≠ "") :
    x.entry.tenantID = tenant := by
  have hvis := (mem_heads.1 (page_sublist.subset hx)).1
  unfold page at hx
  unfold visible at hvis
  dsimp only at hx
  split_ifs at hx with hc
  · rw [if_pos ⟨hc.resolve_right ht, ht⟩] at hvis
    exact eq_of_beq (List.mem_filter.1 hvis).2
  · exact eq_of_beq (List.mem_filter.1 hx).2

/-- A stream has at most one head. -/
theorem pairwise_heads :
    (Q.heads tenant max now s).Pairwise fun x y => x.sameStream y = false := by
  have hsub : (Q.heads tenant max now s).Sublist s.joined := heads_sublist
  refine (List.Pairwise.and_mem.1 (pairwise_joined.sublist hsub)).imp ?_
  rintro x y ⟨hx, hy, hlt⟩
  by_contra hs
  rw [Bool.not_eq_false] at hs
  obtain ⟨hxv, hxl, -, hxmin⟩ := mem_heads.1 hx
  obtain ⟨hyv, hyl, -, hymin⟩ := mem_heads.1 hy
  have hxj := visible_sublist.subset hxv
  have hyj := visible_sublist.subset hyv
  have hs' : y.sameStream x = true := by
    simp only [Pending.sameStream, Bool.and_eq_true, beq_iff_eq] at hs ⊢
    exact ⟨hs.1.symm, hs.2.symm⟩
  have hv := le_antisymm (hxmin y hyj hs' hyl) (hymin x hxj hs hxl)
  exact hlt.ne (congrArg (fun z => z.entry.globalPosition) (eq_of_version hxj hyj hs hv))

/-- A page has at most one row of a stream. -/
theorem pairwise_page :
    (Q.page tenant limit max now s).Pairwise fun x y => x.sameStream y = false :=
  pairwise_heads.sublist page_sublist

theorem toPendingRow_eq_ok {row : PendingRow} (h : Q.toPendingRow x = .ok row) :
    ∃ sid : StreamID, sid.Valid ∧ sid.tenant = x.event.tenantID ∧
      sid.canonical = x.event.streamID ∧ row.envelope.streamID = sid ∧
      row.envelope.tenantID = x.entry.tenantID ∧
      row.envelope.globalPosition = x.entry.globalPosition ∧
      row.envelope.version = x.event.version ∧ row.attempts = x.entry.attempts := by
  cases he : rowToEnvelope Q.base x.event with
  | error e =>
    rw [toPendingRow, rowToEnvelopeOutbox, he] at h
    cases h
  | ok env =>
    rw [toPendingRow, rowToEnvelopeOutbox, he] at h
    obtain rfl := Except.ok.inj h
    obtain ⟨sid, _, _, _, hsid, -, -, -, rfl⟩ := rowToEnvelope_eq_ok.1 he
    obtain ⟨hv, ht, hc⟩ := parseCanonical_eq_ok hsid
    exact ⟨sid, hv, ht, hc, rfl, rfl, rfl, rfl, rfl⟩

theorem pendingOutbox_eq_ok {limit maxAttempts : ℕ} {found : List PendingRow}
    (h : Q.pendingOutbox tenant limit maxAttempts now s = .ok found) :
    ∃ n, Q.limit limit = .ok n ∧ List.Forall₂ (fun x row => Q.toPendingRow x = .ok row)
      (Q.page tenant n (safeMaxAttempts maxAttempts) now s) found := by
  obtain ⟨n, hn, h⟩ := Except.bind_eq_ok.1 h
  exact ⟨n, hn, Except.mapM_eq_ok_iff.1 h⟩

end OutboxDialect

end EventStore
