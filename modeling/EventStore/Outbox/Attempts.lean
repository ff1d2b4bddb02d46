import EventStore.Outbox.Order
import Mathlib.Data.List.Perm.Subperm

/-!
# What a Run attempts

`Drain.Run`, with everything that can go wrong on the way: statements fail, a text does
not fit into its column, a transaction cannot be opened for a tenant, the context ends, and the
publisher answers as it likes, also differently each time it is called.

A row that `Publish` has been called on is `Spent`: it is published, or it has used up its
attempts, or its stream is halted for the rest of the Run.  In each case it is not taken again, so

* `run_once` : **every Run ends after at most one batch more than there are rows, and has called
  `Publish` at most once on each.**
-/

namespace EventStore

variable {κ : Columns}

/-- A dialect with the errors that are an adapter's own. -/
structure OutboxAdapter (κ : Columns) extends OutboxDialect κ where
  /-- The error of a call that is made for one tenant. -/
  scopeErr : String → Option Err
  /-- The error of writing a text to `last_error`. -/
  textErr : Bytes → Option Err

/-- The SQLite adapter takes any tenant and any text. -/
def Sqlite.adapter {J : Type} (L : Sqlite.Library J) (strftime : Time → String) :
    OutboxAdapter (Sqlite.columns J) :=
  { Sqlite.outbox L strftime with
    scopeErr := fun _ => none
    textErr := fun _ => none }

namespace Postgres

/-- A text column takes what is valid UTF-8 and has no zero byte. -/
def TakesText (text : Bytes) : Prop := (ByteArray.mk text.toArray).IsValidUTF8 ∧ 0 ∉ text

instance (text : Bytes) : Decidable (TakesText text) := instDecidableAnd

/-- The Postgres adapter; the error of `withTenantTx` for the empty tenant, and that of the engine
for a text it does not take. -/
def adapter {J : Type} (L : Library J) : OutboxAdapter (columns J) :=
  { outbox L with
    scopeErr := fun tenantID =>
      if tenantID = "" then some (.text "postgres: tenant id required (ADR 0007)") else none
    textErr := fun text =>
      if TakesText text then none
      else some (.text "invalid byte sequence for encoding UTF8 (SQLSTATE 22021)") }

end Postgres

namespace OutboxAdapter

variable (A : OutboxAdapter κ)

/-- `MarkOutboxFailed`, with the error of its statement if this fails. -/
def markFailed (fault : Option Err) (tenantID : String) (globalPosition : ℕ) (errMsg : Bytes)
    (nextAttemptAt : Time) (s : OutboxDb κ) : Except Err (OutboxDb κ) :=
  match ((A.scopeErr tenantID).or fault).or (A.textErr (errMsg.take 2048)) with
  | some e => .error e
  | none => .ok (A.markOutboxFailed tenantID globalPosition errMsg nextAttemptAt s)

/-- `MarkOutboxPublished`. -/
def markPublished (fault : Option Err) (now : Time) (tenantID : String) (globalPosition : ℕ)
    (s : OutboxDb κ) : Except Err (OutboxDb κ) :=
  match (A.scopeErr tenantID).or fault with
  | some e => .error e
  | none => .ok (A.markOutboxPublished now tenantID globalPosition s)

/-- `CleanupPublishedOutbox`. -/
def cleanupPublished (fault : Option Err) (tenantID : String) (olderThan : Time)
    (s : OutboxDb κ) : Except Err (OutboxDb κ) :=
  match (A.scopeErr tenantID).or fault with
  | some e => .error e
  | none => .ok (A.cleanupPublishedOutbox tenantID olderThan s)

end OutboxAdapter

/-! ### The rows of a page -/

namespace Pending

/-- The stream of a row: its tenant and its canonical form. -/
def stream (x : Pending κ) : String × String := (x.event.tenantID, x.event.streamID)

/-- The position of a row. -/
def position (x : Pending κ) : ℕ := x.entry.globalPosition

end Pending

namespace OutboxDb

variable {s : OutboxDb κ} {x y : Pending κ} {f : OutboxEntry κ → OutboxEntry κ}
  {hf : ∀ o, (f o).toOutboxRow = o.toOutboxRow}

/-- A statement for one row changes that row. -/
theorem mem_joined_update_key (hx : x ∈ s.joined) :
    y ∈ (s.update (OutboxEntry.hasKey x.entry.tenantID x.entry.globalPosition) f hf).joined ↔
      y = ⟨f x.entry, x.event⟩ ∨ y ∈ s.joined ∧ y.position ≠ x.position := by
  have hkey : ∀ z ∈ s.joined, (z.entry.hasKey x.entry.tenantID x.entry.globalPosition = true ↔
      z.position = x.position) := by
    intro z hz
    rw [OutboxEntry.hasKey, Bool.and_eq_true, beq_iff_eq, beq_iff_eq]
    refine ⟨fun h => h.2, fun h => ?_⟩
    obtain rfl := eq_of_position hz hx h
    exact ⟨rfl, rfl⟩
  rw [joined_update, List.mem_map]
  constructor
  · rintro ⟨z, hz, rfl⟩
    split_ifs with hk
    · obtain rfl := eq_of_position hz hx ((hkey z hz).1 hk)
      exact Or.inl rfl
    · exact Or.inr ⟨hz, fun hp => hk ((hkey z hz).2 hp)⟩
  · rintro (rfl | ⟨hy, hp⟩)
    · exact ⟨x, hx, by rw [if_pos ((hkey x hx).2 rfl)]⟩
    · exact ⟨y, hy, by rw [if_neg fun h => hp ((hkey y hy).1 h)]⟩

end OutboxDb

namespace Drain

/-- The row after a failure has been recorded. -/
def failed (d : Drain) (Q : OutboxDialect κ) (now : Time) (errMsg : Bytes) (x : Pending κ) :
    Pending κ :=
  ⟨{ x.entry with
    attempts := x.entry.attempts + 1
    lastError := some (errMsg.take 2048)
    nextAttemptAt := some (Q.base.formatTime
      (d.computeNextAttemptAt now (x.entry.attempts + 1))) }, x.event⟩

/-- The Run takes rows of the stream: it is of the shard, and not paused. -/
def serves (d : Drain) (m : Memory) (st : String × String) : Bool :=
  let key := quarantineKey st.1 st.2
  (d.inShard key).toOption == some true && !(m.quarantined.contains key || m.halted.contains key)

section Rows

variable {d : Drain} {Q : OutboxDialect κ} {m : Memory} {s : OutboxDb κ} {st : String × String}
  {x : Pending κ} {row : PendingRow}

/-- Whether a row is taken is a matter of its stream. -/
theorem serves_of_takes {taken : Bool} (hkey : row.key = quarantineKey st.1 st.2)
    (h : d.takes m row = .ok taken) : d.serves m st = taken := by
  unfold takes at h
  unfold serves
  dsimp only
  rw [hkey] at h
  cases hin : d.inShard (quarantineKey st.1 st.2) with
  | error e =>
    rw [hin] at h
    cases h
  | ok own =>
    rw [hin] at h
    obtain rfl := Except.ok.inj h
    cases own <;> rfl

/-- The key of the row of a stream. -/
theorem key_of_toPendingRow (hx : x ∈ s.joined) (hrow : Q.toPendingRow x = .ok row) :
    row.key = quarantineKey x.stream.1 x.stream.2 :=
  (PendingRow.of_toPendingRow hx hrow).2.symm

/-- A publication is a statement for one row. -/
theorem recordPublish_eq {t : Time} (hrow : Q.toPendingRow x = .ok row) :
    recordPublish Q t row s =
      s.update (OutboxEntry.hasKey x.entry.tenantID x.entry.globalPosition)
        (fun o => { o with publishedAt := some (Q.sqlNow t) }) fun _ => rfl := by
  obtain ⟨-, -, -, -, -, ht, hg, -, -⟩ := OutboxDialect.toPendingRow_eq_ok hrow
  rw [recordPublish, ht, hg]
  rfl

/-- So is a failure. -/
theorem recordFailure_eq {t : Time} {errMsg : Bytes} (hrow : Q.toPendingRow x = .ok row) :
    d.recordFailure Q t row errMsg s =
      s.update (OutboxEntry.hasKey x.entry.tenantID x.entry.globalPosition)
        (fun o => { o with
          attempts := o.attempts + 1
          lastError := some (errMsg.take 2048)
          nextAttemptAt := some (Q.base.formatTime
            (d.computeNextAttemptAt t (x.entry.attempts + 1))) }) fun _ => rfl := by
  obtain ⟨-, -, -, -, -, ht, hg, -, ha⟩ := OutboxDialect.toPendingRow_eq_ok hrow
  rw [recordFailure, ht, hg, ha]
  rfl

/-- A row that has used up its attempts is not live any more. -/
theorem filter_failed_of_crossed {t : Time} {errMsg : Bytes} (hrow : Q.toPendingRow x = .ok row)
    (hc : d.crossedDLQ row = true) :
    [d.failed Q t errMsg x].filter (Pending.live (safeMaxAttempts d.maxAttempts)) = [] := by
  obtain ⟨-, -, -, -, -, -, -, -, ha⟩ := OutboxDialect.toPendingRow_eq_ok hrow
  obtain ⟨hpos, hle⟩ := Bool.and_eq_true_iff.1 hc
  have hlt := of_decide_eq_true hle
  rw [ha] at hlt
  rw [List.filter_eq_nil_iff]
  intro y hy
  obtain rfl := List.mem_singleton.1 hy
  rw [safeMaxAttempts_of_pos (of_decide_eq_true hpos), Pending.live, Bool.and_eq_true,
    decide_eq_true_eq]
  exact fun h => Nat.not_lt.2 hlt h.2

end Rows

/-- The state in which the loop over a page begins. -/
def Progress.turned (p : Progress κ) : Progress κ :=
  { p with mem := { p.mem with anyProcessed := false }, tick := p.tick + 1 }

/-- The progress a Run begins with. -/
def begun (d : Drain) (s : OutboxDb κ) : Progress κ := ⟨s, d.start s, 0, []⟩

/-! ### A Run among faults -/

/-- The calls of a Run to the store; pages and marks by the readings of the clock before them. -/
inductive Call where
  | quarantined
  | pending (tick : ℕ)
  | mark (tick : ℕ)
  | cleanup

/-- What a Run meets. -/
structure World where
  /-- The publisher; what it returns may depend on the rows it has been called on before. -/
  publish : List PendingRow → Publisher
  clock : ℕ → Time
  /-- `ctx.Err()` is not nil. -/
  cancelled : ℕ → Bool
  /-- The error of a call, if it fails. -/
  fault : Call → Option Err

/-- How a Run comes to its end. -/
inductive Stop where
  /-- It returns an error. -/
  | failed (e : Err)
  /-- The context has ended. -/
  | cancelled
  /-- A batch had nothing to do. -/
  | drained
  deriving DecidableEq

section Run

variable (d : Drain) (A : OutboxAdapter κ) (w : World)

/-- One round of the loop of `runBatch`: the state, and the error the Run returns, if it does. -/
def tryRow (p : Progress κ) (row : PendingRow) : Progress κ × Option Err :=
  match d.takes p.mem row with
  | .error e => (p, some e)
  | .ok false => (p, none)
  | .ok true =>
    let called : Progress κ := { p with tick := p.tick + 1, calls := p.calls ++ [row] }
    match w.publish p.calls row.envelope with
    | some errMsg =>
      match A.markFailed (w.fault (.mark p.tick)) row.envelope.tenantID row.envelope.globalPosition
          errMsg (d.computeNextAttemptAt (w.clock p.tick) (row.attempts + 1)) p.store with
      | .error e => (called, some (.wrap "outbox: mark failed" e))
      | .ok s => ({ called with store := s, mem := d.afterFailure p.mem row }, none)
    | none =>
      match A.markPublished (w.fault (.mark p.tick)) (w.clock p.tick) row.envelope.tenantID
          row.envelope.globalPosition p.store with
      | .error e => (called, some (.wrap "outbox: mark published" e))
      | .ok s => ({ called with store := s, mem := afterPublish p.mem }, none)

/-- The loop of `runBatch`. -/
def tryRows : List PendingRow → Progress κ → Progress κ × Option Err
  | [], p => (p, none)
  | row :: rows, p =>
    match d.tryRow A w p row with
    | (p', some e) => (p', some e)
    | (p', none) => tryRows rows p'

/-- `PendingOutbox`. -/
def readPage (p : Progress κ) : Except Err (List PendingRow) :=
  match w.fault (.pending p.tick) with
  | some e => .error e
  | none => A.pendingOutbox d.tenant d.pageSize d.maxAttempts (w.clock p.tick) p.store

/-- `runBatch`. -/
def tryBatch (p : Progress κ) : Progress κ × Option Err :=
  match d.readPage A w p with
  | .error e => (p, some (.wrap "outbox: read pending" e))
  | .ok rows => d.tryRows A w rows p.turned

/-- The loop of `Run`.  The result is `none` when the fuel does not suffice. -/
def tryBatches : ℕ → Progress κ → Option (Progress κ × Stop)
  | 0, _ => none
  | fuel + 1, p =>
    if w.cancelled p.tick then some (p, .cancelled)
    else
      match d.tryBatch A w p with
      | (p', some e) => some (p', .failed e)
      | (p', none) => if p'.mem.anyProcessed then tryBatches fuel p' else some (p', .drained)

/-- The cleanup pass of `Run`. -/
def tryCleanup (p : Progress κ) : Progress κ × Stop :=
  if 0 < d.cleanupRetention then
    match A.cleanupPublished (w.fault .cleanup) d.tenant (w.clock p.tick - d.cleanupRetention)
        p.store with
    | .error e => (p, .failed (.wrap "outbox cleanup" e))
    | .ok s => ({ p with store := s }, .drained)
  else (p, .drained)

/-- What follows the loop of `Run`. -/
def finish (p : Progress κ) : Stop → Progress κ × Stop
  | .failed e => (p, .failed e)
  | .cancelled => (p, .cancelled)
  | .drained => d.tryCleanup A w p

/-- The reading of the quarantined streams. -/
def readQuarantined : Option Err :=
  if d.quarantines then (w.fault .quarantined).map (.wrap "outbox: read quarantined") else none

/-- `Run`. -/
def tryRun (fuel : ℕ) (s : OutboxDb κ) : Option (Progress κ × Stop) :=
  match d.validate, d.readQuarantined w with
  | .error e, _ => some (d.begun s, .failed e)
  | .ok (), some e => some (d.begun s, .failed e)
  | .ok (), none => (d.tryBatches A w fuel (d.begun s)).map fun r => d.finish A w r.1 r.2

end Run

/-- A world in which nothing goes wrong. -/
def World.quiet (publish : Publisher) (clock : ℕ → Time) : World :=
  ⟨fun _ => publish, clock, fun _ => false, fun _ => none⟩

/-! ### What one row brings -/

variable {d : Drain} {A : OutboxAdapter κ} {w : World} {p p' : Progress κ} {row : PendingRow}
  {x y : Pending κ} {err : Option Err} {s₀ : OutboxDb κ}

/-- What one round of the loop does. -/
inductive RowTried (d : Drain) (A : OutboxAdapter κ) (w : World) (p : Progress κ)
    (row : PendingRow) : Progress κ → Option Err → Prop
  | panicked {e : Err} : d.takes p.mem row = .error e → RowTried d A w p row p (some e)
  | skipped : d.takes p.mem row = .ok false → RowTried d A w p row p none
  /-- `Publish` has been called, and what it returned could not be recorded. -/
  | lost {e : Err} : d.takes p.mem row = .ok true →
    RowTried d A w p row { p with tick := p.tick + 1, calls := p.calls ++ [row] } (some e)
  | sent : d.takes p.mem row = .ok true → w.publish p.calls row.envelope = none →
    RowTried d A w p row {
      store := recordPublish A.toOutboxDialect (w.clock p.tick) row p.store
      mem := afterPublish p.mem
      tick := p.tick + 1
      calls := p.calls ++ [row] } none
  | refused {errMsg : Bytes} : d.takes p.mem row = .ok true →
    w.publish p.calls row.envelope = some errMsg →
    RowTried d A w p row {
      store := d.recordFailure A.toOutboxDialect (w.clock p.tick) row errMsg p.store
      mem := d.afterFailure p.mem row
      tick := p.tick + 1
      calls := p.calls ++ [row] } none

theorem rowTried_of_tryRow (h : d.tryRow A w p row = (p', err)) : d.RowTried A w p row p' err := by
  unfold tryRow at h
  split at h
  · cases h
    exact .panicked ‹_›
  · cases h
    exact .skipped ‹_›
  · rename_i htakes
    dsimp only at h
    split at h
    · rename_i errMsg hpub
      unfold OutboxAdapter.markFailed at h
      cases hbad : ((A.scopeErr row.envelope.tenantID).or (w.fault (.mark p.tick))).or
          (A.textErr (errMsg.take 2048)) with
      | some e =>
        rw [hbad] at h
        cases h
        exact .lost htakes
      | none =>
        rw [hbad] at h
        cases h
        exact .refused htakes hpub
    · rename_i hpub
      unfold OutboxAdapter.markPublished at h
      cases hbad : (A.scopeErr row.envelope.tenantID).or (w.fault (.mark p.tick)) with
      | some e =>
        rw [hbad] at h
        cases h
        exact .lost htakes
      | none =>
        rw [hbad] at h
        cases h
        exact .sent htakes hpub

/-- One round calls `Publish` on its row or on none, and changes no other row. -/
structure Tried (p p' : Progress κ) (x : Pending κ) (row : PendingRow) : Prop where
  calls : p'.calls = p.calls ∧ p'.mem = p.mem ∧ p'.store = p.store ∨
    p'.calls = p.calls ++ [row]
  store : p'.store = p.store ∨ ∃ f hf, p'.store =
    p.store.update (OutboxEntry.hasKey x.entry.tenantID x.entry.globalPosition) f hf

theorem RowTried.tried (hrow : A.toPendingRow x = .ok row) (h : d.RowTried A w p row p' err) :
    Tried p p' x row := by
  cases h with
  | panicked _ => exact ⟨Or.inl ⟨rfl, rfl, rfl⟩, Or.inl rfl⟩
  | skipped _ => exact ⟨Or.inl ⟨rfl, rfl, rfl⟩, Or.inl rfl⟩
  | lost _ => exact ⟨Or.inr rfl, Or.inl rfl⟩
  | sent _ _ => exact ⟨Or.inr rfl, Or.inr ⟨_, _, recordPublish_eq hrow⟩⟩
  | refused _ _ => exact ⟨Or.inr rfl, Or.inr ⟨_, _, recordFailure_eq hrow⟩⟩

/-- The other rows stay. -/
theorem Tried.mem_iff (h : Tried p p' x row) (hx : x ∈ p.store.joined)
    (hy : y.position ≠ x.position) : y ∈ p'.store.joined ↔ y ∈ p.store.joined := by
  rcases h.store with hs | ⟨f, hf, hs⟩
  · rw [hs]
  · rw [hs, OutboxDb.mem_joined_update_key hx]
    constructor
    · rintro (rfl | ⟨hmem, -⟩)
      · exact absurd (congrArg OutboxRow.globalPosition (hf x.entry)) hy
      · exact hmem
    · exact fun hmem => Or.inr ⟨hmem, hy⟩

/-- Entries keep their key columns. -/
theorem Tried.rows (h : Tried p p' x row) :
    p'.store.outbox.map OutboxEntry.toOutboxRow = p.store.outbox.map OutboxEntry.toOutboxRow := by
  rcases h.store with hs | ⟨f, hf, hs⟩
  · rw [hs]
  · rw [hs, OutboxDb.update, List.map_map]
    refine List.map_congr_left fun o _ => ?_
    rw [Function.comp_apply]
    split_ifs
    · exact hf o
    · rfl

/-! ### Rows that are spent -/

/-- `Publish` has been called on rows of the table, on each at most once. -/
structure Once (s₀ : OutboxDb κ) (p : Progress κ) : Prop where
  rows : p.store.outbox.map OutboxEntry.toOutboxRow = s₀.outbox.map OutboxEntry.toOutboxRow
  nodup : (p.calls.map PendingRow.rowKey).Nodup
  mem : ∀ row ∈ p.calls, ∃ o ∈ s₀.outbox, o.key = row.rowKey

/-- A row that `Publish` has been called on is not live any more, or its stream is halted. -/
def Spent (d : Drain) (p : Progress κ) : Prop :=
  ∀ row ∈ p.calls, ∀ y ∈ p.store.joined, y.entry.key = row.rowKey →
    y.live (safeMaxAttempts d.maxAttempts) = true →
      quarantineKey y.stream.1 y.stream.2 ∈ p.mem.halted

theorem rowKey_of_toPendingRow (hrow : A.toPendingRow x = .ok row) : row.rowKey = x.entry.key := by
  obtain ⟨-, -, -, -, -, ht, hg, -, -⟩ := OutboxDialect.toPendingRow_eq_ok hrow
  rw [PendingRow.rowKey, ht, hg]
  rfl

theorem position_of_key (h : y.entry.key = x.entry.key) : y.position = x.position :=
  (Prod.mk.inj h).2

/-- A row that is taken has not been taken before. -/
theorem Spent.fresh (h : Spent d p) (hx : x ∈ p.store.joined)
    (hlive : x.live (safeMaxAttempts d.maxAttempts) = true) (hrow : A.toPendingRow x = .ok row)
    (htakes : d.takes p.mem row = .ok true) : row.rowKey ∉ p.calls.map PendingRow.rowKey := by
  intro hmem
  obtain ⟨row', hrow', hkey⟩ := List.mem_map.1 hmem
  have hhalted := h row' hrow' x hx (by rw [hkey, rowKey_of_toPendingRow hrow]) hlive
  rw [← key_of_toPendingRow hx hrow] at hhalted
  have hserves := serves_of_takes (key_of_toPendingRow hx hrow) htakes
  rw [serves, ← key_of_toPendingRow hx hrow, List.contains_iff_mem.2 hhalted, Bool.or_true,
    Bool.not_true, Bool.and_false] at hserves
  cases hserves

theorem Once.tried (h : Once s₀ p) (hx : x ∈ p.store.joined) (hrow : A.toPendingRow x = .ok row)
    (hfresh : p'.calls ≠ p.calls → row.rowKey ∉ p.calls.map PendingRow.rowKey)
    (ht : Tried p p' x row) : Once s₀ p' := by
  refine ⟨ht.rows.trans h.rows, ?_, ?_⟩
  · rcases ht.calls with ⟨hc, -, -⟩ | hc
    · rw [hc]
      exact h.nodup
    · rw [hc, List.map_append]
      refine List.nodup_append'.2 ⟨h.nodup, List.nodup_singleton _, ?_⟩
      rw [List.map_singleton, List.disjoint_singleton]
      exact hfresh (by simp [hc])
  · rcases ht.calls with ⟨hc, -, -⟩ | hc
    · rw [hc]
      exact h.mem
    · rw [hc]
      intro r hr
      rcases List.mem_append.1 hr with hr | hr
      · exact h.mem r hr
      · obtain rfl := List.mem_singleton.1 hr
        have hmem : x.entry.toOutboxRow ∈ s₀.outbox.map OutboxEntry.toOutboxRow := by
          rw [← h.rows]
          exact List.mem_map_of_mem (OutboxDb.mem_joined.1 hx).1
        obtain ⟨o, ho, hkey⟩ := List.mem_map.1 hmem
        refine ⟨o, ho, ?_⟩
        rw [rowKey_of_toPendingRow hrow]
        exact Prod.ext (congrArg OutboxRow.tenantID hkey) (congrArg OutboxRow.globalPosition hkey)

theorem halted_subset_afterFailure {m : Memory} : m.halted ⊆ (d.afterFailure m row).halted := by
  unfold afterFailure
  split_ifs
  · exact List.Subset.refl _
  · exact List.subset_cons_self _ _
  · exact List.subset_cons_self _ _

/-- A row that is recorded is spent if it is not live any more or its stream is halted now. -/
theorem Spent.recorded {f : OutboxEntry κ → OutboxEntry κ}
    {hf : ∀ o, (f o).toOutboxRow = o.toOutboxRow} (h : Spent d p) (hx : x ∈ p.store.joined)
    (hrow : A.toPendingRow x = .ok row) (hcalls : p'.calls = p.calls ++ [row])
    (hhalted : p.mem.halted ⊆ p'.mem.halted)
    (hstore : p'.store =
      p.store.update (OutboxEntry.hasKey x.entry.tenantID x.entry.globalPosition) f hf)
    (hspent : (⟨f x.entry, x.event⟩ : Pending κ).live (safeMaxAttempts d.maxAttempts) = true →
      row.key ∈ p'.mem.halted) : Spent d p' := by
  intro r hr y hy hkey hlive
  rw [hstore, OutboxDb.mem_joined_update_key hx] at hy
  rw [hcalls] at hr
  rcases hy with rfl | ⟨hy, hpos⟩
  · exact key_of_toPendingRow hx hrow ▸ hspent hlive
  · rcases List.mem_append.1 hr with hr | hr
    · exact hhalted (h r hr y hy hkey hlive)
    · obtain rfl := List.mem_singleton.1 hr
      rw [rowKey_of_toPendingRow hrow] at hkey
      exact absurd (position_of_key hkey) hpos

theorem Spent.tried (h : Spent d p) (hx : x ∈ p.store.joined) (hrow : A.toPendingRow x = .ok row)
    (ht : d.RowTried A w p row p' none) : Spent d p' := by
  cases ht with
  | skipped _ => exact h
  | sent _ _ =>
    refine h.recorded hx hrow rfl (List.Subset.refl _) (recordPublish_eq hrow) fun hlive => ?_
    cases hlive
  | @refused errMsg htakes _ =>
    refine h.recorded hx hrow rfl halted_subset_afterFailure (recordFailure_eq hrow)
      fun hlive => ?_
    by_cases hc : d.crossedDLQ row = true
    · -- the last attempt takes the row out of the pending ones
      have hlive' : (d.failed A.toOutboxDialect (w.clock p.tick) errMsg x).live
          (safeMaxAttempts d.maxAttempts) = true := hlive
      have hnil : [d.failed A.toOutboxDialect (w.clock p.tick) errMsg x].filter
          (Pending.live (safeMaxAttempts d.maxAttempts)) = [] := filter_failed_of_crossed hrow hc
      rw [List.filter_cons_of_pos hlive'] at hnil
      cases hnil
    · dsimp only
      rw [afterFailure, if_neg hc]
      exact List.mem_cons_self

/-! ### A page, a batch, a Run -/

/-- The rows of a page that are still to come: they are as they were read. -/
structure Ahead (d : Drain) (A : OutboxAdapter κ) (p : Progress κ) (xs : List (Pending κ))
    (rows : List PendingRow) : Prop where
  reads : List.Forall₂ (fun x row => A.toPendingRow x = .ok row) xs rows
  mem : ∀ x ∈ xs, x ∈ p.store.joined
  live : ∀ x ∈ xs, x.live (safeMaxAttempts d.maxAttempts) = true
  apart : xs.Pairwise fun x y => x.position ≠ y.position
  keys : rows.Pairwise fun a b => a.key ≠ b.key

variable {xs : List (Pending κ)} {rows : List PendingRow}

theorem Ahead.tail (h : Ahead d A p (x :: xs) (row :: rows)) (ht : Tried p p' x row) :
    Ahead d A p' xs rows := by
  obtain ⟨hne, hpair⟩ := List.pairwise_cons.1 h.apart
  refine ⟨(List.forall₂_cons.1 h.reads).2, fun y hy => ?_,
    fun y hy => h.live y (List.mem_cons_of_mem _ hy), hpair, (List.pairwise_cons.1 h.keys).2⟩
  exact (ht.mem_iff (h.mem x List.mem_cons_self) (hne y hy).symm).2
    (h.mem y (List.mem_cons_of_mem _ hy))

/-- A page is gone through, or up to a row with an error: no row is taken twice, and if something
was processed a row has been called. -/
theorem tryRows_once (hahead : Ahead d A p xs rows) (hspent : Spent d p) (h : Once s₀ p)
    (hrun : d.tryRows A w rows p = (p', err)) :
    Once s₀ p' ∧ (err = none → Spent d p') ∧
      (p'.mem.anyProcessed = true → p.mem.anyProcessed = true ∨
        p.calls.length < p'.calls.length) ∧ p.calls.length ≤ p'.calls.length := by
  induction rows generalizing p xs with
  | nil =>
    obtain ⟨rfl, rfl⟩ := Prod.mk.inj hrun
    exact ⟨h, fun _ => hspent, Or.inl, le_rfl⟩
  | cons row rows ih =>
    obtain ⟨x, xs, hrow, -, rfl⟩ := List.forall₂_cons_right_iff.1 hahead.reads
    have hx := hahead.mem x List.mem_cons_self
    rcases hstep : d.tryRow A w p row with ⟨p₁, err₁⟩
    have hrt := rowTried_of_tryRow hstep
    have ht := hrt.tried hrow
    have hfresh : p₁.calls ≠ p.calls → row.rowKey ∉ p.calls.map PendingRow.rowKey := by
      intro hne
      refine hspent.fresh hx (hahead.live x List.mem_cons_self) hrow ?_
      cases hrt with
      | panicked _ => exact absurd rfl hne
      | skipped _ => exact absurd rfl hne
      | lost htakes => exact htakes
      | sent htakes _ => exact htakes
      | refused htakes _ => exact htakes
    have honce := h.tried hx hrow hfresh ht
    have hcount : (p₁.mem.anyProcessed = true → p.mem.anyProcessed = true ∨
        p.calls.length < p₁.calls.length) ∧ p.calls.length ≤ p₁.calls.length := by
      rcases ht.calls with ⟨hc, hm, -⟩ | hc
      · rw [hc, hm]
        exact ⟨Or.inl, le_rfl⟩
      · rw [hc, List.length_append, List.length_singleton]
        exact ⟨fun _ => Or.inr (Nat.lt_succ_self _), Nat.le_succ _⟩
    rw [tryRows, hstep] at hrun
    cases err₁ with
    | some e =>
      obtain ⟨rfl, rfl⟩ := Prod.mk.inj hrun
      exact ⟨honce, fun he => absurd he (Option.some_ne_none e), hcount⟩
    | none =>
      obtain ⟨h₁, h₂, h₃, h₄⟩ := ih (hahead.tail ht) (hspent.tried hx hrow hrt) honce hrun
      refine ⟨h₁, h₂, fun hany => ?_, hcount.2.trans h₄⟩
      rcases h₃ hany with hany | hlt
      · exact (hcount.1 hany).imp_right fun hlt => Nat.lt_of_lt_of_le hlt h₄
      · exact Or.inr (Nat.lt_of_le_of_lt hcount.2 hlt)

/-- The rows of a page are ahead when it has been read. -/
theorem ahead_of_readPage (h : d.readPage A w p = .ok rows) : ∃ xs, Ahead d A p.turned xs rows := by
  unfold readPage at h
  split at h
  · cases h
  · obtain ⟨n, -, hreads⟩ := OutboxDialect.pendingOutbox_eq_ok h
    have hmem : ∀ x ∈ A.page d.tenant n (safeMaxAttempts d.maxAttempts) (w.clock p.tick) p.store,
        x ∈ p.store.joined :=
      fun x hx => OutboxDialect.heads_sublist.subset (OutboxDialect.page_sublist.subset hx)
    refine ⟨_, hreads, hmem, fun x hx => ?_, ?_,
      PendingRow.pairwise_key hmem hreads OutboxDialect.pairwise_page⟩
    · exact (OutboxDialect.mem_heads.1 (OutboxDialect.page_sublist.subset hx)).2.1
    · refine (OutboxDb.pairwise_joined.sublist
        (OutboxDialect.page_sublist.trans OutboxDialect.heads_sublist)).imp fun hlt => ?_
      exact Nat.ne_of_lt hlt

/-- A batch takes no row that has been taken before, and one that has processed something has taken
a row. -/
theorem tryBatch_once (hspent : Spent d p) (h : Once s₀ p)
    (hrun : d.tryBatch A w p = (p', err)) :
    Once s₀ p' ∧ (err = none → Spent d p') ∧
      (err = none → p'.mem.anyProcessed = true → p.calls.length < p'.calls.length) := by
  unfold tryBatch at hrun
  split at hrun
  · obtain ⟨rfl, rfl⟩ := Prod.mk.inj hrun
    exact ⟨h, fun he => absurd he (Option.some_ne_none _), fun he => absurd he
      (Option.some_ne_none _)⟩
  · rename_i rows hread
    obtain ⟨xs, hahead⟩ := ahead_of_readPage hread
    obtain ⟨h₁, h₂, h₃, -⟩ := tryRows_once hahead hspent ⟨h.rows, h.nodup, h.mem⟩ hrun
    exact ⟨h₁, h₂, fun _ hany => (h₃ hany).resolve_left Bool.false_ne_true⟩

/-- No more calls than rows. -/
theorem Once.length_le (h : Once s₀ p) : p.calls.length ≤ s₀.outbox.length := by
  have hsub : p.calls.map PendingRow.rowKey ⊆ s₀.outbox.map OutboxEntry.key := by
    intro k hk
    obtain ⟨row, hrow, rfl⟩ := List.mem_map.1 hk
    obtain ⟨o, ho, hkey⟩ := h.mem row hrow
    exact List.mem_map.2 ⟨o, ho, hkey⟩
  have hle := (h.nodup.subperm hsub).length_le
  rwa [List.length_map, List.length_map] at hle

/-- The loop ends, since every batch but the last one takes a row. -/
theorem tryBatches_once (hspent : Spent d p) (h : Once s₀ p) :
    ∃ p' stop, Once s₀ p' ∧ ∀ fuel, s₀.outbox.length + 1 - p.calls.length ≤ fuel →
      d.tryBatches A w fuel p = some (p', stop) := by
  induction hn : s₀.outbox.length - p.calls.length using Nat.strong_induction_on generalizing p with
  | _ n ih =>
    have hle := h.length_le
    have hfuel : ∀ {fuel}, s₀.outbox.length + 1 - p.calls.length ≤ fuel → ∃ f, fuel = f + 1 :=
      fun {fuel} hf => ⟨fuel - 1, by omega⟩
    by_cases hcancel : w.cancelled p.tick = true
    · refine ⟨p, .cancelled, h, fun fuel hf => ?_⟩
      obtain ⟨fuel, rfl⟩ := hfuel hf
      rw [tryBatches, if_pos hcancel]
    rcases hbatch : d.tryBatch A w p with ⟨p₁, err⟩
    obtain ⟨h₁, h₂, h₃⟩ := tryBatch_once hspent h hbatch
    cases err with
    | some e =>
      refine ⟨p₁, .failed e, h₁, fun fuel hf => ?_⟩
      obtain ⟨fuel, rfl⟩ := hfuel hf
      rw [tryBatches, if_neg hcancel, hbatch]
    | none =>
      cases hany : p₁.mem.anyProcessed with
      | false =>
        refine ⟨p₁, .drained, h₁, fun fuel hf => ?_⟩
        obtain ⟨fuel, rfl⟩ := hfuel hf
        rw [tryBatches, if_neg hcancel, hbatch]
        simp only [hany, Bool.false_eq_true, if_false]
      | true =>
        have hlt := h₃ rfl hany
        have hle₁ := h₁.length_le
        obtain ⟨p', stop, honce, hend⟩ := ih _ (by omega) (h₂ rfl) h₁ rfl
        refine ⟨p', stop, honce, fun fuel hf => ?_⟩
        obtain ⟨fuel, rfl⟩ := hfuel hf
        rw [tryBatches, if_neg hcancel, hbatch]
        simp only [hany, if_true]
        exact hend fuel (by omega)

/-- The cleanup pass calls no publisher. -/
theorem calls_tryCleanup : (d.tryCleanup A w p).1.calls = p.calls := by
  unfold tryCleanup
  split_ifs
  · split <;> rfl
  · rfl

/-- Nor does anything else that follows the loop. -/
theorem calls_finish {stop : Stop} : (d.finish A w p stop).1.calls = p.calls := by
  cases stop with
  | failed e => rfl
  | cancelled => rfl
  | drained => exact calls_tryCleanup

end Drain

/-- **A Run ends, and calls `Publish` at most once on each row.**  For every table, configuration
and adapter, and whatever the publisher returns and the store fails with, the Run is over after at
most one batch more than the table has rows; the rows `Publish` has been called on are rows of the
table, none of them twice. -/
theorem run_once (A : OutboxAdapter κ) (w : Drain.World) (d : Drain) (s : OutboxDb κ) :
    ∃ p stop, (∀ fuel, s.outbox.length + 1 ≤ fuel → d.tryRun A w fuel s = some (p, stop)) ∧
      (p.calls.map PendingRow.rowKey).Nodup ∧
      ∀ row ∈ p.calls, ∃ o ∈ s.outbox, o.key = row.rowKey := by
  have hspent : Drain.Spent d (d.begun s) := fun row hrow => absurd hrow List.not_mem_nil
  have hbegun : Drain.Once s (d.begun s) :=
    ⟨rfl, List.nodup_nil, fun row hrow => absurd hrow List.not_mem_nil⟩
  unfold Drain.tryRun
  cases hv : d.validate with
  | error e => exact ⟨_, _, fun _ _ => rfl, hbegun.nodup, hbegun.mem⟩
  | ok _ =>
    cases hq : d.readQuarantined w with
    | some e => exact ⟨_, _, fun _ _ => rfl, hbegun.nodup, hbegun.mem⟩
    | none =>
      obtain ⟨p, stop, honce, hend⟩ := Drain.tryBatches_once (A := A) (w := w) hspent hbegun
      have hcalls : (d.finish A w p stop).1.calls = p.calls := Drain.calls_finish
      refine ⟨(d.finish A w p stop).1, (d.finish A w p stop).2, fun fuel hf => ?_,
        hcalls ▸ honce.nodup, hcalls ▸ honce.mem⟩
      dsimp only
      rw [hend fuel hf]
      rfl

end EventStore
