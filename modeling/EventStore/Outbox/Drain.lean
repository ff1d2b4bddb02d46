import EventStore.Aggregate.Rebuild
import EventStore.Es.Shard
import EventStore.LTS.Basic
import EventStore.Outbox.Store

/-!
# The outbox drain

`outbox.Drain`: a `Run` reads the quarantined streams, then page after page of pending rows, calls
`Publish` on the rows of its shard whose stream is not halted, and marks each as published or
failed.  A stream whose row fails is halted for the rest of the Run, and it stays so in later Runs
when the row has used up its attempts (it is in the dead letter queue, `DLQ`).

The functions of `drain.go` are given twice over the same parts: as functions (`Drain.runBatch`,
`Drain.run`), for a Run with nothing in between, and as the steps of a runner (`Runner.step`), which
can crash at any point and runs beside other runners, appends and operators (`OutboxSys.next`).

A runner's only memory is that of the Run it is in.  The log of an `OutboxSys` is a history for the
theorems to speak about; no step reads it.  `LockKey` is left out: a Run that does not get the lock
does nothing.
-/

namespace EventStore

variable {κ : Columns}

/-! ### The drain -/

/-- `quarantineKey`. -/
def quarantineKey (tenantID streamID : String) : String := tenantID ++ "|" ++ streamID

/-- `outbox.Drain`; a negative `BatchSize` or `MaxAttempts` is treated like 0. -/
structure Drain where
  tenant : String
  batchSize : ℕ
  /-- A duration, in nanoseconds. -/
  cleanupRetention : ℤ
  shard : ℤ
  totalShards : ℤ
  maxAttempts : ℕ
  backoffBase : ℤ
  backoffMax : ℤ
  autoResumeAfterDLQ : Bool

/-- `time.Time{}`. -/
def zeroTime : Time := -62135596800 * 1000000000

/-- The loop of `computeNextAttemptAt`: `n` doublings of a duration, an `int64`, up to the maximum
if there is one. -/
def doubled (max : ℤ) : ℕ → ℤ → ℤ
  | 0, delay => delay
  | n + 1, delay =>
    let next := Int.bmod (delay * 2) (2 ^ 64)
    if 0 < max ∧ max < next then max else doubled max n next

namespace Drain

variable (d : Drain)

/-- `validate`. -/
def validate : Except Err Unit :=
  let s := d.shard
  let n := d.totalShards
  if n < 0 ∨ s < 0 ∨ 0 < n ∧ n ≤ s then
    .error (.text s!"outbox: invalid sharding: Shard={s} TotalShards={n}")
  else .ok ()

/-- `batchSize`. -/
def pageSize : ℕ := if d.batchSize = 0 then 100 else d.batchSize

/-- `computeNextAttemptAt`. -/
def computeNextAttemptAt (now : Time) (attemptsAfter : ℕ) : Time :=
  if d.backoffBase ≤ 0 then zeroTime
  else
    let delay := doubled d.backoffMax (attemptsAfter - 1) d.backoffBase
    now + if 0 < d.backoffMax ∧ d.backoffMax < delay then d.backoffMax else delay

/-- The loop, up to the maximum: a duration that is doubled is below it, so nothing wraps around. -/
theorem min_doubled {max : ℤ} (hmax : 0 < max) (hle : max < 2 ^ 62) (n : ℕ) {delay : ℤ}
    (hpos : 0 < delay) (hdelay : delay < 2 ^ 62) :
    min max (doubled max n delay) = min max (delay * 2 ^ n) := by
  induction n generalizing delay with
  | zero => simp [doubled]
  | succ n ih =>
    have hnext : Int.bmod (delay * 2) (2 ^ 64) = delay * 2 :=
      Int.bmod_eq_of_le (by omega) (by omega)
    have hpow : delay * 2 ^ (n + 1) = delay * 2 * 2 ^ n := by rw [pow_succ', mul_assoc]
    rw [doubled, hnext, hpow]
    split_ifs with hcap
    · have hgrows : delay * 2 * 1 ≤ delay * 2 * 2 ^ n :=
        Int.mul_le_mul_of_nonneg_left (Int.pow_pos (by decide)) (by omega)
      rw [min_self, min_eq_left (by omega)]
    · exact ih (by omega) (by omega)

/-- The delay after `n` attempts is `BackoffBase * 2 ^ (n - 1)`, as an integer, up to
`BackoffMax`. -/
theorem computeNextAttemptAt_eq (hbase : 1 ≤ d.backoffBase) (hbase' : d.backoffBase ≤ 2 ^ 62 - 1)
    (hmax : 1 ≤ d.backoffMax) (hmax' : d.backoffMax ≤ 2 ^ 62 - 1) (now : Time) (n : ℕ) :
    d.computeNextAttemptAt now n = now + min d.backoffMax (d.backoffBase * 2 ^ (n - 1)) := by
  rw [computeNextAttemptAt, if_neg (by omega),
    ← min_doubled (by omega) (by omega) (n - 1) (by omega) (by omega)]
  dsimp only
  split_ifs with hcap
  · rw [min_eq_left hcap.2.le]
  · rw [min_eq_right (by omega)]

/-- **The backoff is exact**: it is the integer `BackoffBase * 2 ^ (n - 1)` up to `BackoffMax`, and
so it is positive and does not decrease from one attempt to the next. -/
theorem backoff_exact (hbase : 1 ≤ d.backoffBase) (hbase' : d.backoffBase ≤ 2 ^ 62 - 1)
    (hmax : 1 ≤ d.backoffMax) (hmax' : d.backoffMax ≤ 2 ^ 62 - 1) (now : Time) (n : ℕ) :
    d.computeNextAttemptAt now n = now + min d.backoffMax (d.backoffBase * 2 ^ (n - 1)) ∧
      now < d.computeNextAttemptAt now n ∧
      ∀ m ≤ n, d.computeNextAttemptAt now m ≤ d.computeNextAttemptAt now n := by
  have heq := d.computeNextAttemptAt_eq hbase hbase' hmax hmax' now
  have hpow : ∀ k : ℕ, 0 < (2 : ℤ) ^ k := fun k => Int.pow_pos (by decide)
  refine ⟨heq n, ?_, fun m hm => ?_⟩
  · rw [heq]
    exact Int.lt_add_of_pos_right now (lt_min (by omega) (Int.mul_pos (by omega) (hpow _)))
  · -- the powers of two do not decrease
    obtain ⟨k, hk⟩ := Nat.exists_eq_add_of_le (Nat.sub_le_sub_right hm 1)
    have hle : (2 : ℤ) ^ (m - 1) * 1 ≤ 2 ^ (m - 1) * 2 ^ k :=
      Int.mul_le_mul_of_nonneg_left (hpow k) (hpow _).le
    rw [heq, heq, hk, pow_add]
    refine Int.add_le_add_left (le_min (min_le_left _ _) ((min_le_right _ _).trans ?_)) now
    exact Int.mul_le_mul_of_nonneg_left (by omega) (by omega)

/-- From a base of three nanoseconds the third delay is capped at ten. -/
theorem backoff_exact_capped :
    Drain.computeNextAttemptAt ⟨"", 0, 0, 0, 0, 0, 3, 10, false⟩ 5 3 = 5 + 10 :=
  (backoff_exact ⟨"", 0, 0, 0, 0, 0, 3, 10, false⟩ (by decide) (by decide) (by decide) (by decide)
    5 3).1

/-- The Run keeps to the quarantine. -/
def quarantines : Bool := !d.autoResumeAfterDLQ && decide (0 < d.maxAttempts)

/-- The memory of a Run: the keys of the streams that are halted and quarantined, and the two
results of the current batch. -/
structure Memory where
  halted : List String
  quarantined : List String
  published : ℕ
  anyProcessed : Bool

/-- What a Run starts with. -/
def start (s : OutboxDb κ) : Memory :=
  let keys := if d.quarantines then
      (s.quarantinedStreams d.tenant d.maxAttempts).map fun r => quarantineKey r.1 r.2
    else []
  ⟨keys, keys, 0, false⟩

end Drain

/-- The key of the stream of a row. -/
def PendingRow.key (row : PendingRow) : String :=
  quarantineKey row.envelope.tenantID row.envelope.streamID.canonical

namespace Drain

variable (d : Drain) (Q : OutboxDialect κ)

/-- The row is one of the shard. -/
def inShard (key : String) : Except Err Bool :=
  if 0 < d.totalShards then
    (streamShard key d.totalShards).map fun sh => decide ((sh.toNat : ℤ) = d.shard)
  else .ok true

/-- The row is one to publish: of the shard, and of a stream that is not paused. -/
def takes (m : Memory) (row : PendingRow) : Except Err Bool :=
  (d.inShard row.key).map fun own =>
    own && !(m.quarantined.contains row.key || m.halted.contains row.key)

/-- The attempt that has just failed was the last one. -/
def crossedDLQ (row : PendingRow) : Bool :=
  decide (0 < d.maxAttempts) && decide (d.maxAttempts ≤ row.attempts + 1)

/-- The memory after a failure has been recorded. -/
def afterFailure (m : Memory) (row : PendingRow) : Memory :=
  if d.crossedDLQ row then
    if d.autoResumeAfterDLQ then { m with anyProcessed := true }
    else { m with
      halted := row.key :: m.halted
      quarantined := row.key :: m.quarantined
      anyProcessed := true }
  else { m with halted := row.key :: m.halted, anyProcessed := true }

/-- The memory after a publication has been recorded. -/
def afterPublish (m : Memory) : Memory :=
  { m with published := m.published + 1, anyProcessed := true }

/-- The failure of a row is recorded. -/
def recordFailure (now : Time) (row : PendingRow) (errMsg : Bytes) (s : OutboxDb κ) : OutboxDb κ :=
  Q.markOutboxFailed row.envelope.tenantID row.envelope.globalPosition errMsg
    (d.computeNextAttemptAt now (row.attempts + 1)) s

/-- The publication of a row is recorded. -/
def recordPublish (now : Time) (row : PendingRow) (s : OutboxDb κ) : OutboxDb κ :=
  Q.markOutboxPublished now row.envelope.tenantID row.envelope.globalPosition s

end Drain

/-! ### A Run with nothing in between -/

/-- The state of a Run: `calls` are the rows `Publish` has been called on. -/
structure Drain.Progress (κ : Columns) where
  store : OutboxDb κ
  mem : Drain.Memory
  /-- How often the clock has been read. -/
  tick : ℕ
  calls : List PendingRow

namespace Drain

/-- The publisher: nil, or the text of an error. -/
abbrev Publisher := Envelope → Option Bytes

variable (d : Drain) (Q : OutboxDialect κ) (publish : Publisher) (clock : ℕ → Time)

/-- The cleanup pass of `Run`. -/
def cleanup (now : Time) (s : OutboxDb κ) : OutboxDb κ :=
  if 0 < d.cleanupRetention then
    Q.cleanupPublishedOutbox d.tenant (now - d.cleanupRetention) s
  else s

end Drain

/-! ### Runners among appends and operators -/

/-- The key of an outbox row: tenant and position. -/
abbrev RowKey := String × ℕ

def OutboxEntry.key (o : OutboxEntry κ) : RowKey := (o.tenantID, o.globalPosition)

def EventRow.rowKey (r : EventRow κ) : RowKey := (r.tenantID, r.globalPosition)

/-- The key of the outbox row of a pending row. -/
def PendingRow.rowKey (row : PendingRow) : RowKey :=
  (row.envelope.tenantID, row.envelope.globalPosition)

/-- What has happened to an outbox row. -/
inductive LogEntry where
  /-- `Publish` returned nil. -/
  | published (k : RowKey)
  /-- `Publish` returned an error. -/
  | refused (k : RowKey)
  /-- A failure was recorded; `crossing` when it made the row's attempts reach `MaxAttempts`. -/
  | failed (k : RowKey) (crossing : Bool)
  /-- `OnDLQ` was called. -/
  | onDLQ (k : RowKey)
  /-- The runner crashed before it could call `OnDLQ`. -/
  | lost (k : RowKey)
  /-- An operator replayed the row. -/
  | replayed (k : RowKey)
  /-- An operator abandoned the row. -/
  | abandoned (k : RowKey)
  /-- A cleanup deleted the row. -/
  | deleted (k : RowKey)
  deriving DecidableEq, Repr

/-- Where a runner is. -/
inductive Runner where
  /-- Between two Runs. -/
  | idle
  /-- Before the next page is read. -/
  | reading (d : Drain) (m : Drain.Memory)
  /-- In the loop over a page. -/
  | rows (d : Drain) (m : Drain.Memory) (rest : List PendingRow)
  /-- `Publish` has returned nil, and the row is not marked yet. -/
  | sent (d : Drain) (m : Drain.Memory) (row : PendingRow) (rest : List PendingRow)
  /-- `Publish` has failed, and the failure is not recorded yet. -/
  | refused (d : Drain) (m : Drain.Memory) (row : PendingRow) (errMsg : Bytes)
      (rest : List PendingRow)
  /-- The last attempt has been recorded, and `OnDLQ` has not been called yet. -/
  | crossed (d : Drain) (m : Drain.Memory) (row : PendingRow) (rest : List PendingRow)
  /-- Before the cleanup pass. -/
  | cleaning (d : Drain)

/-- The steps of a runner. -/
inductive RunnerStep where
  /-- `Run` is called and reads the quarantined streams. -/
  | begin (d : Drain)
  /-- A page is read. -/
  | page (now : Time)
  /-- The next row of the page: it is skipped, or `Publish` is called on it and returns. -/
  | row (outcome : Option Bytes)
  /-- The outcome is recorded. -/
  | mark (now : Time)
  /-- `OnDLQ` is called. -/
  | onDLQ
  /-- The page is through. -/
  | endPage
  /-- The cleanup pass. -/
  | cleanup (now : Time)
  /-- The runner crashes, or a statement of it fails. -/
  | crash

/-- The keys of the rows a statement meets. -/
def OutboxDb.keys (s : OutboxDb κ) (p : OutboxEntry κ → Bool) : List RowKey :=
  (s.outbox.filter p).map OutboxEntry.key

/-- Recording a failure of the row makes its attempts reach the threshold. -/
def OutboxDb.crosses (s : OutboxDb κ) (maxAttempts : ℕ) (row : PendingRow) : Bool :=
  s.outbox.any fun o => o.hasKey row.envelope.tenantID row.envelope.globalPosition &&
    decide (0 < maxAttempts) && decide (o.attempts < maxAttempts) &&
    decide (maxAttempts ≤ o.attempts + 1)

/-- One step of a runner: where it is then, the tables, and what is added to the log. -/
def Runner.step (Q : OutboxDialect κ) (s : OutboxDb κ) :
    Runner → RunnerStep → Option (Runner × OutboxDb κ × List LogEntry)
  | .idle, .begin d =>
    match d.validate with
    | .error _ => some (.idle, s, [])
    | .ok () => some (.reading d (d.start s), s, [])
  | .reading d m, .page now =>
    match Q.pendingOutbox d.tenant d.pageSize d.maxAttempts now s with
    | .error _ => some (.idle, s, [])
    | .ok found => some (.rows d { m with anyProcessed := false } found, s, [])
  | .rows d m (row :: rest), .row outcome =>
    match d.takes m row, outcome with
    | .error _, _ => some (.idle, s, [])
    | .ok false, _ => some (.rows d m rest, s, [])
    | .ok true, none => some (.sent d m row rest, s, [.published row.rowKey])
    | .ok true, some errMsg => some (.refused d m row errMsg rest, s, [.refused row.rowKey])
  | .sent d m row rest, .mark now =>
    some (.rows d (Drain.afterPublish m) rest, Drain.recordPublish Q now row s, [])
  | .refused d m row errMsg rest, .mark now =>
    some (if d.crossedDLQ row then .crossed d m row rest
        else .rows d (d.afterFailure m row) rest,
      d.recordFailure Q now row errMsg s, [.failed row.rowKey (s.crosses d.maxAttempts row)])
  | .crossed d m row rest, .onDLQ =>
    some (.rows d (d.afterFailure m row) rest, s, [.onDLQ row.rowKey])
  | .rows d m [], .endPage =>
    some (if m.anyProcessed then .reading d m else .cleaning d, s, [])
  | .cleaning d, .cleanup now =>
    some (.idle, d.cleanup Q now s,
      if 0 < d.cleanupRetention then
        (s.keys (Q.expired d.tenant (now - d.cleanupRetention))).map .deleted
      else [])
  | .crossed _ _ row _, .crash => some (.idle, s, [.lost row.rowKey])
  | _, .crash => some (.idle, s, [])
  | _, _ => none

/-- The tables, the runner of every shard, and the history. -/
structure OutboxSys (κ : Columns) where
  store : OutboxDb κ
  runner : ℕ → Runner
  log : List LogEntry

/-- What can happen. -/
inductive OutboxStep where
  /-- A call of `Append`. -/
  | append (E : Engine) (p : AppendParams)
  /-- A step of the runner of shard `i`. -/
  | drain (i : ℕ) (l : RunnerStep)
  /-- `ReplayDLQ`. -/
  | replay (tenantID : String) (globalPosition : ℕ)
  /-- `AbandonDLQ`. -/
  | abandon (now : Time) (tenantID : String) (globalPosition : ℕ)
  /-- `ReplayAllDLQ`. -/
  | replayAll (tenantID : String) (maxAttempts : ℕ)
  /-- `CleanupPublishedOutbox`. -/
  | cleanup (tenantID : String) (olderThan : Time)

/-- The state after one step. -/
def OutboxSys.next (Q : OutboxDialect κ) (H : Hasher) (s : OutboxSys κ) :
    OutboxStep → Option (OutboxSys κ)
  | .append E p => some { s with store := (s.store.append Q.base H E p).2 }
  | .drain i l => ((s.runner i).step Q s.store l).map fun r =>
    { store := r.2.1, runner := Function.update s.runner i r.1, log := s.log ++ r.2.2 }
  | .replay t gp => some
    { s with
      store := replayDLQ t gp s.store
      log := s.log ++ (s.store.keys (OutboxEntry.hasKey t gp)).map .replayed }
  | .abandon now t gp => some
    { s with
      store := Q.abandonDLQ now t gp s.store
      log := s.log ++ (s.store.keys (OutboxEntry.isOpen t gp)).map .abandoned }
  | .replayAll t n => some
    { s with
      store := replayAllDLQ t n s.store
      log := s.log ++ (s.store.keys (OutboxEntry.inDLQ t n)).map .replayed }
  | .cleanup t olderThan => some
    { s with
      store := Q.cleanupPublishedOutbox t olderThan s.store
      log := s.log ++ (s.store.keys (Q.expired t olderThan)).map .deleted }

/-- An empty store, and no Run in progress. -/
def OutboxSys.empty : OutboxSys κ := ⟨.empty, fun _ => .idle, []⟩

/-- Appends, drains and operators on one store. -/
def outboxSystem (Q : OutboxDialect κ) (H : Hasher) : TS (OutboxSys κ) OutboxStep where
  init s := s = .empty
  step s l s' := s.next Q H l = some s'

/-- A drain of everything that gives up after the first failure. -/
def Drain.single : Drain := ⟨"", 0, 0, 0, 0, 1, 0, 0, false⟩

/-! ### What a step does -/

/-- The steps of a runner, case by case. -/
inductive Runner.Moves (Q : OutboxDialect κ) (s : OutboxDb κ) :
    Runner → RunnerStep → Runner → OutboxDb κ → List LogEntry → Prop
  | begin {d : Drain} : d.validate = .ok () →
    Moves Q s .idle (.begin d) (.reading d (d.start s)) s []
  | page {d : Drain} {m : Drain.Memory} {now : Time} {found : List PendingRow} :
    Q.pendingOutbox d.tenant d.pageSize d.maxAttempts now s = .ok found →
    Moves Q s (.reading d m) (.page now) (.rows d { m with anyProcessed := false } found) s []
  | skip {d : Drain} {m : Drain.Memory} {row : PendingRow} {rest : List PendingRow}
      {outcome : Option Bytes} : d.takes m row = .ok false →
    Moves Q s (.rows d m (row :: rest)) (.row outcome) (.rows d m rest) s []
  | sent {d : Drain} {m : Drain.Memory} {row : PendingRow} {rest : List PendingRow} :
    d.takes m row = .ok true →
    Moves Q s (.rows d m (row :: rest)) (.row none) (.sent d m row rest) s
      [.published row.rowKey]
  | refused {d : Drain} {m : Drain.Memory} {row : PendingRow} {rest : List PendingRow}
      {errMsg : Bytes} : d.takes m row = .ok true →
    Moves Q s (.rows d m (row :: rest)) (.row (some errMsg)) (.refused d m row errMsg rest) s
      [.refused row.rowKey]
  | marked {d : Drain} {m : Drain.Memory} {row : PendingRow} {rest : List PendingRow}
      {now : Time} :
    Moves Q s (.sent d m row rest) (.mark now) (.rows d (Drain.afterPublish m) rest)
      (Drain.recordPublish Q now row s) []
  | failed {d : Drain} {m : Drain.Memory} {row : PendingRow} {rest : List PendingRow}
      {errMsg : Bytes} {now : Time} : d.crossedDLQ row = false →
    Moves Q s (.refused d m row errMsg rest) (.mark now) (.rows d (d.afterFailure m row) rest)
      (d.recordFailure Q now row errMsg s) [.failed row.rowKey (s.crosses d.maxAttempts row)]
  | crossed {d : Drain} {m : Drain.Memory} {row : PendingRow} {rest : List PendingRow}
      {errMsg : Bytes} {now : Time} : d.crossedDLQ row = true →
    Moves Q s (.refused d m row errMsg rest) (.mark now) (.crossed d m row rest)
      (d.recordFailure Q now row errMsg s) [.failed row.rowKey (s.crosses d.maxAttempts row)]
  | onDLQ {d : Drain} {m : Drain.Memory} {row : PendingRow} {rest : List PendingRow} :
    Moves Q s (.crossed d m row rest) .onDLQ (.rows d (d.afterFailure m row) rest) s
      [.onDLQ row.rowKey]
  | again {d : Drain} {m : Drain.Memory} : m.anyProcessed = true →
    Moves Q s (.rows d m []) .endPage (.reading d m) s []
  | through {d : Drain} {m : Drain.Memory} : m.anyProcessed = false →
    Moves Q s (.rows d m []) .endPage (.cleaning d) s []
  | cleanup {d : Drain} {now : Time} : 0 < d.cleanupRetention →
    Moves Q s (.cleaning d) (.cleanup now) .idle
      (Q.cleanupPublishedOutbox d.tenant (now - d.cleanupRetention) s)
      ((s.keys (Q.expired d.tenant (now - d.cleanupRetention))).map .deleted)
  | lost {d : Drain} {m : Drain.Memory} {row : PendingRow} {rest : List PendingRow} :
    Moves Q s (.crossed d m row rest) .crash .idle s [.lost row.rowKey]
  /-- The Run ends, early or not. -/
  | stop {r : Runner} {l : RunnerStep} : (∀ d m row rest, r ≠ .crossed d m row rest) →
    Moves Q s r l .idle s []

theorem Runner.moves_of_step {Q : OutboxDialect κ} {s s' : OutboxDb κ} {r r' : Runner}
    {l : RunnerStep} {es : List LogEntry} (h : r.step Q s l = some (r', s', es)) :
    r.Moves Q s l r' s' es := by
  unfold Runner.step at h
  split at h
  · -- `begin`
    split at h <;> cases h
    · exact .stop (by simp)
    · exact .begin ‹_›
  · -- `page`
    split at h <;> cases h
    · exact .stop (by simp)
    · exact .page ‹_›
  · -- `row`
    split at h <;> cases h
    · exact .stop (by simp)
    · exact .skip ‹_›
    · exact .sent ‹_›
    · exact .refused ‹_›
  · cases h
    exact .marked
  · -- `mark` of a failure
    split at h <;> cases h
    · exact .crossed ‹_›
    · exact .failed (Bool.eq_false_iff.2 ‹_›)
  · cases h
    exact .onDLQ
  · -- `endPage`
    split at h <;> cases h
    · exact .again ‹_›
    · exact .through (Bool.eq_false_iff.2 ‹_›)
  · -- `cleanup`
    unfold Drain.cleanup at h
    split at h <;> cases h
    · exact .cleanup ‹_›
    · exact .stop (by simp)
  · cases h
    exact .lost
  · rename_i hne
    cases h
    exact .stop fun d m row rest => hne d m row rest
  · cases h

end EventStore
