import EventStore.Aggregate.Rebuild
import EventStore.Es.Shard
import EventStore.LTS.Basic
import EventStore.StateStream.Store

/-!
# The state stream drain

`state_stream.Drain`: a `Run` lists the streams its subscriber is behind on, page after page, calls
`PublishState` on those of its shard and advances the subscriber's position after each delivery.  It
ends with a page of which nothing was tried.

The functions of `drain.go` are given twice over the same parts: as functions (`Drain.runBatch`,
`Drain.run`), for a Run with nothing in between, and as the steps of a runner (`Runner.step`), which
can crash at any point and runs beside other runners, appends, rebuilds of the cache and operators
(`Sys.next`).

The history of deliveries in a `Sys` is there for the theorems to speak about; no step reads it.
`LockKey` is left out: a Run that does not get the lock does nothing.
-/

namespace EventStore.StateStream

variable {κ : Columns}

/-! ### The drain -/

/-- `state_stream.Drain`. -/
structure Drain where
  subscriberName : String
  tenant : String
  batchSize : ℤ
  shard : ℤ
  totalShards : ℤ

namespace Drain

variable (d : Drain)

/-- `validate`. -/
def validate : Except Err Unit :=
  let s := d.shard
  let n := d.totalShards
  if d.subscriberName = "" then .error (.text "state_stream: SubscriberName is required")
  else if n < 0 ∨ s < 0 ∨ 0 < n ∧ n ≤ s then
    .error (.text s!"state_stream: invalid sharding Shard={s} TotalShards={n}")
  else .ok ()

/-- `batchSize`. -/
def pageSize : ℤ := if d.batchSize ≤ 0 then 100 else d.batchSize

/-- `inShard`.  Division by zero is a panic. -/
def inShard (k : StreamKey) : Except Err Bool :=
  if d.totalShards ≤ 0 then .ok true
  else
    let n := UInt32.ofInt d.totalShards
    let h := fnvWrite (fnvWrite (fnvWrite 2166136261 k.1) "|") k.2
    if n = 0 then .error (.text "runtime error: integer divide by zero")
    else .ok (decide (((h % n).toNat : ℤ) = d.shard))

end Drain

/-! ### A Run with nothing in between -/

/-- What becomes of one delivery. -/
inductive Answer where
  /-- `PublishState` and the advance return nil. -/
  | delivered
  /-- `PublishState` returns an error. -/
  | refused
  /-- `PublishState` returns nil, and the advance an error. -/
  | unrecorded
  deriving DecidableEq, Repr

/-- A publisher, by what becomes of each of its calls: `answer k i` is the outcome of the call that
comes after `i` calls on the stream `k`. -/
abbrev Publisher := StreamKey → ℕ → Answer

/-- The state of a Run. -/
structure Progress (κ : Columns) where
  store : Store κ
  /-- What `PublishState` has been called on. -/
  calls : List StateEnvelope
  /-- The `RunResult` of the current batch. -/
  delivered : ℕ
  failed : ℕ
  /-- The result of the Run so far. -/
  total : ℕ

/-- How often `PublishState` has been called on the stream. -/
def Progress.tries (p : Progress κ) (k : StreamKey) : ℕ := p.calls.countP fun env => key env == k

namespace Drain

variable (d : Drain) (A : Adapter κ) (answer : Publisher) (now : Time)

/-- The loop of `runBatch` on a stream of the shard. -/
def deliver (p : Progress κ) (env : StateEnvelope) : Progress κ :=
  let called := { p with calls := p.calls ++ [env] }
  match answer (key env) (p.tries (key env)) with
  | .delivered =>
    match A.advanceStateStreamPosition now d.subscriberName (key env) env.version p.store with
    | .ok s => { called with store := s, delivered := p.delivered + 1 }
    | .error _ => { called with failed := p.failed + 1 }
  | .refused => { called with failed := p.failed + 1 }
  | .unrecorded => { called with failed := p.failed + 1 }

/-- One round of the loop of `runBatch`. -/
def runRow (p : Progress κ) (env : StateEnvelope) : Except Err (Progress κ) := do
  if ← d.inShard (key env) then return d.deliver A answer now p env else return p

/-- `runBatch`. -/
def runBatch (p : Progress κ) : Except Err (Progress κ) := do
  let envs ← (A.listStreamsBehind d.subscriberName d.tenant d.pageSize p.store).mapError
    (.wrap "state_stream: list streams behind")
  envs.foldlM (d.runRow A answer now) { p with delivered := 0, failed := 0 }

/-- The loop of `Run`: until a batch in which nothing was tried.  The result is `none` when the fuel
does not suffice. -/
def runBatches : ℕ → Progress κ → Option (Except Err (Progress κ))
  | 0, _ => none
  | fuel + 1, p =>
    match d.runBatch A answer now p with
    | .error e => some (.error e)
    | .ok p' =>
      let p' := { p' with total := p'.total + p'.delivered }
      if p'.delivered + p'.failed = 0 then some (.ok p') else runBatches fuel p'

/-- `Run`, on a store nobody else writes to. -/
def run (fuel : ℕ) (s : Store κ) : Option (Except Err (Progress κ)) :=
  match d.validate with
  | .error e => some (.error e)
  | .ok () => d.runBatches A answer now fuel ⟨s, [], 0, 0, 0⟩

end Drain

/-! ### Runners among appends, rebuilds and operators -/

/-- Where a runner is.  `tried` says that the batch has tried something. -/
inductive Runner where
  /-- Between two Runs. -/
  | idle
  /-- Before the next page is listed. -/
  | reading (d : Drain)
  /-- In the loop over a page. -/
  | rows (d : Drain) (tried : Bool) (rest : List StateEnvelope)
  /-- `PublishState` has returned nil, and the position is not advanced yet. -/
  | sent (d : Drain) (env : StateEnvelope) (rest : List StateEnvelope)

/-- What becomes of an advance. -/
inductive Write where
  | done
  /-- The statement has failed. -/
  | failed
  /-- The statement has taken effect, and an error is returned all the same. -/
  | unacknowledged
  deriving DecidableEq, Repr

/-- The steps of a runner. -/
inductive RunnerStep where
  /-- `Run` is called. -/
  | begin (d : Drain)
  /-- A page is listed. -/
  | page
  /-- The next stream of the page: it is skipped, or `PublishState` is called and returns. -/
  | row (published : Bool)
  /-- The position is advanced. -/
  | advance (now : Time) (w : Write)
  /-- The page is through. -/
  | endPage
  /-- The runner crashes, its context is cancelled, or its listing fails. -/
  | crash

/-- One step of a runner: where it is then, the tables, and what has been delivered. -/
def Runner.step (A : Adapter κ) (s : Store κ) :
    Runner → RunnerStep → Option (Runner × Store κ × List (String × StateEnvelope))
  | .idle, .begin d =>
    match d.validate with
    | .error _ => some (.idle, s, [])
    | .ok () => some (.reading d, s, [])
  | .reading d, .page =>
    match A.listStreamsBehind d.subscriberName d.tenant d.pageSize s with
    | .error _ => some (.idle, s, [])
    | .ok envs => some (.rows d false envs, s, [])
  | .rows d tried (env :: rest), .row published =>
    match d.inShard (key env) with
    | .error _ => some (.idle, s, [])
    | .ok false => some (.rows d tried rest, s, [])
    | .ok true =>
      if published then some (.sent d env rest, s, [(d.subscriberName, env)])
      else some (.rows d true rest, s, [])
  | .sent d env rest, .advance now w =>
    match w, A.advanceStateStreamPosition now d.subscriberName (key env) env.version s with
    | .failed, _ => some (.rows d true rest, s, [])
    | _, .error _ => some (.rows d true rest, s, [])
    | _, .ok s' => some (.rows d true rest, s', [])
  | .rows d tried [], .endPage => some (if tried then .reading d else .idle, s, [])
  | _, .crash => some (.idle, s, [])
  | _, _ => none

/-- The tables, the runners, and the deliveries: the subscriber, and what it was delivered. -/
structure Sys (κ : Columns) where
  store : Store κ
  runner : ℕ → Runner
  delivered : List (String × StateEnvelope)

/-- What can happen. -/
inductive Step where
  /-- A call of `Append`. -/
  | append (E : Engine) (p : AppendParams)
  /-- `UpsertCachedState`, as a rebuild calls it: at the version of an event. -/
  | upsert (en : Engine) (row : CachedState)
  /-- `WipeStateCacheForType`. -/
  | wipe (tenant typeURL : String)
  /-- A step of runner `i`. -/
  | drain (i : ℕ) (l : RunnerStep)
  /-- `ResetStateStreamSubscriber`. -/
  | reset (name tenant : String)
  /-- `ResetStateStreamSubscriberForStream`. -/
  | resetForStream (name : String) (k : StreamKey)

/-- The state after one step. -/
def Sys.next (A : Adapter κ) (H : Hasher) (σ : Sys κ) : Step → Option (Sys κ)
  | .append E p => some
    { σ with store := { σ.store with db := (append A.base H E p σ.store.db).2 } }
  | .upsert en row =>
    if row.version = 0 then none
    else some
      { σ with store := { σ.store with db := (upsertCachedState A.base en row σ.store.db).2 } }
  | .wipe tenant typeURL => some
    { σ with store := { σ.store with db := wipeStateCacheForType σ.store.db tenant typeURL } }
  | .drain i l => ((σ.runner i).step A σ.store l).map fun r =>
    { store := r.2.1
      runner := Function.update σ.runner i r.1
      delivered := σ.delivered ++ r.2.2 }
  | .reset name tenant =>
    match A.resetStateStreamSubscriber name tenant σ.store with
    | .error _ => some σ
    | .ok r => some { σ with store := r.2 }
  | .resetForStream name k =>
    match A.resetStateStreamSubscriberForStream name k σ.store with
    | .error _ => some σ
    | .ok s => some { σ with store := s }

/-- An empty store, and no Run in progress. -/
def Sys.empty : Sys κ := ⟨.empty, fun _ => .idle, []⟩

/-- Drains, appends, rebuilds and operators on one store. -/
def system (A : Adapter κ) (H : Hasher) : TS (Sys κ) Step where
  init σ := σ = .empty
  step σ l σ' := σ.next A H l = some σ'

/-! ### What a step does -/

/-- The steps of a runner, case by case. -/
inductive Runner.Moves (A : Adapter κ) (s : Store κ) :
    Runner → RunnerStep → Runner → Store κ → List (String × StateEnvelope) → Prop
  | begin {d : Drain} : d.validate = .ok () → Moves A s .idle (.begin d) (.reading d) s []
  | page {d : Drain} {envs : List StateEnvelope} :
    A.listStreamsBehind d.subscriberName d.tenant d.pageSize s = .ok envs →
    Moves A s (.reading d) .page (.rows d false envs) s []
  | skip {d : Drain} {tried published : Bool} {env : StateEnvelope} {rest : List StateEnvelope} :
    d.inShard (key env) = .ok false →
    Moves A s (.rows d tried (env :: rest)) (.row published) (.rows d tried rest) s []
  | sent {d : Drain} {tried : Bool} {env : StateEnvelope} {rest : List StateEnvelope} :
    d.inShard (key env) = .ok true →
    Moves A s (.rows d tried (env :: rest)) (.row true) (.sent d env rest) s
      [(d.subscriberName, env)]
  | refused {d : Drain} {tried : Bool} {env : StateEnvelope} {rest : List StateEnvelope} :
    d.inShard (key env) = .ok true →
    Moves A s (.rows d tried (env :: rest)) (.row false) (.rows d true rest) s []
  | advanced {d : Drain} {env : StateEnvelope} {rest : List StateEnvelope} {now : Time}
      {w : Write} {s' : Store κ} :
    A.advanceStateStreamPosition now d.subscriberName (key env) env.version s = .ok s' →
    Moves A s (.sent d env rest) (.advance now w) (.rows d true rest) s' []
  | unrecorded {d : Drain} {env : StateEnvelope} {rest : List StateEnvelope} {now : Time}
      {w : Write} : Moves A s (.sent d env rest) (.advance now w) (.rows d true rest) s []
  | again {d : Drain} : Moves A s (.rows d true []) .endPage (.reading d) s []
  | ended {d : Drain} : Moves A s (.rows d false []) .endPage .idle s []
  | stop {r : Runner} {l : RunnerStep} : Moves A s r l .idle s []

theorem Runner.moves_of_step {A : Adapter κ} {s : Store κ} {r : Runner} {l : RunnerStep}
    {res : Runner × Store κ × List (String × StateEnvelope)} (h : r.step A s l = some res) :
    r.Moves A s l res.1 res.2.1 res.2.2 := by
  unfold step at h
  split at h
  · split at h
    · obtain rfl := Option.some.inj h
      exact .stop
    · obtain rfl := Option.some.inj h
      exact .begin ‹_›
  · split at h
    · obtain rfl := Option.some.inj h
      exact .stop
    · obtain rfl := Option.some.inj h
      exact .page ‹_›
  · split at h
    · obtain rfl := Option.some.inj h
      exact .stop
    · obtain rfl := Option.some.inj h
      exact .skip ‹_›
    · split_ifs at h with hp
      · obtain rfl := Option.some.inj h
        subst hp
        exact .sent ‹_›
      · obtain rfl := Option.some.inj h
        rw [Bool.not_eq_true] at hp
        subst hp
        exact .refused ‹_›
  · split at h
    · obtain rfl := Option.some.inj h
      exact .unrecorded
    · obtain rfl := Option.some.inj h
      exact .unrecorded
    · obtain rfl := Option.some.inj h
      exact .advanced ‹_›
  · rename_i d tried
    obtain rfl := Option.some.inj h
    cases tried with
    | true => exact .again
    | false => exact .ended
  · obtain rfl := Option.some.inj h
    exact .stop
  · cases h

end EventStore.StateStream
