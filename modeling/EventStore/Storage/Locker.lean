import EventStore.Es.Types
import EventStore.LTS.Basic
import EventStore.SessionLock.Basic

/-!
# The lockers of the Postgres adapter

`TryAcquireDrainLock` and `ReleaseDrainLock`, and their twins for projections: a lock is an advisory
lock of the database, held by a session of the adapter's pool that is kept out of the pool
meanwhile.  The map `conns` of a locker says which session holds which lock.

The `Run` and `RunOnce` of drains, state stream drains and projection runtimes take a lock first and
release it in a `defer`, with the context they were called with.  That context may be cancelled at
any moment.  A statement with a context that is cancelled already is not sent and leaves the session
as it is; one whose context is cancelled while it waits for the answer costs the session, since the
driver closes the connection (`Sent`).

`lockSystem` has any number of such Runs on one adapter, beside a pool that opens and closes
sessions, and sessions of other processes.

* `Locker.Exact` : the sessions of the pool hold the locks of `conns`, each once.
* `exact_of_reachable` : it holds as long as every Run releases its lock before its context is
  cancelled, and then the lock is free when the Run returns; a Run whose context was cancelled
  leaves its lock with a session of the pool.
-/

namespace EventStore

namespace Postgres

/-! ### Locks -/

/-- `fnv.New64a`: the FNV-1a hash of the bytes of a text. -/
def fnv64a (s : String) : UInt64 :=
  s.toUTF8.data.toList.foldl (fun h b => (h ^^^ b.toUInt64) * 1099511628211) 14695981039346656037

/-- The two lockers. -/
inductive LockKind where
  | drain
  | projection
  deriving DecidableEq, Repr

/-- A locker, and a key in its map. -/
structure LockKey where
  kind : LockKind
  key : String
  deriving DecidableEq, Repr

/-- `drainLockKey` and `projectionLockKey`. -/
def LockKey.id : LockKey → ℤ
  | ⟨.drain, key⟩ => (fnv64a ("eventstore.outbox.drain:" ++ key)).toBitVec.toInt
  | ⟨.projection, key⟩ => (fnv64a ("eventstore.projection.runner:" ++ key)).toBitVec.toInt

/-- The locker's name in its error texts. -/
def LockKind.name : LockKind → String
  | .drain => "drain"
  | .projection => "projection"

/-- What `pool.Acquire` returns. -/
inductive Conn where
  | failed (err : Err)
  | got (c : ℕ)

/-- What becomes of a statement. -/
inductive Sent where
  | answered
  /-- The context is cancelled already: the statement does not reach the server. -/
  | notSent (err : Err)
  /-- The session is lost, for one because the context is cancelled before the answer. -/
  | broken (err : Err)

/-- An adapter with its pool, the locks of the server, and the Runs that hold a lock of the
adapter. -/
structure Locker where
  locks : SessionLocks ℕ ℤ
  /-- The sessions of the pool, those in use included. -/
  pool : List ℕ
  /-- `drainLocks.conns` and `projectionLocks.conns`. -/
  conns : List (LockKey × ℕ)
  /-- The Runs that hold their lock, and whether their context is cancelled. -/
  running : List (LockKey × Bool)

namespace Locker

/-- `pool.Acquire` may return the session: one of the pool that no locker keeps, or a new one. -/
def Available (s : Locker) (c : ℕ) : Prop :=
  c ∈ s.pool ∧ c ∉ s.conns.map Prod.snd ∨ c ∉ s.pool ∧ ∀ p ∈ s.locks.held, p.1 ≠ c

instance (s : Locker) (c : ℕ) : Decidable (s.Available c) :=
  inferInstanceAs (Decidable
    (c ∈ s.pool ∧ c ∉ s.conns.map Prod.snd ∨ c ∉ s.pool ∧ ∀ p ∈ s.locks.held, p.1 ≠ c))

/-- `pool.Acquire` may return this. -/
def Offers (s : Locker) : Conn → Prop
  | .failed _ => True
  | .got c => s.Available c

instance (s : Locker) (conn : Conn) : Decidable (s.Offers conn) :=
  match conn with
  | .failed _ => inferInstanceAs (Decidable True)
  | .got c => inferInstanceAs (Decidable (s.Available c))

/-- The session is in the pool. -/
def join (s : Locker) (c : ℕ) : Locker :=
  { s with pool := if c ∈ s.pool then s.pool else c :: s.pool }

/-- The session ends. -/
def drop (s : Locker) (c : ℕ) : Locker :=
  { s with
    locks := s.locks.close c
    pool := s.pool.filter (· ≠ c) }

/-- `TryAcquireDrainLock` and `TryAcquireProjectionLock`. -/
def tryAcquire (k : LockKey) (conn : Conn) (sent : Sent) (s : Locker) : Except Err Bool × Locker :=
  let quoted := k.key.quote
  if k ∈ s.conns.map Prod.fst then (.ok false, s)
  else
    match conn with
    | .failed e =>
      let kind := k.kind.name
      (.error (.wrap s!"acquire pool conn for {kind} lock {quoted}" e), s)
    | .got c =>
      let s := s.join c
      match sent with
      | .notSent e => (.error (.wrap s!"pg_try_advisory_lock({quoted})" e), s)
      | .broken e => (.error (.wrap s!"pg_try_advisory_lock({quoted})" e), s.drop c)
      | .answered =>
        match s.locks.tryLock c k.id with
        | none => (.ok false, s)
        | some locks => (.ok true, { s with locks := locks, conns := (k, c) :: s.conns })

/-- `ReleaseDrainLock` and `ReleaseProjectionLock`: the entry goes and the session returns to the
pool, whatever becomes of the statement. -/
def release (k : LockKey) (sent : Sent) (s : Locker) : Except Err Unit × Locker :=
  let quoted := k.key.quote
  match s.conns.find? fun e => e.1 = k with
  | none => (.ok (), s)
  | some (_, c) =>
    let s := { s with conns := s.conns.filter fun e => e.1 ≠ k }
    match sent with
    | .notSent e => (.error (.wrap s!"pg_advisory_unlock({quoted})" e), s)
    | .broken e => (.error (.wrap s!"pg_advisory_unlock({quoted})" e), s.drop c)
    | .answered => (.ok (), { s with locks := s.locks.unlock c k.id })

end Locker

/-! ### The system -/

/-- A drain, a state stream drain, or a projection runtime, with its `LockKey`. -/
inductive Runner where
  | drain (lockKey : String)
  | stateStream (lockKey subscriberName tenant : String)
  | projection (lockKey : String)

/-- The lock a Run takes; none without a `LockKey`. -/
def Runner.lock : Runner → Option LockKey
  | .drain lockKey => if lockKey = "" then none else some ⟨.drain, lockKey⟩
  | .stateStream lockKey name tenant =>
    if lockKey = "" then none
    else some ⟨.projection, "state_stream.drain:" ++ name ++ ":" ++ tenant⟩
  | .projection lockKey => if lockKey = "" then none else some ⟨.projection, lockKey⟩

/-- What a session of another process does. -/
inductive ForeignOp where
  | tryLock (l : ℤ)
  | unlock (l : ℤ)
  | close

/-- The steps. -/
inductive LockStep where
  /-- A Run or RunOnce starts: `acquireLock`. -/
  | start (r : Runner) (conn : Conn) (sent : Sent)
  /-- The context of a Run is cancelled. -/
  | cancel (k : LockKey)
  /-- A Run returns, on whatever path: the deferred release.  The session may be lost in it. -/
  | finish (k : LockKey) (lost : Option Err)
  /-- The pool opens a session, or closes one that no locker keeps. -/
  | openSession (c : ℕ)
  | closeSession (c : ℕ)
  /-- A session of another process acts. -/
  | foreign (c : ℕ) (op : ForeignOp)

namespace Locker

/-- What becomes of the statement of the deferred release. -/
def unlockSent (cancelled : Bool) (lost : Option Err) : Sent :=
  if cancelled then .notSent (.text "context canceled")
  else
    match lost with
    | some e => .broken e
    | none => .answered

/-- A Run that got its lock goes on, any other one returns. -/
def entered (k : LockKey) : Except Err Bool × Locker → Locker
  | (.ok true, s) => { s with running := (k, false) :: s.running }
  | (.ok false, s) => s
  | (.error _, s) => s

/-- A Run that holds its lock returns. -/
def left (s : Locker) (k : LockKey) (sent : Sent) : Locker :=
  { (s.release k sent).2 with
    running := (s.release k sent).2.running.filter fun e => e.1 ≠ k }

/-- The state after a step; none if the step is not possible. -/
def next (s : Locker) : LockStep → Option Locker
  | .start r conn sent =>
    match r.lock with
    | none => some s
    | some k =>
      if s.Offers conn then some (entered k (s.tryAcquire k conn sent)) else none
  | .cancel k =>
    some { s with running := s.running.map fun e => (e.1, e.2 || decide (e.1 = k)) }
  | .finish k lost =>
    match s.running.find? fun e => e.1 = k with
    | none => none
    | some (_, cancelled) => some (s.left k (unlockSent cancelled lost))
  | .openSession c => if c ∉ s.pool ∧ s.Available c then some (s.join c) else none
  | .closeSession c => if c ∈ s.pool ∧ s.Available c then some (s.drop c) else none
  | .foreign c op =>
    if c ∈ s.pool then none
    else
      match op with
      | .tryLock l => some { s with locks := (s.locks.tryLock c l).getD s.locks }
      | .unlock l => some { s with locks := s.locks.unlock c l }
      | .close => some { s with locks := s.locks.close c }

end Locker

/-- Runs on one adapter.  It starts with an empty pool; what other processes hold is arbitrary. -/
def lockSystem : TS Locker LockStep where
  init s := s.pool = [] ∧ s.conns = [] ∧ s.running = []
  step s l s' := s.next l = some s'

namespace Locker

/-- The sessions of the pool hold the locks of `conns`, each once. -/
def Exact (s : Locker) : Prop :=
  (s.locks.heldBy s.pool).Perm (s.conns.map fun e => (e.2, e.1.id))

/-! ### What the operations keep -/

/-- The map is exact and each of its sessions is in the pool; the Runs with a lock are those of the
map. -/
structure Inv (s : Locker) : Prop where
  exact : s.Exact
  keys : (s.conns.map Prod.fst).Nodup
  sessions : (s.conns.map Prod.snd).Nodup
  pooled : ∀ e ∈ s.conns, e.2 ∈ s.pool
  running : (s.running.map Prod.fst).Perm (s.conns.map Prod.fst)

variable {s s' : Locker} {k : LockKey} {c : ℕ}

/-- A session that no locker keeps holds nothing. -/
theorem Inv.holds_nothing (h : s.Inv) (hc : c ∉ s.conns.map Prod.snd) :
    ∀ p ∈ s.locks.heldBy s.pool, p.1 ≠ c := by
  intro p hp heq
  obtain ⟨e, he, rfl⟩ := List.mem_map.1 (h.exact.subset hp)
  exact hc (heq ▸ List.mem_map_of_mem he)

theorem Available.not_kept (h : s.Inv) (hc : s.Available c) : c ∉ s.conns.map Prod.snd := by
  rcases hc with ⟨-, hc⟩ | ⟨hc, -⟩
  · exact hc
  · intro hmem
    obtain ⟨e, he, rfl⟩ := List.mem_map.1 hmem
    exact hc (h.pooled e he)

theorem mem_join : c ∈ (s.join c).pool := by
  unfold join
  by_cases hc : c ∈ s.pool <;> simp [hc]

theorem Inv.join (h : s.Inv) (hc : s.Available c) : (s.join c).Inv := by
  by_cases hp : c ∈ s.pool
  · have hjoin : s.join c = s := by simp [Locker.join, hp]
    rwa [hjoin]
  · have hfresh : ∀ p ∈ s.locks.held, p.1 ≠ c := (hc.resolve_left fun h => hp h.1).2
    have hjoin : s.join c = { s with pool := c :: s.pool } := by simp [Locker.join, hp]
    rw [hjoin]
    refine ⟨?_, h.keys, h.sessions, fun e he => List.mem_cons_of_mem _ (h.pooled e he), h.running⟩
    have := h.exact
    rwa [Exact, ← SessionLocks.heldBy_cons hfresh] at this

theorem Inv.drop (h : s.Inv) (hc : c ∉ s.conns.map Prod.snd) : (s.drop c).Inv := by
  refine ⟨?_, h.keys, h.sessions, fun e he => ?_, h.running⟩
  · have hself : (s.locks.heldBy s.pool).filter (fun p => decide (p.1 ≠ c)) =
        s.locks.heldBy s.pool :=
      List.filter_eq_self.2 fun p hp => decide_eq_true (h.holds_nothing hc p hp)
    rw [Exact, Locker.drop, SessionLocks.heldBy_close_filter, hself]
    exact h.exact
  · have hne : e.2 ≠ c := fun heq => hc (heq ▸ List.mem_map_of_mem he)
    exact List.mem_filter.2 ⟨h.pooled e he, decide_eq_true hne⟩

theorem entered_of_ne {r : Except Err Bool} (hr : r ≠ .ok true) : entered k (r, s) = s := by
  rcases r with e | b
  · rfl
  · cases b with
    | false => rfl
    | true => exact absurd rfl hr

/-- What `tryAcquire` can do. -/
theorem tryAcquire_cases {conn : Conn} (k : LockKey) (sent : Sent) (hconn : s.Offers conn) :
    (∃ r, r ≠ .ok true ∧ s.tryAcquire k conn sent = (r, s)) ∨
    (∃ r c, r ≠ .ok true ∧ s.Available c ∧
      (s.tryAcquire k conn sent = (r, s.join c) ∨
        s.tryAcquire k conn sent = (r, (s.join c).drop c))) ∨
    (∃ c locks, k ∉ s.conns.map Prod.fst ∧ s.Available c ∧
      s.locks.tryLock c k.id = some locks ∧
      s.tryAcquire k conn sent =
        (.ok true, { s.join c with locks := locks, conns := (k, c) :: s.conns })) := by
  unfold tryAcquire
  by_cases hk : k ∈ s.conns.map Prod.fst
  · exact .inl ⟨_, by simp, if_pos hk⟩
  · dsimp only
    rw [if_neg hk]
    cases conn with
    | failed e => exact .inl ⟨_, by simp, rfl⟩
    | got c =>
      cases sent with
      | notSent e => exact .inr (.inl ⟨_, c, by simp, hconn, .inl rfl⟩)
      | broken e => exact .inr (.inl ⟨_, c, by simp, hconn, .inr rfl⟩)
      | answered =>
        dsimp only
        cases hl : (s.join c).locks.tryLock c k.id with
        | none => exact .inr (.inl ⟨_, c, by simp, hconn, .inl rfl⟩)
        | some locks => exact .inr (.inr ⟨c, locks, hk, hconn, hl, rfl⟩)

/-- A Run that starts keeps the map exact, whatever becomes of its statement. -/
theorem Inv.entered {conn : Conn} {sent : Sent} (h : s.Inv) (hconn : s.Offers conn) :
    (entered k (s.tryAcquire k conn sent)).Inv := by
  rcases tryAcquire_cases k sent hconn with
    ⟨r, hr, heq⟩ | ⟨r, c, hr, hc, heq | heq⟩ | ⟨c, locks, hk, hc, hl, heq⟩
  · rw [heq, entered_of_ne hr]
    exact h
  · rw [heq, entered_of_ne hr]
    exact h.join hc
  · rw [heq, entered_of_ne hr]
    have hkept := hc.not_kept h
    exact (h.join hc).drop hkept
  · rw [heq]
    have hj := h.join hc
    refine ⟨?_, ?_, ?_, ?_, ?_⟩
    · rw [Exact, Locker.entered, SessionLocks.heldBy_tryLock_of_mem hl mem_join, List.map_cons]
      exact hj.exact.cons _
    · exact List.nodup_cons.2 ⟨hk, h.keys⟩
    · exact List.nodup_cons.2 ⟨hc.not_kept h, h.sessions⟩
    · exact List.forall_mem_cons.2 ⟨mem_join, hj.pooled⟩
    · exact h.running.cons k

/-! ### The release -/

/-- The map without one of its entries. -/
theorem Inv.conns_perm (h : s.Inv) (he : (k, c) ∈ s.conns) :
    s.conns.Perm ((k, c) :: s.conns.filter fun e => e.1 ≠ k) := by
  have hnodup : s.conns.Nodup := .of_map _ h.keys
  have herase : s.conns.erase (k, c) = s.conns.filter fun e => e.1 ≠ k := by
    rw [hnodup.erase_eq_filter]
    refine List.filter_congr fun e hmem => ?_
    by_cases hek : e.1 = k
    · have : e = (k, c) := List.inj_on_of_nodup_map h.keys hmem he hek
      simp [this]
    · have : e ≠ (k, c) := fun heq => hek (congrArg Prod.fst heq)
      simp [this, hek]
  rw [← herase]
  exact List.perm_cons_erase he

/-- What the pool holds besides the lock of an entry. -/
theorem Inv.heldBy_perm (h : s.Inv) (he : (k, c) ∈ s.conns) :
    (s.locks.heldBy s.pool).Perm
      ((c, k.id) :: (s.conns.filter fun e => e.1 ≠ k).map fun e => (e.2, e.1.id)) :=
  h.exact.trans ((h.conns_perm he).map fun e => (e.2, e.1.id))

theorem Inv.mem_held (h : s.Inv) (he : (k, c) ∈ s.conns) : (c, k.id) ∈ s.locks.held :=
  (SessionLocks.mem_heldBy.1 ((h.heldBy_perm he).symm.subset List.mem_cons_self)).1

/-- The lock was taken once. -/
theorem Inv.count_held (h : s.Inv) (he : (k, c) ∈ s.conns) :
    s.locks.held.count (c, k.id) = 1 := by
  have hcount : (s.locks.heldBy s.pool).count (c, k.id) = s.locks.held.count (c, k.id) :=
    List.count_filter (decide_eq_true (h.pooled _ he))
  have hnodup : (s.conns.map fun e => (e.2, e.1.id)).Nodup := by
    refine .of_map Prod.fst ?_
    rw [List.map_map]
    exact h.sessions
  rw [← hcount, h.exact.count_eq]
  exact List.count_eq_one_of_mem hnodup (List.mem_map_of_mem (f := fun e => (e.2, e.1.id)) he)

/-- The entries that stay are of other sessions. -/
theorem Inv.ne_of_mem_filter (h : s.Inv) (he : (k, c) ∈ s.conns) {e : LockKey × ℕ}
    (hmem : e ∈ s.conns.filter fun e => e.1 ≠ k) : e.2 ≠ c := by
  obtain ⟨hmem, hne⟩ := List.mem_filter.1 hmem
  intro heq
  have : e = (k, c) := List.inj_on_of_nodup_map h.sessions hmem he heq
  exact of_decide_eq_true hne (congrArg Prod.fst this)

theorem release_eq (he : (k, c) ∈ s.conns) (h : s.Inv) (sent : Sent) :
    (s.release k sent).2 = match sent with
      | .notSent _ => { s with conns := s.conns.filter fun e => e.1 ≠ k }
      | .broken _ => { s with conns := s.conns.filter fun e => e.1 ≠ k }.drop c
      | .answered =>
        { s with conns := s.conns.filter fun e => e.1 ≠ k, locks := s.locks.unlock c k.id } := by
  have hfind : (s.conns.find? fun e => e.1 = k) = some (k, c) := by
    rcases hf : s.conns.find? fun e => e.1 = k with _ | e
    · simpa using List.find?_eq_none.1 hf _ he
    · have hek : e.1 = k := by simpa using List.find?_some hf
      rw [hf, List.inj_on_of_nodup_map h.keys (List.mem_of_find?_eq_some hf) he hek]
  unfold release
  rw [hfind]
  cases sent <;> rfl

theorem running_release (k : LockKey) (sent : Sent) : (s.release k sent).2.running = s.running := by
  unfold release
  dsimp only
  split
  · rfl
  · cases sent <;> rfl

/-- The parts of the invariant that do not depend on what became of the statement. -/
theorem Inv.left_of_exact (h : s.Inv) {sent : Sent}
    (hexact : (s.left k sent).Exact)
    (hconns : (s.left k sent).conns = s.conns.filter fun e => e.1 ≠ k)
    (hpool : ∀ e ∈ s.conns.filter fun e => e.1 ≠ k, e.2 ∈ (s.left k sent).pool) :
    (s.left k sent).Inv := by
  have hsub : (s.conns.filter fun e => e.1 ≠ k).Sublist s.conns := List.filter_sublist
  refine ⟨hexact, ?_, ?_, ?_, ?_⟩
  · rw [hconns]
    exact h.keys.sublist (hsub.map _)
  · rw [hconns]
    exact h.sessions.sublist (hsub.map _)
  · rw [hconns]
    exact hpool
  · have hperm := h.running.filter fun k' => decide (k' ≠ k)
    rw [List.filter_map, List.filter_map] at hperm
    rw [hconns, left, running_release]
    exact hperm

/-- The statement was answered: the map is exact, and the lock is free. -/
theorem Inv.left_answered (h : s.Inv) (he : (k, c) ∈ s.conns) :
    (s.left k .answered).Inv ∧ (s.left k .answered).locks.Free k.id := by
  have heq := release_eq he h .answered
  have hfree : (s.left k .answered).locks.Free k.id := by
    rw [left, heq]
    exact SessionLocks.free_unlock (h.mem_held he) (h.count_held he)
  refine ⟨h.left_of_exact ?_ ?_ ?_, hfree⟩
  · rw [Exact, left, heq]
    have hperm := SessionLocks.heldBy_unlock_of_mem (h.mem_held he) (h.pooled _ he)
    exact (hperm.symm.trans (h.heldBy_perm he)).cons_inv
  · rw [left, heq]
  · rw [left, heq]
    exact fun e hmem => h.pooled e (List.mem_filter.1 hmem).1

/-- The session was lost: so is what it held. -/
theorem Inv.left_broken (h : s.Inv) (he : (k, c) ∈ s.conns) (err : Err) :
    (s.left k (.broken err)).Inv ∧ (s.left k (.broken err)).locks.Free k.id := by
  have heq := release_eq he h (.broken err)
  have hfree : (s.left k (.broken err)).locks.Free k.id := by
    rw [left, heq]
    exact SessionLocks.free_close (h.mem_held he)
  refine ⟨h.left_of_exact ?_ ?_ ?_, hfree⟩
  · have hothers : ((s.conns.filter fun e => e.1 ≠ k).map fun e => (e.2, e.1.id)).filter
        (fun p => decide (p.1 ≠ c)) =
          (s.conns.filter fun e => e.1 ≠ k).map fun e => (e.2, e.1.id) := by
      refine List.filter_eq_self.2 fun p hp => ?_
      obtain ⟨e, hmem, rfl⟩ := List.mem_map.1 hp
      exact decide_eq_true (h.ne_of_mem_filter he hmem)
    have hperm := (h.heldBy_perm he).filter fun p => decide (p.1 ≠ c)
    rw [List.filter_cons_of_neg (by simp), hothers] at hperm
    rw [Exact, left, heq, Locker.drop, SessionLocks.heldBy_close_filter]
    exact hperm
  · rw [left, heq, Locker.drop]
  · rw [left, heq, Locker.drop]
    intro e hmem
    exact List.mem_filter.2 ⟨h.pooled e (List.mem_filter.1 hmem).1,
      decide_eq_true (h.ne_of_mem_filter he hmem)⟩

/-- The statement was not sent: the session is back in the pool with the lock. -/
theorem Inv.left_notSent (h : s.Inv) (he : (k, c) ∈ s.conns) (err : Err) :
    ¬ (s.left k (.notSent err)).Exact ∧ ¬ (s.left k (.notSent err)).locks.Free k.id := by
  have heq := release_eq he h (.notSent err)
  constructor
  · intro hexact
    rw [Exact, left, heq] at hexact
    dsimp only at hexact
    have hlen := (hexact.symm.trans (h.heldBy_perm he)).length_eq
    rw [List.length_cons] at hlen
    omega
  · intro hfree
    rw [left, heq] at hfree
    exact hfree c (h.mem_held he)

/-! ### Runs -/

/-- A Run returns before its context is cancelled. -/
def InTime (s : Locker) : LockStep → Prop
  | .finish k _ => (k, true) ∉ s.running
  | .start .. => True
  | .cancel _ => True
  | .openSession _ => True
  | .closeSession _ => True
  | .foreign .. => True

/-- A Run that returns has its lock in the map. -/
theorem Inv.finish_eq (h : s.Inv) {lost : Option Err} (hstep : s.next (.finish k lost) = some s') :
    ∃ c cancelled, (k, c) ∈ s.conns ∧ (k, cancelled) ∈ s.running ∧
      s' = s.left k (unlockSent cancelled lost) := by
  simp only [next] at hstep
  rcases hf : s.running.find? fun e => e.1 = k with _ | ⟨k', cancelled⟩
  · simp only [hf] at hstep
    cases hstep
  · have hmem := List.mem_of_find?_eq_some hf
    obtain rfl : k' = k := by simpa using List.find?_some hf
    simp only [hf] at hstep
    obtain ⟨⟨k', c⟩, he, rfl⟩ := List.mem_map.1 (h.running.subset (List.mem_map_of_mem hmem))
    exact ⟨c, cancelled, he, hmem, (Option.some.inj hstep).symm⟩

theorem Inv.finish (h : s.Inv) {lost : Option Err} (hstep : s.next (.finish k lost) = some s')
    (hin : s.InTime (.finish k lost)) : s'.Inv ∧ s'.locks.Free k.id := by
  obtain ⟨c, cancelled, he, hrun, rfl⟩ := h.finish_eq hstep
  cases cancelled with
  | true => exact absurd hrun hin
  | false =>
    cases lost with
    | none => exact h.left_answered he
    | some err => exact h.left_broken he err

/-- Other processes do not matter. -/
theorem Inv.foreign (h : s.Inv) {op : ForeignOp} (hstep : s.next (.foreign c op) = some s') :
    s'.Inv := by
  simp only [next] at hstep
  split_ifs at hstep with hc
  cases op with
  | tryLock l =>
    obtain rfl := Option.some.inj hstep
    refine ⟨?_, h.keys, h.sessions, h.pooled, h.running⟩
    cases hl : s.locks.tryLock c l with
    | none => exact h.exact
    | some locks =>
      rw [Exact, Option.getD_some, SessionLocks.heldBy_tryLock_of_not_mem hl hc]
      exact h.exact
  | unlock l =>
    obtain rfl := Option.some.inj hstep
    exact ⟨(SessionLocks.heldBy_unlock_of_not_mem hc).symm.trans h.exact, h.keys, h.sessions,
      h.pooled, h.running⟩
  | close =>
    obtain rfl := Option.some.inj hstep
    refine ⟨?_, h.keys, h.sessions, h.pooled, h.running⟩
    rw [Exact, SessionLocks.heldBy_close_of_not_mem hc]
    exact h.exact

theorem Inv.step (h : s.Inv) {l : LockStep} (hin : s.InTime l) (hstep : s.next l = some s') :
    s'.Inv := by
  cases l with
  | start r conn sent =>
    simp only [next] at hstep
    cases hr : r.lock with
    | none =>
      simp only [hr] at hstep
      exact Option.some.inj hstep ▸ h
    | some k =>
      simp only [hr] at hstep
      split_ifs at hstep with hconn
      obtain rfl := Option.some.inj hstep
      exact h.entered hconn
  | cancel k =>
    obtain rfl := Option.some.inj hstep
    refine ⟨h.exact, h.keys, h.sessions, h.pooled, ?_⟩
    rw [List.map_map]
    exact h.running
  | finish k lost => exact (h.finish hstep hin).1
  | openSession c =>
    simp only [next] at hstep
    split_ifs at hstep with hc
    exact Option.some.inj hstep ▸ h.join hc.2
  | closeSession c =>
    simp only [next] at hstep
    split_ifs at hstep with hc
    exact Option.some.inj hstep ▸ h.drop (hc.2.not_kept h)
  | foreign c op => exact h.foreign hstep

theorem inv_of_reachable (hs : (lockSystem.restrict InTime).Reachable s) : s.Inv := by
  refine hs.invariant (I := Inv) (fun s h => ?_) fun s l s' _ h hstep => h.step hstep.1 hstep.2
  obtain ⟨hpool, hconns, hrunning⟩ := h
  refine ⟨?_, ?_, ?_, ?_, ?_⟩ <;> simp [Exact, SessionLocks.heldBy, hpool, hconns, hrunning]

/-- As long as every Run returns before its context is cancelled, the sessions of the pool hold the
locks of the map.  The next Run to return keeps it so, leaves its lock free, and lets any session
take it, exactly if it returns before its context is cancelled, too. -/
theorem exact_of_reachable (hs : (lockSystem.restrict InTime).Reachable s) :
    s.Exact ∧ ∀ k lost s', s.next (.finish k lost) = some s' →
      (s.InTime (.finish k lost) ↔
        s'.Exact ∧ s'.locks.Free k.id ∧ ∀ c, (s'.locks.tryLock c k.id).isSome = true) := by
  have h := inv_of_reachable hs
  refine ⟨h.exact, fun k lost s' hstep => ⟨fun hin => ?_, fun hex hrun => ?_⟩⟩
  · obtain ⟨hinv, hfree⟩ := h.finish hstep hin
    exact ⟨hinv.exact, hfree, hfree.tryLock⟩
  · obtain ⟨c, cancelled, he, hrun', rfl⟩ := h.finish_eq hstep
    have hkeys : (s.running.map Prod.fst).Nodup := h.running.nodup_iff.2 h.keys
    obtain rfl : cancelled = true :=
      congrArg Prod.snd (List.inj_on_of_nodup_map hkeys hrun' hrun rfl)
    exact (h.left_notSent he _).1 hex.1

/-- An adapter before its first call, with no locks on the server. -/
def idle : Locker := ⟨.empty, [], [], []⟩

/-- The lock of a drain. -/
def drainKey : LockKey := ⟨.drain, "outbox-drain"⟩

theorem drain_holds_lock : ∃ s : Locker,
    ((lockSystem.restrict InTime).Reachable s ∧ s.running = [(drainKey, false)]) ∧ s.Exact := by
  obtain ⟨s, hs⟩ : ∃ s, idle.next (.start (.drain "outbox-drain") (.got 0) .answered) = some s :=
    ⟨_, rfl⟩
  have hrun : (idle.next (.start (.drain "outbox-drain") (.got 0) .answered)).map Locker.running =
      some [(drainKey, false)] := by decide +kernel
  have hreach : (lockSystem.restrict InTime).Reachable s :=
    .step (l := .start (.drain "outbox-drain") (.got 0) .answered) (.init ⟨rfl, rfl, rfl⟩)
      ⟨trivial, hs⟩
  rw [hs] at hrun
  exact ⟨s, ⟨hreach, Option.some.inj hrun⟩, (exact_of_reachable hreach).1⟩

/-- A Run of a drain that ends because its context is cancelled. -/
def cancelledRun : List LockStep :=
  [.start (.drain "outbox-drain") (.got 0) .answered, .cancel drainKey, .finish drainKey none]

/-- A drain whose context is cancelled returns, and its lock stays with a session of the pool: no
other session can take it. -/
theorem cancelled_drain_keeps_lock : ∃ s : Locker, lockSystem.Reachable s ∧ s.running = [] ∧
    ¬ s.Exact ∧ (s.locks.tryLock 7 drainKey.id).isSome = false := by
  obtain ⟨s, hs⟩ : ∃ s, TS.exec Locker.next idle cancelledRun = some s := ⟨_, rfl⟩
  have hobs : (TS.exec Locker.next idle cancelledRun).map (fun s => decide (s.running = [] ∧
      s.conns = [] ∧ s.locks.heldBy s.pool = [(0, drainKey.id)] ∧
      (s.locks.tryLock 7 drainKey.id).isSome = false)) = some true := by decide +kernel
  rw [hs, Option.map_some] at hobs
  obtain ⟨hrunning, hconns, hheld, hother⟩ := of_decide_eq_true (Option.some.inj hobs)
  have hreach : lockSystem.Reachable s := .exec (.init ⟨rfl, rfl, rfl⟩) (fun _ _ _ _ h => h) hs
  refine ⟨s, hreach, hrunning, fun hexact => ?_, hother⟩
  rw [Exact, hconns, hheld] at hexact
  exact absurd hexact.length_eq (by simp)

end Locker

end Postgres

end EventStore
