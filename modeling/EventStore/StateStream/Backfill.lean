import EventStore.StateStream.Rounds

/-!
# Backfilling a subscriber

`ResetStateStreamSubscriber` deletes positions, and the next Run of the drain is to deliver the
current state of every stream of its scope and shard once (ADR 0024).  Two things are in the way:

* the reset takes the empty tenant literally, where the listing takes it for all tenants, so that
  the positions of the tenants stay;
* the limit of a page is applied before streams of other shards are skipped, so that a page full of
  those ends the Run.

`backfills_iff` says exactly when a backfill is complete all the same.
-/

namespace EventStore.StateStream

variable {κ : Columns}

/-- The row is in the scope of the drain. -/
def Drain.Covers (d : Drain) (r : StateCacheRow κ) : Prop := d.tenant = "" ∨ r.tenantID = d.tenant

/-- The store after the reset. -/
def Drain.rewound (d : Drain) (s : Store κ) : Store κ :=
  { s with positions := s.positions.delete (Position.ofSubscriber d.subscriberName d.tenant) }

/-- A publisher that always succeeds. -/
def accepting : Publisher := fun _ _ => .delivered

namespace Drain

variable {d : Drain} {A : Adapter κ} {now : Time} {s : Store κ} {n : ℕ} {r : StateCacheRow κ}
  {p p' : Progress κ}

theorem lastDelivered_rewound {k : StreamKey} :
    (d.rewound s).lastDelivered d.subscriberName k =
      if k.1 = d.tenant then 0 else s.lastDelivered d.subscriberName k := by
  refine Store.lastDelivered_delete fun p hp => ?_
  rw [Position.isFor_iff] at hp
  rw [Position.ofSubscriber, Bool.and_eq_true, beq_iff_eq, beq_iff_eq, hp.1, hp.2.1]
  exact and_iff_right rfl

theorem behind_rewound : (d.rewound s).behind d.subscriberName d.tenant r = true ↔
    (if r.tenantID = d.tenant then 0 else s.lastDelivered d.subscriberName (rowKey r)) <
      r.version ∧ d.Covers r := by
  rw [Store.behind_iff, lastDelivered_rewound]
  rfl

/-- A batch that succeeds has been answered a listing, and had no shard to compute if this cannot
be done. -/
theorem lists_of_runBatch {answer : Publisher} (h : d.runBatch A answer now p = .ok p') :
    ∃ n, d.Lists A n ∧
      (d.Sharded ∨ (A.rowsBehind d.subscriberName d.tenant p.store).take n = []) := by
  cases hlist : A.listStreamsBehind d.subscriberName d.tenant d.pageSize p.store with
  | error e =>
    rw [runBatch, hlist] at h
    cases h
  | ok envs =>
    obtain ⟨n, hl⟩ := lists_of_listed hlist
    refine ⟨n, hl, or_iff_not_imp_left.2 fun hs => ?_⟩
    have hrows := (listStreamsBehind_eq_ok hl).1 hlist
    cases envs with
    | nil => exact List.forall₂_nil_right_iff.1 hrows
    | cons env envs =>
      obtain ⟨e, he⟩ := runBatch_of_not_sharded answer now hs hlist
      rw [h] at he
      cases he

/-- The Run after the reset has a listing. -/
theorem lists_of_run {answer : Publisher} {fuel : ℕ}
    (h : d.run A answer now fuel s = some (.ok p)) : d.validate = .ok () ∧
      d.runBatches A answer now fuel (begun s) = some (.ok p) ∧ ∃ n, d.Lists A n ∧
        (d.Sharded ∨ (A.rowsBehind d.subscriberName d.tenant s).take n = []) := by
  unfold run at h
  split at h
  · cases h
  · rename_i hv
    refine ⟨hv, h, ?_⟩
    cases fuel with
    | zero => cases h
    | succ fuel =>
      rw [runBatches] at h
      split at h
      · cases h
      · rename_i hbatch
        exact lists_of_runBatch hbatch

theorem runBatches_of_nil {answer : Publisher}
    (h : A.listStreamsBehind d.subscriberName d.tenant d.pageSize s = .ok []) :
    d.runBatches A answer now 1 (begun s) = some (.ok (begun s)) := by
  have hbatch : d.runBatch A answer now (begun s) = .ok (begun s) := by
    rw [runBatch]
    change ((A.listStreamsBehind d.subscriberName d.tenant d.pageSize s).mapError _ >>= _) = _
    rw [h]
    rfl
  rw [runBatches, hbatch]
  rfl

/-- A stream of the cache is behind when its key is in the queue. -/
theorem mem_queue_iff (hr : r ∈ p.store.db.stateCache.rows) :
    rowKey r ∈ (d.queue A p).waiting ↔ p.store.behind d.subscriberName d.tenant r = true := by
  constructor
  · intro h
    obtain ⟨r', hr', heq⟩ := List.mem_map.1 h
    obtain ⟨hmem, hbehind⟩ := Adapter.mem_rowsBehind.1 hr'
    rwa [eq_of_rowKey hmem hr heq] at hbehind
  · intro h
    exact List.mem_map_of_mem (Adapter.mem_rowsBehind.2 ⟨hr, h⟩)

/-- The one call on a stream is of its cached state. -/
theorem calls_of_tries (hended : d.Ended A accepting n (begun s) p)
    (hr : r ∈ s.db.stateCache.rows) (htries : p.tries (rowKey r) = 1) :
    ∃ env, A.toEnvelope r = .ok env ∧
      p.calls.filter (fun e => key e == rowKey r) = [env] := by
  obtain ⟨envs, hcalls, hread⟩ := hended.calls
  rw [Progress.tries, List.countP_eq_length_filter] at htries
  obtain ⟨env, henv⟩ := List.length_eq_one_iff.1 htries
  have hmem : env ∈ p.calls.filter fun e => key e == rowKey r :=
    henv ▸ List.mem_singleton_self env
  obtain ⟨hcalled, hkey⟩ := List.mem_filter.1 hmem
  rw [hcalls] at hcalled
  obtain ⟨r', hr', hread⟩ := hread env hcalled
  have hkey' := (Adapter.key_of_toEnvelope hread).1
  obtain rfl := eq_of_rowKey (s := s) hr' hr (hkey'.symm.trans (eq_of_beq hkey))
  exact ⟨env, hread, henv⟩

/-- What a stream needs to be delivered by the Run after the reset: it is behind, its position can
be advanced, and fewer streams of other shards than a page holds come before it. -/
def Reaches (d : Drain) (A : Adapter κ) (n : ℕ) (s : Store κ) (r : StateCacheRow κ) : Prop :=
  (if r.tenantID = d.tenant then 0 else s.lastDelivered d.subscriberName (rowKey r)) < r.version ∧
    A.scopeErr r.tenantID = none ∧ d.ahead A (d.rewound s) r < n

/-- The stream has been delivered its cached state once, and it is not behind. -/
def Delivered (d : Drain) (A : Adapter κ) (p : Progress κ) (r : StateCacheRow κ) : Prop :=
  (∃ env, A.toEnvelope r = .ok env ∧ p.calls.filter (fun e => key e == rowKey r) = [env]) ∧
    p.store.behind d.subscriberName d.tenant r = false

theorem settles_accepting {k : StreamKey} {i : ℕ} :
    (d.reader A accepting n).settles k i = true ↔ A.scopeErr k.1 = none := by
  change (decide (accepting k i = .delivered) && (A.scopeErr k.1).isNone) = true ↔ _
  rw [Bool.and_eq_true, Option.isNone_iff_eq_none]
  exact and_iff_right rfl

/-- A stream that has been delivered was tried, and it has left the queue. -/
theorem reaches_of_delivered (hended : d.Ended A accepting n (begun (d.rewound s)) p)
    (hr : r ∈ s.db.stateCache.rows) (h : d.Delivered A p r) : d.Reaches A n s r := by
  obtain ⟨⟨env, -, hcalls⟩, hnot⟩ := h
  obtain ⟨m, hm⟩ := hended.rounds
  have htries : (d.queue A (begun (d.rewound s))).tries (rowKey r) <
      ((d.reader A accepting n).round^[m] (d.queue A (begun (d.rewound s)))).tries
        (rowKey r) := by
    rw [← hm]
    change 0 < p.tries (rowKey r)
    rw [Progress.tries, List.countP_eq_length_filter, hcalls]
    exact Nat.one_pos
  obtain ⟨hwaiting, hbefore⟩ := Paging.Reader.before_lt_of_tries htries
  have hbehind := (mem_queue_iff (p := begun (d.rewound s)) hr).1 hwaiting
  rw [before_queue] at hbefore
  have hleft : rowKey r ∉
      ((d.reader A accepting n).round^[m] (d.queue A (begun (d.rewound s)))).waiting := by
    rw [← hm, mem_queue_iff (hended.db ▸ hr), hnot]
    exact Bool.false_ne_true
  obtain ⟨-, i, hsettles⟩ := Paging.Reader.before_lt_of_left hwaiting hleft
  exact ⟨(behind_rewound.1 hbehind).1, settles_accepting.1 hsettles, hbefore⟩

/-- A stream that can be reached leaves the queue after one try. -/
theorem delivered_of_reaches (hended : d.Ended A accepting n (begun (d.rewound s)) p)
    (hr : r ∈ s.db.stateCache.rows) (hcovers : d.Covers r) (hown : d.inShard (rowKey r) = .ok true)
    (h : d.Reaches A n s r) : d.Delivered A p r := by
  obtain ⟨hlt, hscope, hahead⟩ := h
  obtain ⟨m, hm⟩ := hended.rounds
  have hwaiting : rowKey r ∈ (d.queue A (begun (d.rewound s))).waiting :=
    (mem_queue_iff hr).2 (behind_rewound.2 ⟨hlt, hcovers⟩)
  have hleft : rowKey r ∉ (d.queue A p).waiting := by
    rw [hm, Paging.Reader.waits_iff (hm ▸ hended.stops) hwaiting (owns_iff.2 hown), before_queue]
    exact Nat.not_le.2 hahead
  have htries : p.tries (rowKey r) = 1 := by
    have hsettles : ∀ i, (d.reader A accepting n).settles (rowKey r) i = true :=
      fun _ => settles_accepting.2 hscope
    have h := Paging.Reader.tries_iterate hsettles hwaiting m
    rw [← hm, if_neg hleft] at h
    exact h
  refine ⟨calls_of_tries hended hr htries, ?_⟩
  rw [← Bool.not_eq_true]
  exact fun hb => hleft ((mem_queue_iff (hended.db ▸ hr)).2 hb)

end Drain

/-- **A complete backfill**: the reset and then the Run return without an error, every stream of the
scope and of the shard is delivered its current state once, and none of them is left behind. -/
def Drain.Backfills (d : Drain) (A : Adapter κ) (now : Time) (s : Store κ) : Prop :=
  ∃ deleted s₁ fuel p,
    A.resetStateStreamSubscriber d.subscriberName d.tenant s = .ok (deleted, s₁) ∧
    d.run A accepting now fuel s₁ = some (.ok p) ∧
    ∀ r ∈ s.db.stateCache.rows, d.Covers r → d.inShard (rowKey r) = .ok true →
      d.Delivered A p r

section Backfills

variable {d : Drain} {A : Adapter κ} {now : Time} {s : Store κ}

theorem Drain.Backfills.reaches (hr : Readable A s) (h : d.Backfills A now s) :
    d.validate = .ok () ∧ ∃ n, d.Lists A n ∧
      (d.Sharded ∨ (A.rowsBehind d.subscriberName d.tenant (d.rewound s)).take n = []) ∧
      ∀ r ∈ s.db.stateCache.rows, d.Covers r → d.inShard (rowKey r) = .ok true →
        d.Reaches A n s r := by
  obtain ⟨deleted, s₁, fuel, p, hreset, hrun, hall⟩ := h
  obtain rfl : s₁ = d.rewound s := by
    unfold Adapter.resetStateStreamSubscriber at hreset
    split at hreset
    · cases hreset
    · exact (Prod.mk.inj (Except.ok.inj hreset)).2.symm
  obtain ⟨hv, hbatches, n, hl, hshards⟩ := Drain.lists_of_run hrun
  refine ⟨hv, n, hl, hshards, fun r hmem hcovers hown => ?_⟩
  obtain ⟨p', hp', hended⟩ :=
    Drain.ended_of_runBatches (Drain.sharded_of_inShard hown) hl hr hbatches
  obtain rfl := Except.ok.inj hp'
  exact Drain.reaches_of_delivered hended hmem (hall r hmem hcovers hown)

theorem Drain.backfills_of_reaches {n : ℕ} (hr : Readable A s) (hv : d.validate = .ok ())
    (hl : d.Lists A n)
    (hshards : d.Sharded ∨
      (A.rowsBehind d.subscriberName d.tenant (d.rewound s)).take n = [])
    (hall : ∀ r ∈ s.db.stateCache.rows, d.Covers r → d.inShard (rowKey r) = .ok true →
      d.Reaches A n s r) : d.Backfills A now s := by
  have hreset : A.resetStateStreamSubscriber d.subscriberName d.tenant s =
      .ok (s.positions.rows.countP (Position.ofSubscriber d.subscriberName d.tenant),
        d.rewound s) := by
    rw [Adapter.resetStateStreamSubscriber, hl.1]
    rfl
  rcases em d.Sharded with hs | hs
  · -- no stream keeps the Run going
    have hstuck : ¬ d.Stuck A accepting (d.rewound s) := by
      rintro ⟨-, _, -, r, hr', hown, hfails, -⟩
      obtain ⟨hmem, hbehind⟩ := Adapter.mem_rowsBehind.1 hr'
      exact hfails 0 rfl (hall r hmem (Drain.behind_rewound.1 hbehind).2 hown).2.1
    obtain ⟨m, hm⟩ := (Drain.stops_iff_not_stuck hv hl).2 hstuck
    obtain ⟨fuel, p, hp⟩ := Drain.exists_runBatches now hs hl hr hm
    obtain ⟨p', hp', hended⟩ := Drain.ended_of_runBatches hs hl hr hp
    obtain rfl := Except.ok.inj hp'
    refine ⟨_, _, fuel, p, hreset, ?_, fun r hmem hcovers hown => ?_⟩
    · rw [Drain.run, hv]
      exact hp
    · exact Drain.delivered_of_reaches hended hmem hcovers hown (hall r hmem hcovers hown)
  · -- there is nothing to list
    have hlist : A.listStreamsBehind d.subscriberName d.tenant d.pageSize (d.rewound s) =
        .ok [] := (Drain.listStreamsBehind_eq_ok hl).2 (hshards.resolve_left hs ▸ .nil)
    refine ⟨_, _, 1, Drain.begun (d.rewound s), hreset, ?_, fun r _ _ hown => ?_⟩
    · rw [Drain.run, hv]
      exact Drain.runBatches_of_nil hlist
    · exact absurd (Drain.sharded_of_inShard hown) hs

/-- **When a backfill is complete.**  The configuration is valid, the listing is answered, and every
stream of the scope and the shard

* is behind after the reset: if the scope is one tenant, its version is not 0; if it is all tenants,
  its version is above the position that the reset has left;
* can have its position advanced;
* has fewer streams of other shards before it in the listing than a page holds.

If the shard of a stream cannot be computed, there must be nothing to list. -/
theorem backfills_iff (hr : Readable A s) : d.Backfills A now s ↔
    d.validate = .ok () ∧ ∃ n, d.Lists A n ∧
      (d.Sharded ∨ (A.rowsBehind d.subscriberName d.tenant (d.rewound s)).take n = []) ∧
      ∀ r ∈ s.db.stateCache.rows, d.Covers r → d.inShard (rowKey r) = .ok true →
        d.Reaches A n s r := by
  refine ⟨Drain.Backfills.reaches hr, ?_⟩
  rintro ⟨hv, n, hl, hshards, hall⟩
  exact Drain.backfills_of_reaches hr hv hl hshards hall

end Backfills

/-! ### Two backfills that are not complete -/

namespace Outage

/-- A drain for all tenants. -/
def everyone : Drain := ⟨"index", "", 0, 0, 0⟩

/-- The stream of the store has been delivered. -/
def caughtUp : Store (Sqlite.columns Bytes) :=
  { store with positions := Table.empty.upsert ⟨"index", "acme", "order:1", 1, "+"⟩ }

/-- A drain for the second of two shards, with pages of one stream. -/
def second : Drain := ⟨"index", "acme", 1, 1, 2⟩

/-- A store with a stream of each shard. -/
def pair : Store (Sqlite.columns Bytes) :=
  ⟨{ store.db with stateCache := store.db.stateCache.upsert (row "order:2") }, .empty⟩

theorem readable_caughtUp : Readable (Sqlite.adapter .small) caughtUp := readable

theorem readable_pair : Readable (Sqlite.adapter .small) pair := by
  intro r hr
  have hr' : r ∈ [row "order:1", row "order:2"] := hr
  simp only [List.mem_cons, List.not_mem_nil, or_false] at hr'
  rcases hr' with rfl | rfl
  · exact ⟨_, rfl⟩
  · exact ⟨_, rfl⟩

end Outage

open Outage in
/-- **Backfills that are not complete.**  A reset for all tenants leaves the position of the stream
at its version, so that it is not delivered again.  A page of one stream is filled by the stream of
the other shard, so that the Run of the second shard ends at once. -/
theorem backfills_incomplete : ¬ everyone.Backfills (Sqlite.adapter .small) 0 caughtUp ∧
    ¬ second.Backfills (Sqlite.adapter .small) 0 pair := by
  constructor
  · intro h
    obtain ⟨-, n, -, -, hall⟩ := h.reaches readable_caughtUp
    have hlt := (hall (row "order:1") (List.mem_singleton_self _) (Or.inl rfl) rfl).1
    exact absurd hlt (by decide)
  · intro h
    obtain ⟨-, n, hl, -, hall⟩ := h.reaches readable_pair
    obtain rfl : 1 = n := Except.ok.inj hl.2
    have hown : second.inShard (rowKey (row "order:2")) = .ok true := by
      rw [← Drain.owns_iff]
      decide +kernel
    have hmem : row "order:2" ∈ pair.db.stateCache.rows := List.mem_cons_of_mem _
      List.mem_cons_self
    have hlt := (hall (row "order:2") hmem (Or.inr rfl) hown).2.2
    revert hlt
    decide +kernel

open Outage in
/-- A backfill of one tenant without shards is complete. -/
theorem backfills_tenant : Readable (Sqlite.adapter .small) caughtUp ∧
    drain.Backfills (Sqlite.adapter .small) 0 caughtUp := by
  refine ⟨readable_caughtUp, (backfills_iff readable_caughtUp).2
    ⟨rfl, 100, ⟨rfl, rfl⟩, Or.inl (Or.inl le_rfl), fun r hr _ _ => ?_⟩⟩
  obtain rfl : r = row "order:1" := List.mem_singleton.1 hr
  exact ⟨by decide, rfl, by decide +kernel⟩

end EventStore.StateStream
