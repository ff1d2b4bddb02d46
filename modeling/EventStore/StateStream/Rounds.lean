import EventStore.Paging.Basic
import EventStore.StateStream.Drain

/-!
# A Run of the drain in rounds

A Run on a store that nobody else writes to is a reader of pages: the streams its subscriber is
behind on wait in the order of `updated_at`, a batch tries those of the page that are of its shard,
and a stream leaves when it has been delivered and its position advanced.  `Drain.queue` is what
waits and `Drain.reader` who reads it; `Drain.queue_runBatch` says that a batch is a round of
`EventStore.Paging`.

`run_returns_iff` is what follows for the end of a Run.  A delivery that fails keeps its place and
counts as progress, so that the Run tries it again at once, and for ever if it always fails.
-/

namespace EventStore.StateStream

variable {κ : Columns}

/-! ### The reader -/

namespace Drain

variable (d : Drain) (A : Adapter κ) (answer : Publisher)

/-- The stream is of the shard. -/
def owns (k : StreamKey) : Bool := (d.inShard k).toOption.getD false

/-- The shards can be computed: `uint32(TotalShards)` is not 0. -/
def Sharded : Prop := d.totalShards ≤ 0 ∨ UInt32.ofInt d.totalShards ≠ 0

/-- A call on the stream is successful, and the position can be advanced. -/
def settles (k : StreamKey) (i : ℕ) : Bool :=
  decide (answer k i = .delivered) && (A.scopeErr k.1).isNone

/-- Who reads the queue, in pages of `n` streams. -/
def reader (n : ℕ) : Paging.Reader StreamKey where
  limit := n
  own := d.owns
  settles := settles A answer

/-- What waits. -/
def queue (p : Progress κ) : Paging.Queue StreamKey where
  waiting := (A.rowsBehind d.subscriberName d.tenant p.store).map rowKey
  tries := p.tries

variable {d} in
theorem inShard_of_sharded (h : d.Sharded) (k : StreamKey) : d.inShard k = .ok (d.owns k) := by
  unfold owns inShard
  split_ifs with hle
  · rfl
  · have hne : UInt32.ofInt d.totalShards ≠ 0 := h.resolve_left hle
    simp only [hne, if_false]
    rfl

variable {d} in
theorem inShard_of_not_sharded (h : ¬ d.Sharded) :
    ∃ e, ∀ k, d.inShard k = .error e := by
  rw [Sharded, not_or, not_not] at h
  refine ⟨.text "runtime error: integer divide by zero", fun k => ?_⟩
  unfold inShard
  rw [if_neg h.1]
  simp only [h.2, if_true]

variable {d} in
theorem sharded_of_inShard {k : StreamKey} {b : Bool} (h : d.inShard k = .ok b) : d.Sharded := by
  by_contra hs
  obtain ⟨e, he⟩ := inShard_of_not_sharded hs
  rw [he] at h
  cases h

end Drain

/-! ### One batch -/

namespace Drain

variable {d : Drain} {A : Adapter κ} {answer : Publisher} {now : Time} {p p' : Progress κ}
  {env : StateEnvelope} {envs : List StateEnvelope} {k : StreamKey}

theorem calls_deliver : (d.deliver A answer now p env).calls = p.calls ++ [env] := by
  unfold deliver
  dsimp only
  split
  · split <;> rfl
  · rfl
  · rfl

theorem db_deliver : (d.deliver A answer now p env).store.db = p.store.db := by
  unfold deliver
  dsimp only
  split
  · split
    · exact Adapter.db_advance ‹_›
    · rfl
  · rfl
  · rfl

theorem counts_deliver : (d.deliver A answer now p env).delivered +
    (d.deliver A answer now p env).failed = p.delivered + p.failed + 1 := by
  unfold deliver
  dsimp only
  split
  · split
    · exact Nat.add_right_comm _ _ _
    · rfl
  · rfl
  · rfl

/-- A delivery moves the position of its stream if it settles it. -/
theorem lastDelivered_deliver : (d.deliver A answer now p env).store.lastDelivered
      d.subscriberName k =
    if k = key env ∧ settles A answer (key env) (p.tries (key env)) = true then
      max (p.store.lastDelivered d.subscriberName k) env.version
    else p.store.lastDelivered d.subscriberName k := by
  unfold deliver settles
  dsimp only
  split
  · rename_i hans
    split
    · rename_i s hadv
      have hscope : A.scopeErr (key env).1 = none := by
        unfold Adapter.advanceStateStreamPosition at hadv
        split at hadv
        · cases hadv
        · assumption
      rw [Adapter.lastDelivered_advance hadv]
      simp only [hans, hscope, true_and]
      by_cases hk : k = key env
      · simp [hk]
      · simp [hk]
    · rename_i e hadv
      have hscope : (A.scopeErr (key env).1).isNone = false := by
        unfold Adapter.advanceStateStreamPosition at hadv
        split at hadv
        · rename_i he
          rw [he]
          rfl
        · cases hadv
      simp [hscope]
  · rename_i hans
    simp [hans]
  · rename_i hans
    simp [hans]

theorem tries_append {q : Progress κ} {es : List StateEnvelope} (h : q.calls = p.calls ++ es) :
    q.tries k = p.tries k + es.countP fun env => key env == k := by
  rw [Progress.tries, h, List.countP_append]
  rfl

/-- The delivery of a stream settles it. -/
def Settled (d : Drain) (A : Adapter κ) (answer : Publisher) (p : Progress κ)
    (env : StateEnvelope) : Prop :=
  d.owns (key env) = true ∧ settles A answer (key env) (p.tries (key env)) = true

instance : Decidable (d.Settled A answer p env) := instDecidableAnd

/-- What a loop over deliveries for different streams leaves. -/
structure Served (d : Drain) (A : Adapter κ) (answer : Publisher) (envs : List StateEnvelope)
    (p p' : Progress κ) : Prop where
  db : p'.store.db = p.store.db
  moved : ∀ env ∈ envs, d.Settled A answer p env →
    env.version ≤ p'.store.lastDelivered d.subscriberName (key env)
  unmoved : ∀ k, (∀ env ∈ envs, key env = k → ¬ d.Settled A answer p env) →
    p'.store.lastDelivered d.subscriberName k = p.store.lastDelivered d.subscriberName k
  calls : p'.calls = p.calls ++ envs.filter fun env => d.owns (key env)
  counts : p'.delivered + p'.failed =
    p.delivered + p.failed + envs.countP fun env => d.owns (key env)

theorem served_nil : d.Served A answer [] p p where
  db := rfl
  moved _ h := absurd h List.not_mem_nil
  unmoved _ _ := rfl
  calls := (List.append_nil _).symm
  counts := rfl

theorem runRow_of_sharded (hs : d.Sharded) : d.runRow A answer now p env =
    .ok (if d.owns (key env) then d.deliver A answer now p env else p) := by
  rw [runRow, inShard_of_sharded hs]
  cases d.owns (key env) <;> rfl

/-- One more delivery before the others. -/
theorem Served.cons {p₁ : Progress κ} (hnew : ∀ e ∈ envs, key e ≠ key env)
    (hp₁ : p₁ = if d.owns (key env) then d.deliver A answer now p env else p)
    (h : d.Served A answer envs p₁ p') : d.Served A answer (env :: envs) p p' := by
  -- the streams of the others have been tried as often as before
  have htries : ∀ e ∈ envs, p₁.tries (key e) = p.tries (key e) := by
    intro e he
    rw [hp₁]
    split_ifs
    · rw [tries_append calls_deliver, List.countP_singleton,
        if_neg (by simpa using (hnew e he).symm)]
      rfl
    · rfl
  have hsettled : ∀ e ∈ envs, d.Settled A answer p₁ e ↔ d.Settled A answer p e := by
    intro e he
    rw [Settled, htries e he]
    rfl
  have hfirst : ∀ k, p₁.store.lastDelivered d.subscriberName k =
      if k = key env ∧ d.Settled A answer p env then
        max (p.store.lastDelivered d.subscriberName k) env.version
      else p.store.lastDelivered d.subscriberName k := by
    intro k
    rw [hp₁]
    by_cases hown : d.owns (key env) = true
    · rw [if_pos hown, lastDelivered_deliver]
      simp only [Settled, hown, true_and]
    · rw [if_neg hown, if_neg fun hc => hown hc.2.1]
  refine ⟨?_, ?_, ?_, ?_, ?_⟩
  · rw [h.db, hp₁]
    split_ifs
    · exact db_deliver
    · rfl
  · intro e he hset
    rcases List.mem_cons.1 he with rfl | he
    · have hlater := h.unmoved (key e) fun e' he' hk => absurd hk (hnew e' he')
      rw [hlater, hfirst, if_pos ⟨rfl, hset⟩]
      exact Nat.le_max_right _ _
    · exact h.moved e he ((hsettled e he).2 hset)
  · intro k hk
    have hlater := h.unmoved k fun e he heq hset =>
      hk e (List.mem_cons_of_mem _ he) heq ((hsettled e he).1 hset)
    rw [hlater, hfirst, if_neg]
    rintro ⟨rfl, hset⟩
    exact hk env List.mem_cons_self rfl hset
  · rw [h.calls, hp₁]
    cases hown : d.owns (key env) with
    | true =>
      rw [if_pos rfl, calls_deliver, List.filter_cons, if_pos hown, List.append_assoc]
      rfl
    | false =>
      rw [if_neg Bool.false_ne_true, List.filter_cons, if_neg (by simp [hown])]
  · rw [h.counts, hp₁]
    cases hown : d.owns (key env) with
    | true =>
      rw [if_pos rfl, counts_deliver, List.countP_cons, if_pos hown]
      exact Nat.add_right_comm _ _ _
    | false =>
      rw [if_neg Bool.false_ne_true, List.countP_cons, if_neg (by simp [hown])]
      rfl

/-- The loop over a page. -/
theorem served_of_foldlM (hs : d.Sharded) (hnodup : (envs.map key).Nodup) (p : Progress κ) :
    ∃ p', envs.foldlM (d.runRow A answer now) p = .ok p' ∧ d.Served A answer envs p p' := by
  induction envs generalizing p with
  | nil => exact ⟨p, rfl, served_nil⟩
  | cons env envs ih =>
    rw [List.map_cons, List.nodup_cons] at hnodup
    obtain ⟨p', hp', hserved⟩ :=
      ih hnodup.2 (if d.owns (key env) then d.deliver A answer now p env else p)
    refine ⟨p', ?_, hserved.cons (fun e he heq => hnodup.1 ?_) rfl⟩
    · rw [List.foldlM_cons, runRow_of_sharded hs]
      exact hp'
    · rw [← heq]
      exact List.mem_map_of_mem he

end Drain

/-! ### A batch is a round -/

/-- The rows of the cache can be read. -/
def Readable (A : Adapter κ) (s : Store κ) : Prop :=
  ∀ r ∈ s.db.stateCache.rows, ∃ env, A.toEnvelope r = .ok env

/-- The listing of the drain is answered, with pages of `n` streams. -/
def Drain.Lists (d : Drain) (A : Adapter κ) (n : ℕ) : Prop :=
  A.scopeErr d.tenant = none ∧ A.limit d.pageSize = .ok n

section Rows

variable {A : Adapter κ} {s : Store κ} {r r' : StateCacheRow κ} {env : StateEnvelope}
  {name tenant : String}

theorem Adapter.key_of_toEnvelope (h : A.toEnvelope r = .ok env) :
    key env = rowKey r ∧ env.version = r.version := by
  obtain ⟨t, -, rfl⟩ := toEnvelope_eq_ok.1 h
  exact ⟨rfl, rfl⟩

/-- A stream has one row in the cache. -/
theorem eq_of_rowKey (hr : r ∈ s.db.stateCache.rows) (hr' : r' ∈ s.db.stateCache.rows)
    (h : rowKey r = rowKey r') : r = r' :=
  Table.eq_of_clash (fun _ _ hc => ⟨hc.1.symm, hc.2.symm⟩) hr hr' (Prod.mk.inj h)

theorem Adapter.nodup_rowsBehind : ((A.rowsBehind name tenant s).map rowKey).Nodup := by
  have hcache : (s.db.stateCache.rows.map rowKey).Nodup :=
    List.pairwise_map.2 (s.db.stateCache.unique.imp fun hc heq => hc (Prod.mk.inj heq))
  have hfilter : ((s.db.stateCache.rows.filter (s.behind name tenant)).map rowKey).Nodup :=
    hcache.sublist (List.filter_sublist.map _)
  exact ((List.perm_insertionSort _ _).map _).nodup_iff.2 hfilter

/-- A smaller backlog is listed in the same order. -/
theorem Adapter.rowsBehind_eq_filter {s' : Store κ} {f : StateCacheRow κ → Bool}
    (hdb : s'.db = s.db) (hf : ∀ r ∈ s.db.stateCache.rows,
      s'.behind name tenant r = (s.behind name tenant r && f r)) :
    A.rowsBehind name tenant s' = (A.rowsBehind name tenant s).filter f := by
  have : Std.Total fun a b : StateCacheRow κ => A.le a.updatedAt b.updatedAt = true :=
    ⟨fun _ _ => A.le_total _ _⟩
  have : IsTrans (StateCacheRow κ) fun a b => A.le a.updatedAt b.updatedAt = true :=
    ⟨fun _ _ _ => A.le_trans _ _ _⟩
  rw [rowsBehind, rowsBehind, Paging.filter_insertionSort, hdb, List.filter_filter]
  congr 1
  refine List.filter_congr fun r hr => ?_
  rw [hf r hr, Bool.and_comm]

end Rows

namespace Drain

variable {d : Drain} {A : Adapter κ} {answer : Publisher} {now : Time} {p p' : Progress κ}
  {envs : List StateEnvelope} {n : ℕ}

theorem pageSize_pos : 0 < d.pageSize := by
  unfold pageSize
  split_ifs with h
  · decide
  · exact Int.not_le.1 h

theorem listStreamsBehind_eq_ok {s : Store κ} (hl : d.Lists A n) :
    A.listStreamsBehind d.subscriberName d.tenant d.pageSize s = .ok envs ↔
      List.Forall₂ (fun r env => A.toEnvelope r = .ok env)
        ((A.rowsBehind d.subscriberName d.tenant s).take n) envs := by
  rw [Adapter.listStreamsBehind_eq_ok, if_neg (Int.not_le.2 pageSize_pos), hl.2]
  constructor
  · rintro ⟨-, m, hm, h⟩
    obtain rfl := Except.ok.inj hm
    exact h
  · intro h
    exact ⟨hl.1, n, rfl, h⟩

/-- The streams of the page. -/
theorem map_key_of_forall₂ {rows : List (StateCacheRow κ)}
    (h : List.Forall₂ (fun r env => A.toEnvelope r = .ok env) rows envs) :
    envs.map key = rows.map rowKey := by
  induction h with
  | nil => rfl
  | cons hr _ ih => rw [List.map_cons, List.map_cons, ih, (Adapter.key_of_toEnvelope hr).1]

theorem map_key_page (h : List.Forall₂ (fun r env => A.toEnvelope r = .ok env)
    ((A.rowsBehind d.subscriberName d.tenant p.store).take n) envs) :
    envs.map key = (d.reader A answer n).page (d.queue A p) := by
  rw [map_key_of_forall₂ h, List.map_take]
  rfl

/-- The streams of a page that are called are called once. -/
theorem countP_filter_key {own : StreamKey → Bool} {k : StreamKey}
    (hnodup : (envs.map key).Nodup) :
    (envs.filter fun env => own (key env)).countP (fun env => key env == k) =
      if k ∈ envs.map key ∧ own k = true then 1 else 0 := by
  have hmap : (envs.filter fun env => own (key env)).countP (fun env => key env == k) =
      ((envs.map key).filter own).count k := by
    rw [List.filter_map, List.count_eq_countP, List.countP_map]
    rfl
  rw [hmap]
  split_ifs with hmem
  · exact List.nodup_iff_count_eq_one.1 (hnodup.filter own) k (List.mem_filter.2 hmem)
  · exact List.count_eq_zero.2 fun h => hmem (List.mem_filter.1 h)

/-- What a batch does. -/
theorem exists_runBatch (answer : Publisher) (now : Time) (hs : d.Sharded) (hl : d.Lists A n)
    (hr : Readable A p.store) :
    ∃ envs p', d.runBatch A answer now p = .ok p' ∧
      List.Forall₂ (fun r env => A.toEnvelope r = .ok env)
        ((A.rowsBehind d.subscriberName d.tenant p.store).take n) envs ∧
      d.Served A answer envs { p with delivered := 0, failed := 0 } p' := by
  have hrows : ∀ r ∈ (A.rowsBehind d.subscriberName d.tenant p.store).take n,
      ∃ env, A.toEnvelope r = .ok env := fun r h =>
    hr r (Adapter.mem_rowsBehind.1 (List.mem_of_mem_take h)).1
  obtain ⟨envs, henvs⟩ := exists_forall₂_of_forall hrows
  have hnodup : (envs.map key).Nodup := by
    rw [map_key_of_forall₂ henvs, List.map_take]
    exact Adapter.nodup_rowsBehind.sublist (List.take_sublist _ _)
  obtain ⟨p', hp', hserved⟩ := served_of_foldlM hs hnodup { p with delivered := 0, failed := 0 }
  refine ⟨envs, p', ?_, henvs, hserved⟩
  rw [runBatch, (listStreamsBehind_eq_ok hl).2 henvs]
  exact hp'

/-- **A batch is a round.** -/
theorem queue_of_served (henvs : List.Forall₂ (fun r env => A.toEnvelope r = .ok env)
      ((A.rowsBehind d.subscriberName d.tenant p.store).take n) envs)
    (h : d.Served A answer envs p p') :
    d.queue A p' = (d.reader A answer n).round (d.queue A p) := by
  have hpage : envs.map key = (d.reader A answer n).page (d.queue A p) := map_key_page henvs
  have htried : ∀ k, (d.reader A answer n).tried (d.queue A p) k = true ↔
      ∃ env ∈ envs, key env = k ∧ d.owns k = true := by
    intro k
    rw [Paging.Reader.tried_iff, ← hpage, List.mem_map]
    constructor
    · rintro ⟨⟨env, henv, rfl⟩, hown⟩
      exact ⟨env, henv, rfl, hown⟩
    · rintro ⟨env, henv, rfl, hown⟩
      exact ⟨⟨env, henv, rfl⟩, hown⟩
  refine Paging.Queue.ext ?_ (funext fun k => ?_)
  · -- the rows that are still behind are those whose stream has not been settled
    have hbehind : ∀ r ∈ p.store.db.stateCache.rows,
        p'.store.behind d.subscriberName d.tenant r =
          (p.store.behind d.subscriberName d.tenant r &&
            !((d.reader A answer n).tried (d.queue A p) (rowKey r) &&
              settles A answer (rowKey r) (p.tries (rowKey r)))) := by
      intro r hr
      by_cases hset : ∃ env ∈ envs, key env = rowKey r ∧ d.Settled A answer p env
      · obtain ⟨env, henv, hkey, hset⟩ := hset
        -- the page has the row of the stream, which is this one
        obtain ⟨r', hr', hread⟩ := exists_of_forall₂_right henvs henv
        have hcached := (Adapter.mem_rowsBehind.1 (List.mem_of_mem_take hr')).1
        obtain ⟨hkey', hver⟩ := Adapter.key_of_toEnvelope hread
        obtain rfl := eq_of_rowKey hr hcached (hkey.symm.trans hkey')
        have hmoved := h.moved env henv hset
        rw [hkey, hver] at hmoved
        obtain ⟨hown, hsettles⟩ := hset
        rw [hkey] at hown hsettles
        rw [(htried _).2 ⟨env, henv, hkey, hown⟩, hsettles]
        simp only [Store.behind, Nat.not_lt.2 hmoved, decide_false, Bool.false_and, Bool.and_self,
          Bool.not_true, Bool.and_false]
      · have hnone : ∀ env ∈ envs, key env = rowKey r → ¬ d.Settled A answer p env :=
          fun env henv hkey hs => hset ⟨env, henv, hkey, hs⟩
        have hfalse : ((d.reader A answer n).tried (d.queue A p) (rowKey r) &&
            settles A answer (rowKey r) (p.tries (rowKey r))) = false := by
          rw [← Bool.not_eq_true, Bool.and_eq_true, htried]
          rintro ⟨⟨env, henv, hkey, hown⟩, hs⟩
          rw [← hkey] at hown hs
          exact hset ⟨env, henv, hkey, hown, hs⟩
        rw [hfalse, Bool.not_false, Bool.and_true, Store.behind, Store.behind,
          h.unmoved _ hnone]
    change (A.rowsBehind d.subscriberName d.tenant p'.store).map rowKey =
      ((A.rowsBehind d.subscriberName d.tenant p.store).map rowKey).filter _
    rw [Adapter.rowsBehind_eq_filter h.db hbehind, List.filter_map]
    rfl
  · -- every stream of the page is there once
    have hnodup : (envs.map key).Nodup := by
      rw [map_key_of_forall₂ henvs, List.map_take]
      exact Adapter.nodup_rowsBehind.sublist (List.take_sublist _ _)
    have hcount : (envs.filter fun env => d.owns (key env)).countP (fun env => key env == k) =
        if (d.reader A answer n).tried (d.queue A p) k then 1 else 0 := by
      rw [countP_filter_key hnodup, hpage]
      simp only [Paging.Reader.tried, Bool.and_eq_true, List.contains_iff_mem]
      rfl
    rw [Paging.Reader.tries_round]
    change p'.tries k = if _ then p.tries k + 1 else p.tries k
    rw [tries_append h.calls, hcount]
    split_ifs <;> rfl

/-- A batch tries nothing where the reader stops. -/
theorem counts_eq_zero_iff (henvs : List.Forall₂ (fun r env => A.toEnvelope r = .ok env)
      ((A.rowsBehind d.subscriberName d.tenant p.store).take n) envs)
    (h : d.Served A answer envs { p with delivered := 0, failed := 0 } p') :
    p'.delivered + p'.failed = 0 ↔ (d.reader A answer n).Stops (d.queue A p) := by
  rw [h.counts, Paging.Reader.Stops, ← map_key_page henvs]
  simp only [Nat.add_zero, Nat.zero_add, List.countP_eq_zero, List.forall_mem_map,
    Bool.not_eq_true]
  rfl

/-! ### Batch after batch -/

/-- What a Run that returns leaves: the queue after some rounds, at which the reader stops. -/
structure Ended (d : Drain) (A : Adapter κ) (answer : Publisher) (n : ℕ) (p p' : Progress κ) :
    Prop where
  rounds : ∃ m, d.queue A p' = (d.reader A answer n).round^[m] (d.queue A p)
  stops : (d.reader A answer n).Stops (d.queue A p')
  db : p'.store.db = p.store.db
  calls : ∃ envs, p'.calls = p.calls ++ envs ∧
    ∀ env ∈ envs, ∃ r ∈ p.store.db.stateCache.rows, A.toEnvelope r = .ok env

/-- What is called has been read from the cache. -/
theorem Served.exists_calls (henvs : List.Forall₂ (fun r env => A.toEnvelope r = .ok env)
      ((A.rowsBehind d.subscriberName d.tenant p.store).take n) envs)
    (h : d.Served A answer envs { p with delivered := 0, failed := 0 } p') :
    ∃ es, p'.calls = p.calls ++ es ∧
      ∀ env ∈ es, ∃ r ∈ p.store.db.stateCache.rows, A.toEnvelope r = .ok env := by
  refine ⟨_, h.calls, fun env henv => ?_⟩
  obtain ⟨r, hr, hread⟩ := exists_of_forall₂_right henvs (List.mem_filter.1 henv).1
  exact ⟨r, (Adapter.mem_rowsBehind.1 (List.mem_of_mem_take hr)).1, hread⟩

/-- A Run that returns has come to a page with nothing of its shard. -/
theorem ended_of_runBatches (hs : d.Sharded) (hl : d.Lists A n) {fuel : ℕ}
    {res : Except Err (Progress κ)} (hr : Readable A p.store)
    (h : d.runBatches A answer now fuel p = some res) :
    ∃ p', res = .ok p' ∧ d.Ended A answer n p p' := by
  induction fuel generalizing p with
  | zero => cases h
  | succ fuel ih =>
    obtain ⟨envs, p₁, hbatch, henvs, hserved⟩ := exists_runBatch answer now hs hl hr
    have hqueue : d.queue A p₁ = (d.reader A answer n).round (d.queue A p) :=
      queue_of_served (p := { p with delivered := 0, failed := 0 }) henvs hserved
    have hcalls := hserved.exists_calls henvs
    have hdb : p₁.store.db = p.store.db := hserved.db
    rw [runBatches, hbatch] at h
    dsimp only at h
    split_ifs at h with hzero
    · -- nothing was tried
      have hstops := (counts_eq_zero_iff henvs hserved).1 hzero
      have hsame : d.queue A p₁ = d.queue A p := hqueue.trans hstops.round_eq
      exact ⟨_, (Option.some.inj h).symm, ⟨0, hsame⟩, hsame ▸ hstops, hdb, hcalls⟩
    · obtain ⟨p', rfl, hended⟩ := ih (p := { p₁ with total := p₁.total + p₁.delivered })
        (fun r hr' => hr r (hdb ▸ hr')) h
      obtain ⟨m, hm⟩ := hended.rounds
      obtain ⟨es, hes, hread⟩ := hended.calls
      obtain ⟨es₀, hes₀, hread₀⟩ := hcalls
      refine ⟨p', rfl, ⟨m + 1, ?_⟩, hended.stops, hended.db.trans hdb, es₀ ++ es, ?_, ?_⟩
      · rw [Function.iterate_succ_apply, ← hqueue]
        exact hm
      · rw [← List.append_assoc, ← hes₀]
        exact hes
      · intro env henv
        rcases List.mem_append.1 henv with henv | henv
        · exact hread₀ env henv
        · obtain ⟨r, hr', hread⟩ := hread env henv
          exact ⟨r, hdb ▸ hr', hread⟩

/-- A Run whose reader comes to a stop returns. -/
theorem exists_runBatches (now : Time) (hs : d.Sharded) (hl : d.Lists A n) {m : ℕ}
    (hr : Readable A p.store)
    (h : (d.reader A answer n).Stops ((d.reader A answer n).round^[m] (d.queue A p))) :
    ∃ fuel p', d.runBatches A answer now fuel p = some (.ok p') := by
  induction m generalizing p with
  | zero =>
    obtain ⟨envs, p₁, hbatch, henvs, hserved⟩ := exists_runBatch answer now hs hl hr
    refine ⟨1, { p₁ with total := p₁.total + p₁.delivered }, ?_⟩
    rw [runBatches, hbatch]
    exact if_pos ((counts_eq_zero_iff henvs hserved).2 h)
  | succ m ih =>
    obtain ⟨envs, p₁, hbatch, henvs, hserved⟩ := exists_runBatch answer now hs hl hr
    by_cases hzero : p₁.delivered + p₁.failed = 0
    · refine ⟨1, { p₁ with total := p₁.total + p₁.delivered }, ?_⟩
      rw [runBatches, hbatch]
      exact if_pos hzero
    · have hqueue : d.queue A p₁ = (d.reader A answer n).round (d.queue A p) :=
        queue_of_served (p := { p with delivered := 0, failed := 0 }) henvs hserved
      rw [Function.iterate_succ_apply, ← hqueue] at h
      have hdb : p₁.store.db = p.store.db := hserved.db
      obtain ⟨fuel, p', hp'⟩ := ih (p := { p₁ with total := p₁.total + p₁.delivered })
        (fun r hr' => hr r (hdb ▸ hr')) h
      refine ⟨fuel + 1, p', ?_⟩
      rw [runBatches, hbatch]
      exact (if_neg hzero).trans hp'

/-! ### The end of a Run -/

theorem lists_of_listed
    (h : A.listStreamsBehind d.subscriberName d.tenant d.pageSize p.store = .ok envs) :
    ∃ n, d.Lists A n := by
  obtain ⟨hscope, n, hn, -⟩ := Adapter.listStreamsBehind_eq_ok.1 h
  rw [if_neg (Int.not_le.2 pageSize_pos)] at hn
  exact ⟨n, hscope, hn⟩

/-- A batch with something in it fails if the shards cannot be computed. -/
theorem runBatch_of_not_sharded (answer : Publisher) (now : Time) {env : StateEnvelope}
    (hs : ¬ d.Sharded)
    (h : A.listStreamsBehind d.subscriberName d.tenant d.pageSize p.store = .ok (env :: envs)) :
    ∃ e, d.runBatch A answer now p = .error e := by
  obtain ⟨e, he⟩ := inShard_of_not_sharded hs
  have hrow : d.runRow A answer now { p with delivered := 0, failed := 0 } env = .error e := by
    rw [runRow, he]
    rfl
  refine ⟨e, ?_⟩
  rw [runBatch, h]
  change List.foldlM (d.runRow A answer now) _ (env :: envs) = .error e
  rw [List.foldlM_cons, hrow]
  rfl

/-- A listing that is not answered, or a shard that cannot be computed, ends the Run. -/
theorem exists_runBatches_of_failing (answer : Publisher) (now : Time) (p : Progress κ)
    (h : ¬ (d.Sharded ∧ ∃ n, d.Lists A n)) :
    ∃ res, d.runBatches A answer now 1 p = some res := by
  cases hlist : A.listStreamsBehind d.subscriberName d.tenant d.pageSize p.store with
  | error e =>
    rw [runBatches, runBatch, hlist]
    exact ⟨_, rfl⟩
  | ok envs =>
    have hs : ¬ d.Sharded := fun hs => h ⟨hs, lists_of_listed hlist⟩
    cases envs with
    | nil =>
      rw [runBatches, runBatch, hlist]
      exact ⟨_, rfl⟩
    | cons env envs =>
      obtain ⟨e, he⟩ := runBatch_of_not_sharded answer now hs hlist
      rw [runBatches, he]
      exact ⟨_, rfl⟩

/-- The streams of other shards that are listed before a row. -/
def ahead (d : Drain) (A : Adapter κ) (s : Store κ) (r : StateCacheRow κ) : ℕ :=
  ((A.rowsBehind d.subscriberName d.tenant s).takeWhile fun r' =>
    !decide (rowKey r' = rowKey r)).countP fun r' => !d.owns (rowKey r')

theorem before_queue {r : StateCacheRow κ} :
    (d.reader A answer n).before (d.queue A p) (rowKey r) = d.ahead A p.store r := by
  rw [Paging.Reader.before, queue, List.takeWhile_map, List.countP_map]
  rfl

/-- The state before a Run. -/
def begun (s : Store κ) : Progress κ := ⟨s, [], 0, 0, 0⟩

/-- **A stream that keeps the Run going for ever**: the Run comes to it, and every delivery
fails. -/
def Stuck (d : Drain) (A : Adapter κ) (answer : Publisher) (s : Store κ) : Prop :=
  d.validate = .ok () ∧ ∃ n, d.Lists A n ∧
    ∃ r ∈ A.rowsBehind d.subscriberName d.tenant s, d.inShard (rowKey r) = .ok true ∧
      (∀ i, answer (rowKey r) i = .delivered → A.scopeErr r.tenantID ≠ none) ∧
      d.ahead A s r < n

theorem owns_iff {k : StreamKey} : d.owns k = true ↔ d.inShard k = .ok true := by
  unfold owns
  cases d.inShard k with
  | error e => simp [Except.toOption]
  | ok b => simp [Except.toOption]

theorem settles_eq_false_iff {k : StreamKey} {i : ℕ} : settles A answer k i = false ↔
    (answer k i = .delivered → A.scopeErr k.1 ≠ none) := by
  rw [settles, Bool.and_eq_false_iff, decide_eq_false_iff_not, ← imp_iff_not_or,
    ← Bool.not_eq_true, Option.isNone_iff_eq_none]

/-- The reader of a Run stops unless a stream keeps it going. -/
theorem stops_iff_not_stuck {s : Store κ} (hv : d.validate = .ok ()) (hl : d.Lists A n) :
    (∃ m, (d.reader A answer n).Stops
      ((d.reader A answer n).round^[m] (d.queue A (begun s)))) ↔ ¬ d.Stuck A answer s := by
  rw [Paging.Reader.stops_iff]
  constructor
  · rintro h ⟨-, n', hl', r, hr, hown, hfails, hlt⟩
    obtain rfl : n' = n := Except.ok.inj (hl'.2.symm.trans hl.2)
    refine absurd (h (rowKey r) (List.mem_map_of_mem hr) (owns_iff.2 hown) fun i _ => ?_) ?_
    · exact settles_eq_false_iff.2 (hfails i)
    · rw [before_queue]
      exact Nat.not_le.2 hlt
  · intro h k hk hown hope
    obtain ⟨r, hr, rfl⟩ := List.mem_map.1 hk
    rw [before_queue]
    by_contra hlt
    refine h ⟨hv, n, hl, r, hr, owns_iff.1 hown, fun i => ?_, Nat.not_le.1 hlt⟩
    exact settles_eq_false_iff.1 (hope i (Nat.zero_le i))

/-- A Run with a stream that keeps it going does not return. -/
theorem run_eq_none_of_stuck {s : Store κ} (hr : Readable A s) (h : d.Stuck A answer s)
    (fuel : ℕ) : d.run A answer now fuel s = none := by
  obtain ⟨hv, n, hl, r, hr', hown, hrest⟩ := id h
  have hs := sharded_of_inShard hown
  rw [run, hv]
  cases hres : d.runBatches A answer now fuel (begun s) with
  | none => exact hres
  | some res =>
    obtain ⟨p', -, hended⟩ := ended_of_runBatches hs hl hr hres
    obtain ⟨m, hm⟩ := hended.rounds
    exact absurd h ((stops_iff_not_stuck hv hl).1 ⟨m, hm ▸ hended.stops⟩)

end Drain

/-- **When a Run returns.**  On a store that nobody else writes to, a Run returns, with or without
an error, unless there is a stream of its shard that is behind, whose deliveries all fail, and that
has fewer streams of other shards before it than a page holds. -/
theorem run_returns_iff {d : Drain} {A : Adapter κ} {answer : Publisher} {now : Time} {s : Store κ}
    (hr : Readable A s) :
    (∃ fuel res, d.run A answer now fuel s = some res) ↔ ¬ d.Stuck A answer s := by
  constructor
  · rintro ⟨fuel, res, hres⟩ hstuck
    rw [Drain.run_eq_none_of_stuck hr hstuck] at hres
    cases hres
  · intro h
    unfold Drain.run
    cases hv : d.validate with
    | error e => exact ⟨0, _, rfl⟩
    | ok =>
      by_cases hs : d.Sharded ∧ ∃ n, d.Lists A n
      · obtain ⟨hs, n, hl⟩ := hs
        obtain ⟨m, hm⟩ := (Drain.stops_iff_not_stuck hv hl).2 h
        obtain ⟨fuel, p', hp'⟩ := Drain.exists_runBatches now hs hl hr hm
        exact ⟨fuel, _, hp'⟩
      · obtain ⟨res, hres⟩ := Drain.exists_runBatches_of_failing answer now _ hs
        exact ⟨1, res, hres⟩

/-! ### A publisher that fails -/

namespace Outage

/-- A cached state. -/
def row (streamID : String) : StateCacheRow (Sqlite.columns Bytes) :=
  ⟨"acme", streamID, "", [], 1, false, 1, "+"⟩

/-- A store with one cached state. -/
def store : Store (Sqlite.columns Bytes) :=
  ⟨{ Db.empty with stateCache := Table.empty.upsert (row "order:1") }, .empty⟩

/-- A drain of the tenant. -/
def drain : Drain := ⟨"index", "acme", 0, 0, 0⟩

/-- A publisher that fails every time. -/
def failing : Publisher := fun _ _ => .refused

/-- A publisher that fails twice on each stream. -/
def recovering : Publisher := fun _ i => if i < 2 then .refused else .delivered

theorem readable : Readable (Sqlite.adapter .small) store := by
  intro r hr
  obtain rfl : r = row "order:1" := List.mem_singleton.1 hr
  exact ⟨_, rfl⟩

theorem rowsBehind_eq :
    (Sqlite.adapter .small).rowsBehind "index" "acme" store = [row "order:1"] := rfl

end Outage

open Outage in
/-- **A Run does not return** while the one cached state cannot be delivered. -/
theorem run_returns_never :
    ¬ ∃ now fuel, drain.run (Sqlite.adapter .small) failing now fuel store ≠ none := by
  rintro ⟨now, fuel, hne⟩
  refine hne ?_
  refine Drain.run_eq_none_of_stuck readable
    ⟨rfl, 100, ⟨rfl, rfl⟩, row "order:1", ?_, rfl, fun _ h => ?_, ?_⟩ fuel
  · exact rowsBehind_eq ▸ List.mem_singleton_self _
  · cases h
  · decide

open Outage in
/-- It returns when the publisher recovers. -/
theorem run_returns_recovering : Readable (Sqlite.adapter .small) store ∧
    ∃ fuel res, drain.run (Sqlite.adapter .small) recovering 0 fuel store = some res := by
  refine ⟨readable, (run_returns_iff readable).2 ?_⟩
  rintro ⟨-, _, -, r, -, -, hfails, -⟩
  exact hfails 2 rfl rfl

end EventStore.StateStream
