import EventStore.Outbox.History

/-!
# The books of the outbox

For a single runner, and operators that act between its Runs, the outbox table agrees with what has
happened: which rows are there, which of them are published, how many attempts they count, and how
often `OnDLQ` has been called.

The attempts of a row are counted in the table, while the drain decides from the row it read with
the page whether the attempt that failed was the last one.  The two agree because nobody else
changes the rows of a page (`OutboxSys.Books.open`); with a second runner, or an operator who
replays a row in the middle of a Run, they need not.

## Main definitions

* `recorded` : the failures of a row since it was last replayed, from the history.
* `OutboxDb.Accounted` : the table agrees with the history.
* `OutboxSys.SingleRunner` : the steps of a single runner, with operators between its Runs.

## Main results

* `outbox_accounts` : the books agree in every state a run can reach.
-/

namespace EventStore

variable {κ : Columns}

/-! ### The table and the history -/

/-- One entry of the history, in the count of the failures of row `k`. -/
def tally (k : RowKey) (n : ℕ) : LogEntry → ℕ
  | .failed k' _ => if k' = k then n + 1 else n
  | .replayed k' => if k' = k then 0 else n
  | _ => n

/-- The failures of row `k` that have been recorded since it was last replayed. -/
def recorded (log : List LogEntry) (k : RowKey) : ℕ := log.foldl (tally k) 0

theorem recorded_append (log es : List LogEntry) (k : RowKey) :
    recorded (log ++ es) k = es.foldl (tally k) (recorded log k) := List.foldl_append

theorem tally_of_key_ne {k : RowKey} {e : LogEntry} (h : e.key ≠ k) (n : ℕ) : tally k n e = n := by
  cases e with
  | failed k' b => exact if_neg h
  | replayed k' => exact if_neg h
  | _ => rfl

theorem foldl_tally_of_key_ne {k : RowKey} {es : List LogEntry} (h : ∀ e ∈ es, e.key ≠ k) (n : ℕ) :
    es.foldl (tally k) n = n := by
  induction es with
  | nil => rfl
  | cons e es ih =>
    rw [List.foldl_cons, tally_of_key_ne (h e List.mem_cons_self)]
    exact ih fun e he => h e (List.mem_cons_of_mem _ he)

/-- A replay resets the count, whichever rows are replayed with it. -/
theorem foldl_tally_replayed (k : RowKey) (ks : List RowKey) (n : ℕ) :
    (ks.map LogEntry.replayed).foldl (tally k) n = if k ∈ ks then 0 else n := by
  induction ks generalizing n with
  | nil => simp
  | cons k' ks ih =>
    rw [List.map_cons, List.foldl_cons, ih]
    by_cases hk : k' = k
    · simp [tally, hk]
    · simp [tally, hk, Ne.symm hk]

/-- An entry that is neither a failure nor a replay. -/
theorem foldl_tally_map {f : RowKey → LogEntry} (hf : ∀ k n k', tally k n (f k') = n) (k : RowKey)
    (ks : List RowKey) (n : ℕ) : (ks.map f).foldl (tally k) n = n := by
  induction ks with
  | nil => rfl
  | cons k' ks ih => rw [List.map_cons, List.foldl_cons, hf, ih]

/-- The table agrees with the history. -/
structure OutboxDb.Accounted (s : OutboxDb κ) (log : List LogEntry) : Prop where
  known : ∀ e ∈ log, ∃ r ∈ s.db.events.rows, r.rowKey = e.key
  /-- An event has its row unless it was deleted. -/
  present : ∀ r ∈ s.db.events.rows, (∃ o ∈ s.outbox, o.key = r.rowKey) ↔ .deleted r.rowKey ∉ log
  published : ∀ o ∈ s.outbox, o.publishedAt.isSome = true → SettledIn log o.key
  attempts : ∀ o ∈ s.outbox, o.attempts = recorded log o.key

namespace OutboxDb

variable {s s' : OutboxDb κ} {log es : List LogEntry}

/-- The key of an entry determines it. -/
theorem eq_of_key {o o' : OutboxEntry κ} (h : o ∈ s.outbox) (h' : o' ∈ s.outbox)
    (hk : o.key = o'.key) : o = o' := by
  have hnodup : (s.outbox.map fun o => o.globalPosition).Nodup :=
    List.pairwise_map.2 (pairwise_outbox.imp Nat.ne_of_lt)
  exact List.inj_on_of_nodup_map hnodup h h' (Prod.mk.inj hk).2

namespace Accounted

theorem empty : (OutboxDb.empty : OutboxDb κ).Accounted [] where
  known := by simp
  present _ hr := absurd hr List.not_mem_nil
  published := by simp [OutboxDb.empty]
  attempts := by simp [OutboxDb.empty]

/-- New entries of the history are of events. -/
theorem known_append (h : s.Accounted log) (hdb : s'.db = s.db)
    (hes : ∀ e ∈ es, ∃ r ∈ s.db.events.rows, r.rowKey = e.key) :
    ∀ e ∈ log ++ es, ∃ r ∈ s'.db.events.rows, r.rowKey = e.key := by
  rw [hdb]
  intro e he
  exact (List.mem_append.1 he).elim (h.known e) (hes e)

/-- An append enqueues a row for each of its events. -/
theorem grown {rows : List (EventRow κ)} (h : s.Accounted log) (hg : s.Grown s' rows) :
    s'.Accounted log := by
  -- the history says nothing about the new events
  have hnew : ∀ r ∈ rows, ∀ e ∈ log, e.key ≠ r.rowKey := fun r hr e he hk => by
    obtain ⟨r₀, hr₀, hk₀⟩ := h.known e he
    exact hg.fresh r₀ hr₀ r hr (hk₀.trans hk)
  have hmem : ∀ o ∈ s'.outbox, o ∈ s.outbox ∨ ∃ r ∈ rows, o = r.outboxRow.enqueue := fun o ho => by
    obtain ⟨x, hx, rfl⟩ := exists_joined ho
    rcases (hg.joined x).1 hx with hx | ⟨r, hr, rfl⟩
    · exact Or.inl (mem_joined.1 hx).1
    · exact Or.inr ⟨r, hr, rfl⟩
  constructor
  · intro e he
    obtain ⟨r, hr, hk⟩ := h.known e he
    exact ⟨r, hg.mem_events.2 (Or.inl hr), hk⟩
  · intro r hr
    rcases hg.mem_events.1 hr with hr | hr
    · rw [← h.present r hr]
      constructor
      · rintro ⟨o, ho, hk⟩
        rcases hmem o ho with ho | ⟨r', hr', rfl⟩
        · exact ⟨o, ho, hk⟩
        · exact absurd hk.symm (hg.fresh r hr r' hr')
      · rintro ⟨o, ho, hk⟩
        obtain ⟨x, hx, rfl⟩ := exists_joined ho
        exact ⟨x.entry, (mem_joined.1 ((hg.joined x).2 (Or.inl hx))).1, hk⟩
    · refine ⟨fun _ hd => hnew r hr _ hd rfl, fun _ => ⟨r.outboxRow.enqueue, ?_, rfl⟩⟩
      exact (mem_joined.1 ((hg.joined ⟨r.outboxRow.enqueue, r⟩).2 (Or.inr ⟨r, hr, rfl⟩))).1
  · intro o ho hp
    rcases hmem o ho with ho | ⟨r, -, rfl⟩
    · exact h.published o ho hp
    · cases hp
  · intro o ho
    rcases hmem o ho with ho | ⟨r, hr, rfl⟩
    · exact h.attempts o ho
    · exact (foldl_tally_of_key_ne (hnew r hr) 0).symm

/-- An update that the history accounts for. -/
theorem update {p : OutboxEntry κ → Bool} {f : OutboxEntry κ → OutboxEntry κ}
    (hf : ∀ o, (f o).toOutboxRow = o.toOutboxRow) (h : s.Accounted log)
    (hes : ∀ e ∈ es, ∃ r ∈ s.db.events.rows, r.rowKey = e.key)
    (hdel : ∀ k, .deleted k ∉ es)
    (hset : ∀ o ∈ s.outbox, p o = true → (f o).publishedAt.isSome = true →
      o.publishedAt.isSome = true ∨ SettledIn (log ++ es) o.key)
    (hatt : ∀ o ∈ s.outbox, (if p o then f o else o).attempts = es.foldl (tally o.key) o.attempts) :
    (s.update p f hf).Accounted (log ++ es) := by
  have hkey : ∀ o : OutboxEntry κ, (if p o then f o else o).key = o.key := fun o => by
    split_ifs
    · rw [OutboxEntry.key, OutboxEntry.key, hf o]
    · rfl
  constructor
  · exact h.known_append rfl hes
  · intro r hr
    rw [List.mem_append, not_or, ← h.present r hr]
    constructor
    · rintro ⟨o', ho', hk⟩
      obtain ⟨o, ho, rfl⟩ := List.mem_map.1 ho'
      exact ⟨⟨o, ho, (hkey o).symm.trans hk⟩, hdel _⟩
    · rintro ⟨⟨o, ho, hk⟩, -⟩
      exact ⟨_, List.mem_map_of_mem ho, (hkey o).trans hk⟩
  · intro o' ho' hsome
    obtain ⟨o, ho, rfl⟩ := List.mem_map.1 ho'
    rw [hkey]
    split_ifs at hsome with hp
    · rcases hset o ho hp hsome with hs | hs
      · exact (h.published o ho hs).append es
      · exact hs
    · exact (h.published o ho hsome).append es
  · intro o' ho'
    obtain ⟨o, ho, rfl⟩ := List.mem_map.1 ho'
    rw [hkey, hatt o ho, recorded_append, h.attempts o ho]

/-- A replay of rows. -/
theorem replay {p : OutboxEntry κ → Bool} (h : s.Accounted log) :
    (s.update p OutboxEntry.replay fun _ => rfl).Accounted (log ++ (s.keys p).map .replayed) := by
  refine h.update _ (known_keys fun _ => rfl) (by simp) (fun _ _ _ hs => Or.inl hs) fun o ho => ?_
  rw [foldl_tally_replayed]
  by_cases hp : p o = true
  · rw [if_pos hp, if_pos (mem_keys.2 ⟨o, ho, hp, rfl⟩)]
    rfl
  · rw [if_neg hp, if_neg fun hk => ?_]
    obtain ⟨o', ho', hp', hk'⟩ := mem_keys.1 hk
    exact hp (eq_of_key ho ho' hk'.symm ▸ hp')

/-- A deletion. -/
theorem delete {p : OutboxEntry κ → Bool} (h : s.Accounted log) :
    (s.delete p).Accounted (log ++ (s.keys p).map .deleted) := by
  constructor
  · exact h.known_append rfl (known_keys fun _ => rfl)
  · intro r hr
    have hmem : .deleted r.rowKey ∈ (s.keys p).map LogEntry.deleted ↔
        ∃ o ∈ s.outbox, p o = true ∧ o.key = r.rowKey := by
      rw [← mem_keys, List.mem_map]
      exact ⟨fun ⟨k, hk, he⟩ => LogEntry.deleted.inj he ▸ hk, fun hk => ⟨_, hk, rfl⟩⟩
    rw [List.mem_append, not_or, ← h.present r hr, hmem]
    constructor
    · rintro ⟨o, ho, hk⟩
      obtain ⟨ho, hp⟩ := List.mem_filter.1 ho
      refine ⟨⟨o, ho, hk⟩, fun ⟨o', ho', hp', hk'⟩ => ?_⟩
      rw [eq_of_key ho ho' (hk.trans hk'.symm), hp'] at hp
      cases hp
    · rintro ⟨⟨o, ho, hk⟩, hno⟩
      refine ⟨o, List.mem_filter.2 ⟨ho, ?_⟩, hk⟩
      rw [Bool.not_eq_true', Bool.eq_false_iff]
      exact fun hp => hno ⟨o, ho, hp, hk⟩
  · exact fun o ho hsome => (h.published o (List.mem_filter.1 ho).1 hsome).append _
  · intro o ho
    rw [recorded_append, foldl_tally_map fun _ _ _ => rfl]
    exact h.attempts o (List.mem_filter.1 ho).1

/-- A step that leaves the table alone. -/
theorem note (h : s.Accounted log) (hes : ∀ e ∈ es, ∃ r ∈ s.db.events.rows, r.rowKey = e.key)
    (hdel : ∀ k, .deleted k ∉ es) (htally : ∀ k n, es.foldl (tally k) n = n) :
    s.Accounted (log ++ es) where
  known := h.known_append rfl hes
  present r hr := by
    rw [List.mem_append, not_or, ← h.present r hr]
    exact ⟨fun ho => ⟨ho, hdel _⟩, fun ho => ho.1⟩
  published o ho hsome := (h.published o ho hsome).append es
  attempts o ho := by
    rw [recorded_append, htally]
    exact h.attempts o ho

end Accounted

end OutboxDb

/-! ### The runner -/

namespace Runner

/-- The rows of the page that are not through. -/
def held : Runner → List PendingRow
  | .rows _ _ rest | .crossed _ _ _ rest => rest
  | .sent _ _ row rest | .refused _ _ row _ rest => row :: rest
  | .idle | .reading .. | .cleaning _ => []

/-- The threshold of attempts of the Run. -/
def threshold : Runner → ℕ
  | .reading d _ | .rows d _ _ | .sent d _ _ _ | .refused d _ _ _ _ | .crossed d _ _ _
  | .cleaning d => safeMaxAttempts d.maxAttempts
  | .idle => 0

/-- The calls of `OnDLQ` that are still to come for row `k`. -/
def owes (k : RowKey) : Runner → ℕ
  | .crossed _ _ row _ => if row.rowKey = k then 1 else 0
  | _ => 0

/-- The runner is between two Runs. -/
def isIdle : Runner → Bool
  | .idle => true
  | _ => false

end Runner

/-- The row of a page is as the table has it. -/
def PendingRow.Current (row : PendingRow) (max : ℕ) (s : OutboxDb κ) : Prop :=
  ∃ o ∈ s.outbox, o.key = row.rowKey ∧ o.attempts = row.attempts ∧ row.attempts < max

/-- The books of a single runner agree. -/
structure OutboxSys.Books (s : OutboxSys κ) : Prop where
  table : s.store.Accounted s.log
  held : ∀ row ∈ (s.runner 0).held, row.Current (s.runner 0).threshold s.store
  distinct : (s.runner 0).held.Pairwise fun a b => a.rowKey ≠ b.rowKey
  sent : ∀ d m row rest, s.runner 0 = .sent d m row rest → .published row.rowKey ∈ s.log
  callbacks : ∀ k, s.log.count (.failed k true) =
    s.log.count (.onDLQ k) + s.log.count (.lost k) + (s.runner 0).owes k

/-- A single runner, and operators between its Runs. -/
def OutboxSys.SingleRunner (s : OutboxSys κ) : OutboxStep → Prop
  | .append .. => True
  | .drain i _ => i = 0
  | .replay .. | .abandon .. | .replayAll .. | .cleanup .. => (s.runner 0).isIdle = true

/-- A row keeps its entry when an update leaves that one out. -/
theorem PendingRow.Current.update {row : PendingRow} {max : ℕ} {s : OutboxDb κ}
    {p : OutboxEntry κ → Bool} {f : OutboxEntry κ → OutboxEntry κ}
    (hf : ∀ o, (f o).toOutboxRow = o.toOutboxRow) (h : row.Current max s)
    (hp : ∀ o ∈ s.outbox, o.key = row.rowKey → p o = false) :
    row.Current max (s.update p f hf) := by
  obtain ⟨o, ho, hk, hatt, hlt⟩ := h
  refine ⟨o, List.mem_map.2 ⟨o, ho, ?_⟩, hk, hatt, hlt⟩
  rw [hp o ho hk]
  rfl

/-- An update by a key. -/
theorem OutboxDb.hasKey_eq_false {k : RowKey} {row : PendingRow} {o : OutboxEntry κ}
    (hne : k ≠ row.rowKey) (hk : o.key = k) :
    o.hasKey row.envelope.tenantID row.envelope.globalPosition = false := by
  rw [Bool.eq_false_iff]
  exact fun h => hne (hk.symm.trans (OutboxEntry.hasKey_iff.1 h))

/-- The row that was read is below the threshold, so the attempt that fails is the last one for the
drain when it is the last one in the table. -/
theorem PendingRow.Current.crosses_eq {row : PendingRow} {d : Drain} {s : OutboxDb κ}
    (h : row.Current (safeMaxAttempts d.maxAttempts) s) :
    s.crosses d.maxAttempts row = d.crossedDLQ row := by
  obtain ⟨o, ho, hk, hatt, hlt⟩ := h
  rw [Bool.eq_iff_iff, OutboxDb.crosses, List.any_eq_true, Drain.crossedDLQ]
  simp only [Bool.and_eq_true, decide_eq_true_eq]
  constructor
  · rintro ⟨o', ho', ⟨⟨hk', hpos⟩, -⟩, hle⟩
    have hoo' := OutboxDb.eq_of_key ho ho' (hk.trans (OutboxEntry.hasKey_iff.1 hk').symm)
    rw [← hoo', hatt] at hle
    exact ⟨hpos, hle⟩
  · rintro ⟨hpos, hle⟩
    rw [safeMaxAttempts, if_neg (Nat.ne_of_gt hpos)] at hlt
    exact ⟨o, ho, ⟨⟨OutboxEntry.hasKey_iff.2 hk, hpos⟩, by omega⟩, by omega⟩

/-- The rows of a page are as the table has them. -/
theorem OutboxDialect.current_of_pendingOutbox {Q : OutboxDialect κ} {s : OutboxDb κ}
    {tenant : String} {limit maxAttempts : ℕ} {now : Time} {found : List PendingRow}
    (h : Q.pendingOutbox tenant limit maxAttempts now s = .ok found) :
    (∀ row ∈ found, row.Current (safeMaxAttempts maxAttempts) s) ∧
      found.Pairwise fun a b => a.rowKey ≠ b.rowKey := by
  obtain ⟨n, -, hall⟩ := pendingOutbox_eq_ok h
  have hkey : ∀ x row, Q.toPendingRow x = .ok row → x.entry.key = row.rowKey := fun x row hr => by
    obtain ⟨-, -, -, -, -, ht, hg, -, -⟩ := toPendingRow_eq_ok hr
    rw [OutboxEntry.key, PendingRow.rowKey, ht, hg]
  constructor
  · intro row hrow
    obtain ⟨x, hx, hxr⟩ := exists_of_forall₂_right hall hrow
    obtain ⟨hvis, hlive, -⟩ := mem_heads.1 (page_sublist.subset hx)
    obtain ⟨-, -, -, -, -, -, -, -, hatt⟩ := toPendingRow_eq_ok hxr
    refine ⟨x.entry, (OutboxDb.mem_joined.1 (visible_sublist.subset hvis)).1, hkey x row hxr,
      hatt.symm, ?_⟩
    rw [hatt]
    exact of_decide_eq_true (Bool.and_eq_true_iff.1 hlive).2
  · refine pairwise_of_forall₂ (fun x y a b hxa hyb hlt hk => ?_) hall
      (OutboxDb.pairwise_joined.sublist (page_sublist.trans heads_sublist))
    rw [← hkey x a hxa, ← hkey y b hyb] at hk
    exact hlt.ne (Prod.mk.inj hk).2

/-! ### Steps and runs -/

namespace OutboxSys.Books

variable {s : OutboxSys κ}

theorem empty : (OutboxSys.empty : OutboxSys κ).Books where
  table := .empty
  held _ hr := absurd hr List.not_mem_nil
  distinct := .nil
  sent _ _ _ _ hr := Runner.noConfusion hr
  callbacks _ := rfl

/-- A step of the runner: the table, the rows it still holds, and the callbacks. -/
theorem move {r' : Runner} {store : OutboxDb κ} {es : List LogEntry} (h : s.Books)
    (htable : store.Accounted (s.log ++ es))
    (hheld : ∀ row ∈ r'.held, row.Current r'.threshold store)
    (hdistinct : r'.held.Pairwise fun a b => a.rowKey ≠ b.rowKey)
    (hsent : ∀ d m row rest, r' = .sent d m row rest → .published row.rowKey ∈ s.log ++ es)
    (hcalls : ∀ k, es.count (.failed k true) + (s.runner 0).owes k =
      es.count (.onDLQ k) + es.count (.lost k) + r'.owes k) :
    OutboxSys.Books ⟨store, Function.update s.runner 0 r', s.log ++ es⟩ := by
  refine ⟨htable, ?_, ?_, ?_, fun k => ?_⟩
  · simpa only [Function.update_self] using hheld
  · simpa only [Function.update_self] using hdistinct
  · simpa only [Function.update_self] using hsent
  · have h₁ := h.callbacks k
    have h₂ := hcalls k
    simp only [Function.update_self, List.count_append]
    omega

/-- A step of an operator, between two Runs. -/
theorem operator {store : OutboxDb κ} {es : List LogEntry} (h : s.Books)
    (hidle : (s.runner 0).isIdle = true) (htable : store.Accounted (s.log ++ es))
    (hes : ∀ k, es.count (.failed k true) = 0 ∧ es.count (.onDLQ k) = 0 ∧ es.count (.lost k) = 0) :
    OutboxSys.Books ⟨store, s.runner, s.log ++ es⟩ := by
  have hi : s.runner 0 = .idle := by
    cases hr : s.runner 0 with
    | idle => rfl
    | _ =>
      rw [hr] at hidle
      cases hidle
  have hupd : Function.update s.runner 0 (s.runner 0) = s.runner := Function.update_eq_self ..
  rw [← hupd, hi]
  refine h.move htable (fun row hr => absurd hr List.not_mem_nil) .nil (by simp) fun k => ?_
  obtain ⟨h₁, h₂, h₃⟩ := hes k
  rw [h₁, h₂, h₃, hi]

section Drain

variable {d : Drain} {m : Drain.Memory} {row : PendingRow} {rest : List PendingRow}
  {Q : OutboxDialect κ}

/-- Rows that are held are of events. -/
theorem exists_of_held (h : s.Books) (hrow : row ∈ (s.runner 0).held) :
    ∃ r ∈ s.store.db.events.rows, r.rowKey = row.rowKey := by
  obtain ⟨o, ho, hk, -⟩ := h.held row hrow
  rw [← hk]
  exact OutboxDb.exists_rowKey ho

/-- So is the row `OnDLQ` is to be called on. -/
theorem exists_of_crossed (h : s.Books) (hi : s.runner 0 = .crossed d m row rest) :
    ∃ r ∈ s.store.db.events.rows, r.rowKey = row.rowKey := by
  have hcount := h.callbacks row.rowKey
  have howes : (s.runner 0).owes row.rowKey = 1 := by
    rw [hi]
    exact if_pos rfl
  have hpos : 0 < s.log.count (.failed row.rowKey true) := by omega
  exact h.table.known _ (List.count_pos_iff.1 hpos)

/-- A step that looks at the tables or ends the Run. -/
theorem looks {r' : Runner} (h : s.Books) (howes : ∀ k, (s.runner 0).owes k = r'.owes k)
    (hheld : ∀ row ∈ r'.held, row.Current r'.threshold s.store)
    (hdistinct : r'.held.Pairwise fun a b => a.rowKey ≠ b.rowKey)
    (hsent : ∀ d m row rest, r' ≠ .sent d m row rest) :
    OutboxSys.Books ⟨s.store, Function.update s.runner 0 r', s.log ++ []⟩ := by
  refine h.move ?_ hheld hdistinct (fun d m row rest hr => absurd hr (hsent d m row rest))
    fun k => by simpa using howes k
  exact h.table.note (by simp) (by simp) fun _ _ => rfl

/-- `Publish` is called on a row. -/
theorem call {e : LogEntry} {r' : Runner} (h : s.Books)
    (hi : s.runner 0 = .rows d m (row :: rest)) (hcall : e.isCall = true)
    (hkey : e.key = row.rowKey) (hheld : r'.held = row :: rest)
    (hmax : r'.threshold = safeMaxAttempts d.maxAttempts) (howes : ∀ k, r'.owes k = 0)
    (hsent : ∀ d m row rest, r' = .sent d m row rest → e = .published row.rowKey) :
    OutboxSys.Books ⟨s.store, Function.update s.runner 0 r', s.log ++ [e]⟩ := by
  have hh := h.held
  have hd := h.distinct
  have hmem : row ∈ (s.runner 0).held := by rw [hi]; exact List.mem_cons_self
  have hex := h.exists_of_held hmem
  rw [hi] at hh hd
  refine h.move ?_ ?_ ?_ ?_ ?_
  · refine h.table.note (fun e' he' => ?_) (fun k hk => ?_) fun k n => ?_
    · rw [List.mem_singleton.1 he', hkey]
      exact hex
    · rw [← List.mem_singleton.1 hk] at hcall
      cases hcall
    · cases e <;> first | rfl | cases hcall
  · rw [hheld, hmax]
    exact hh
  · rw [hheld]
    exact hd
  · intro d m row rest hr
    rw [hsent d m row rest hr]
    exact List.mem_append_right _ List.mem_cons_self
  · intro k
    rw [howes, hi]
    cases e <;> first | rfl | cases hcall

/-- A publication is recorded. -/
theorem marked {now : Time} (h : s.Books) (hi : s.runner 0 = .sent d m row rest) :
    OutboxSys.Books ⟨Drain.recordPublish Q now row s.store,
      Function.update s.runner 0 (.rows d (Drain.afterPublish m) rest), s.log ++ []⟩ := by
  have hh := h.held
  have hd := h.distinct
  rw [hi] at hh hd
  obtain ⟨hfirst, hrest⟩ := List.pairwise_cons.1 hd
  have hpub := h.sent d m row rest hi
  refine h.move ?_ (fun row' hrow' => ?_) hrest (by simp) fun k => by rw [hi]; rfl
  · refine h.table.update ?_ (by simp) (by simp) (fun o _ ho _ => Or.inr ?_) ?_
    · exact fun _ => rfl
    · rw [OutboxEntry.hasKey_iff.1 ho]
      exact Or.inl (List.mem_append_left _ hpub)
    · intro o _
      split_ifs <;> rfl
  · refine (hh row' (List.mem_cons_of_mem _ hrow')).update ?_ fun o _ hk =>
      OutboxDb.hasKey_eq_false (hfirst row' hrow').symm hk
    exact fun _ => rfl

/-- A failure is recorded. -/
theorem failed {now : Time} {errMsg : Bytes} {r' : Runner} (h : s.Books)
    (hi : s.runner 0 = .refused d m row errMsg rest) (hheld : r'.held = rest)
    (hmax : r'.threshold = safeMaxAttempts d.maxAttempts)
    (hsent : ∀ d m row rest, r' ≠ .sent d m row rest)
    (howes : ∀ k, r'.owes k = if d.crossedDLQ row = true ∧ row.rowKey = k then 1 else 0) :
    OutboxSys.Books ⟨d.recordFailure Q now row errMsg s.store, Function.update s.runner 0 r',
      s.log ++ [.failed row.rowKey (s.store.crosses d.maxAttempts row)]⟩ := by
  have hh := h.held
  have hd := h.distinct
  have hmem : row ∈ (s.runner 0).held := by rw [hi]; exact List.mem_cons_self
  have hex := h.exists_of_held hmem
  rw [hi] at hh hd
  obtain ⟨hfirst, hrest⟩ := List.pairwise_cons.1 hd
  have hcross : s.store.crosses d.maxAttempts row = d.crossedDLQ row :=
    (hh row List.mem_cons_self).crosses_eq
  refine h.move ?_ (fun row' hrow' => ?_) (hheld ▸ hrest)
    (fun d m row rest hr => absurd hr (hsent d m row rest)) fun k => ?_
  · refine h.table.update ?_ (fun e he => ?_) (by simp) (fun _ _ _ hs => Or.inl hs) ?_
    · exact fun _ => rfl
    · rw [List.mem_singleton.1 he]
      exact hex
    · intro o _
      rw [List.foldl_cons, List.foldl_nil, tally]
      by_cases hk : row.rowKey = o.key
      · rw [if_pos (OutboxEntry.hasKey_iff.2 hk.symm), if_pos hk]
      · rw [OutboxDb.hasKey_eq_false (Ne.symm hk) rfl, if_neg hk]
        rfl
  · rw [hheld] at hrow'
    rw [hmax]
    refine (hh row' (List.mem_cons_of_mem _ hrow')).update ?_ fun o _ hk =>
      OutboxDb.hasKey_eq_false (hfirst row' hrow').symm hk
    exact fun _ => rfl
  · rw [howes, hcross, hi]
    simp only [Runner.owes, List.count_singleton, Nat.add_zero]
    by_cases hk : row.rowKey = k <;> cases d.crossedDLQ row <;> simp [hk]

end Drain

/-- A step of the runner keeps the books. -/
theorem drain {Q : OutboxDialect κ} {l : RunnerStep} {r' : Runner} {store : OutboxDb κ}
    {es : List LogEntry} (h : s.Books) (hm : (s.runner 0).Moves Q s.store l r' store es) :
    OutboxSys.Books ⟨store, Function.update s.runner 0 r', s.log ++ es⟩ := by
  generalize hi : s.runner 0 = r at hm
  cases hm with
  | begin _ => exact h.looks (fun k => by rw [hi]; rfl) (by simp [Runner.held]) .nil (by simp)
  | page hp =>
    obtain ⟨hcur, hdistinct⟩ := OutboxDialect.current_of_pendingOutbox hp
    exact h.looks (fun k => by rw [hi]; rfl) hcur hdistinct (by simp)
  | skip _ =>
    have hh := h.held
    have hd := h.distinct
    rw [hi] at hh hd
    exact h.looks (fun k => by rw [hi]; rfl) (fun row hr => hh row (List.mem_cons_of_mem _ hr))
      (List.pairwise_cons.1 hd).2 (by simp)
  | sent _ =>
    refine h.call hi rfl rfl rfl rfl (fun _ => rfl) fun d m row rest hr => ?_
    cases hr
    rfl
  | refused _ => exact h.call hi rfl rfl rfl rfl (fun _ => rfl) (by simp)
  | marked => exact h.marked hi
  | failed hc => exact h.failed hi rfl rfl (by simp) fun k => by simp [Runner.owes, hc]
  | crossed hc => exact h.failed hi rfl rfl (by simp) fun k => by simp [Runner.owes, hc]
  | @onDLQ d m row rest =>
    have hh := h.held
    have hd := h.distinct
    rw [hi] at hh hd
    refine h.move (h.table.note (fun e he => ?_) (by simp) fun _ _ => rfl) hh hd (by simp)
      fun k => ?_
    · rw [List.mem_singleton.1 he]
      exact h.exists_of_crossed hi
    · rw [hi]
      by_cases hk : row.rowKey = k <;> simp [Runner.owes, hk]
  | again _ => exact h.looks (fun k => by rw [hi]; rfl) (by simp [Runner.held]) .nil (by simp)
  | through _ => exact h.looks (fun k => by rw [hi]; rfl) (by simp [Runner.held]) .nil (by simp)
  | cleanup _ =>
    refine h.move h.table.delete (by simp [Runner.held]) .nil (by simp) fun k => ?_
    rw [hi]
    simp [List.count_eq_zero.2, Runner.owes]
  | @lost d m row rest =>
    refine h.move (h.table.note (fun e he => ?_) (by simp) fun _ _ => rfl) (by simp [Runner.held])
      .nil (by simp) fun k => ?_
    · rw [List.mem_singleton.1 he]
      exact h.exists_of_crossed hi
    · rw [hi]
      by_cases hk : row.rowKey = k <;> simp [Runner.owes, hk]
  | stop hne =>
    refine h.looks (fun k => ?_) (by simp [Runner.held]) .nil (by simp)
    rw [hi]
    cases r with
    | crossed d m row rest => exact absurd rfl (hne d m row rest)
    | _ => rfl

end OutboxSys.Books

section Run

variable {s s' : OutboxSys κ} {Q : OutboxDialect κ} {H : Hasher}

/-- Entries of one kind are not entries of another. -/
theorem count_map_eq_zero {f : RowKey → LogEntry} {ks : List RowKey} {e : LogEntry}
    (h : ∀ k, f k ≠ e) : (ks.map f).count e = 0 := by
  rw [List.count_eq_zero, List.mem_map]
  exact fun ⟨k, _, hk⟩ => h k hk

/-- Every step keeps the books. -/
theorem OutboxSys.Books.next {l : OutboxStep} (h : s.Books) (hok : s.SingleRunner l)
    (hn : s.next Q H l = some s') : s'.Books := by
  cases l with
  | append E p =>
    obtain rfl := Option.some.inj hn
    obtain ⟨rows, hg⟩ :=
      OutboxDb.append_grown (s := s.store) (D := Q.base) (H := H) (E := E) (p := p)
    refine ⟨h.table.grown hg, fun row hrow => ?_, h.distinct, h.sent, h.callbacks⟩
    obtain ⟨o, ho, hrest⟩ := h.held row hrow
    exact ⟨o, List.mem_append_left _ ho, hrest⟩
  | drain i l =>
    obtain ⟨⟨r', store, es⟩, hstep, rfl⟩ := Option.map_eq_some_iff.1 hn
    obtain rfl : i = 0 := hok
    exact h.drain (Runner.moves_of_step hstep)
  | replay t gp =>
    obtain rfl := Option.some.inj hn
    refine h.operator hok h.table.replay fun k => ⟨?_, ?_, ?_⟩
    all_goals exact count_map_eq_zero fun _ => nofun
  | abandon now t gp =>
    obtain rfl := Option.some.inj hn
    refine h.operator hok (h.table.update ?_ (OutboxDb.known_keys fun _ => rfl) (by simp)
      (fun o ho hp _ => Or.inr (Or.inr ?_)) fun o ho => ?_) fun k => ⟨?_, ?_, ?_⟩
    · exact fun _ => rfl
    · exact List.mem_append_right _ (List.mem_map_of_mem (OutboxDb.mem_keys.2 ⟨o, ho, hp, rfl⟩))
    · rw [foldl_tally_map fun _ _ _ => rfl]
      split_ifs <;> rfl
    all_goals exact count_map_eq_zero fun _ => nofun
  | replayAll t n =>
    obtain rfl := Option.some.inj hn
    refine h.operator hok h.table.replay fun k => ⟨?_, ?_, ?_⟩
    all_goals exact count_map_eq_zero fun _ => nofun
  | cleanup t olderThan =>
    obtain rfl := Option.some.inj hn
    refine h.operator hok h.table.delete fun k => ⟨?_, ?_, ?_⟩
    all_goals exact count_map_eq_zero fun _ => nofun

theorem books_of_singleRunner
    (h : ((outboxSystem Q H).restrict OutboxSys.SingleRunner).Reachable s) : s.Books := by
  refine h.invariant (fun s hs => ?_) fun s l s' _ hb hstep => hb.next hstep.1 hstep.2
  obtain rfl : s = .empty := hs
  exact .empty

theorem OutboxDb.exists_of_update {s : OutboxDb κ} {p : OutboxEntry κ → Bool}
    {f : OutboxEntry κ → OutboxEntry κ} {o : OutboxEntry κ} (h : o ∈ s.outbox)
    (hf : (f o).toOutboxRow = o.toOutboxRow) :
    ∃ o' ∈ s.outbox.map fun o => if p o then f o else o, o'.toOutboxRow = o.toOutboxRow := by
  refine ⟨_, List.mem_map_of_mem h, ?_⟩
  split_ifs
  · exact hf
  · rfl

theorem OutboxDb.exists_of_cleanup {s : OutboxDb κ} {t : String} {olderThan : Time}
    {o : OutboxEntry κ} (h : o ∈ s.outbox) (hp : o.publishedAt = none) :
    ∃ o' ∈ (Q.cleanupPublishedOutbox t olderThan s).outbox, o'.toOutboxRow = o.toOutboxRow := by
  refine ⟨o, List.mem_filter.2 ⟨h, ?_⟩, rfl⟩
  rw [Bool.not_eq_true', Bool.eq_false_iff]
  intro he
  have hsome := OutboxDialect.isSome_of_expired he
  rw [hp] at hsome
  cases hsome

/-- **No step deletes a row that is not published.** -/
theorem OutboxSys.next_keeps {l : OutboxStep} (hn : s.next Q H l = some s') {o : OutboxEntry κ}
    (ho : o ∈ s.store.outbox) (hp : o.publishedAt = none) :
    ∃ o' ∈ s'.store.outbox, o'.toOutboxRow = o.toOutboxRow := by
  cases l with
  | append E p =>
    obtain rfl := Option.some.inj hn
    exact ⟨o, List.mem_append_left _ ho, rfl⟩
  | drain i l =>
    obtain ⟨⟨r', store, es⟩, hstep, rfl⟩ := Option.map_eq_some_iff.1 hn
    have hm := Runner.moves_of_step hstep
    generalize s.runner i = r at hm
    cases hm with
    | marked => exact OutboxDb.exists_of_update ho rfl
    | failed _ => exact OutboxDb.exists_of_update ho rfl
    | crossed _ => exact OutboxDb.exists_of_update ho rfl
    | cleanup _ => exact OutboxDb.exists_of_cleanup ho hp
    | _ => exact ⟨o, ho, rfl⟩
  | replay t gp =>
    obtain rfl := Option.some.inj hn
    exact OutboxDb.exists_of_update ho rfl
  | abandon now t gp =>
    obtain rfl := Option.some.inj hn
    exact OutboxDb.exists_of_update ho rfl
  | replayAll t n =>
    obtain rfl := Option.some.inj hn
    exact OutboxDb.exists_of_update ho rfl
  | cleanup t olderThan =>
    obtain rfl := Option.some.inj hn
    exact OutboxDb.exists_of_cleanup ho hp

/-- **The books of the outbox agree**, in every run of appends, Runs of one runner, crashes,
cleanups and operators between the Runs: an event has exactly one row until that is deleted; a row
is published only after `Publish` succeeded on it or an operator abandoned it; no step deletes a
row that is not published; attempts are the failures recorded since the last replay; and `OnDLQ`
has been called once for every time the attempts reached the threshold, but for the calls a crash
has prevented and the one that is about to be made. -/
theorem outbox_accounts (h : ((outboxSystem Q H).restrict OutboxSys.SingleRunner).Reachable s) :
    (∀ r ∈ s.events,
        (.deleted r.rowKey ∉ s.log →
          ∃! o, o ∈ s.store.outbox ∧ o.toOutboxRow = r.outboxRow) ∧
        (.deleted r.rowKey ∈ s.log → ∀ o ∈ s.store.outbox, o.key ≠ r.rowKey)) ∧
      (∀ o ∈ s.store.outbox, o.publishedAt.isSome = true →
        .published o.key ∈ s.log ∨ .abandoned o.key ∈ s.log) ∧
      (∀ l s', s.next Q H l = some s' → ∀ o ∈ s.store.outbox, o.publishedAt = none →
        ∃ o' ∈ s'.store.outbox, o'.toOutboxRow = o.toOutboxRow) ∧
      (∀ o ∈ s.store.outbox, o.attempts = recorded s.log o.key) ∧
      ∀ k, s.log.count (.failed k true) =
        s.log.count (.onDLQ k) + s.log.count (.lost k) + (s.runner 0).owes k := by
  have hb := books_of_singleRunner h
  refine ⟨fun r hr => ⟨fun hd => ?_, fun hd o ho hk => ?_⟩, hb.table.published,
    fun l s' hn o ho hp => OutboxSys.next_keeps hn ho hp, hb.table.attempts, hb.callbacks⟩
  · obtain ⟨o, ho, hk⟩ := (hb.table.present r hr).2 hd
    obtain ⟨x, hx, rfl⟩ := OutboxDb.exists_joined ho
    have hxr : x.event = r := Db.eq_of_rowKey (OutboxDb.mem_joined.1 hx).2.1 hr
      ((OutboxDb.key_eq_rowKey hx).symm.trans hk)
    refine ⟨x.entry, ⟨ho, hxr ▸ (OutboxDb.mem_joined.1 hx).2.2.symm⟩, fun o' ⟨ho', hr'⟩ => ?_⟩
    refine OutboxDb.eq_of_key ho' ho (Eq.trans ?_ hk.symm)
    rw [OutboxEntry.key, hr']
    rfl
  · exact (hb.table.present r hr).1 ⟨o, ho, hk⟩ hd

end Run

/-! ### A run -/

instance (s : OutboxSys κ) : (l : OutboxStep) → Decidable (s.SingleRunner l)
  | .append .. => inferInstanceAs (Decidable True)
  | .drain i _ => inferInstanceAs (Decidable (i = 0))
  | .replay .. | .abandon .. | .replayAll .. | .cleanup .. =>
    inferInstanceAs (Decidable ((s.runner 0).isIdle = true))

/-- A row fails for the last time, and the runner crashes before `OnDLQ`; it is replayed, fails
again and is abandoned. -/
theorem outbox_accounts_replayed :
    ∃ s : OutboxSys (Sqlite.columns Bytes),
      ((outboxSystem Sqlite.smallOutbox .small).restrict OutboxSys.SingleRunner).Reachable s ∧
      s.log = [.refused ("acme", 1), .failed ("acme", 1) true, .lost ("acme", 1),
        .replayed ("acme", 1), .refused ("acme", 1), .failed ("acme", 1) true, .onDLQ ("acme", 1),
        .abandoned ("acme", 1)] ∧
      s.store.outbox ≠ [] ∧ ∀ o ∈ s.store.outbox, o.attempts = recorded s.log o.key := by
  let run : List OutboxStep :=
    [.append .calm (.bare 0 "a"), .drain 0 (.begin .single), .drain 0 (.page 0),
      .drain 0 (.row (some [])), .drain 0 (.mark 0), .drain 0 .crash, .replay "acme" 1,
      .drain 0 (.begin .single), .drain 0 (.page 0), .drain 0 (.row (some [])),
      .drain 0 (.mark 0), .drain 0 .onDLQ, .drain 0 .crash, .abandon 0 "acme" 1]
  let f (s : OutboxSys (Sqlite.columns Bytes)) (l : OutboxStep) :=
    if s.SingleRunner l then s.next Sqlite.smallOutbox .small l else none
  have hexec : (TS.exec f .empty run).map (fun s => (s.log, s.store.outbox.isEmpty)) =
      some ([.refused ("acme", 1), .failed ("acme", 1) true, .lost ("acme", 1),
        .replayed ("acme", 1), .refused ("acme", 1), .failed ("acme", 1) true, .onDLQ ("acme", 1),
        .abandoned ("acme", 1)], false) := by decide +kernel
  obtain ⟨s, hs, hobs⟩ := Option.map_eq_some_iff.1 hexec
  have hr : ((outboxSystem Sqlite.smallOutbox .small).restrict
      OutboxSys.SingleRunner).Reachable s := by
    refine TS.Reachable.exec (.init rfl) (fun l _ s s' hf => ?_) hs
    dsimp only [f] at hf
    split_ifs at hf with hd
    exact ⟨hd, hf⟩
  exact ⟨s, hr, (Prod.mk.inj hobs).1, fun he => by simp [he] at hobs,
    (outbox_accounts hr).2.2.2.1⟩

end EventStore
