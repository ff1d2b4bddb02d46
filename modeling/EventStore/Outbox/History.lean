import EventStore.Outbox.Drain

/-!
# The outbox and its history

What the steps of an `OutboxSys` do to the entries of the outbox and to the log, said once for the
invariants that are proved over it.

## Main definitions

* `OutboxDb.Closed` : the table has no unpublished row of the event.  It is what the query sees.
* `SettledIn`, `CalledIn` : what the history says about a row.  `Publish` succeeded on it or it was
  abandoned; `Publish` was called on it.
* `OutboxSys.Effect` : what a step that is not an append does to the entries and the history.
* `OutboxDb.Grown` : what an append does to the tables.
-/

namespace EventStore

variable {κ : Columns}

/-- The events are of one stream. -/
def EventRow.SameStream (r r' : EventRow κ) : Prop :=
  r.tenantID = r'.tenantID ∧ r.streamID = r'.streamID

/-- The key of the stream of an event, as the drain forms it. -/
def EventRow.streamKey (r : EventRow κ) : String := quarantineKey r.tenantID r.streamID

theorem EventRow.SameStream.streamKey_eq {r r' : EventRow κ} (h : r.SameStream r') :
    r.streamKey = r'.streamKey := by
  rw [EventRow.streamKey, EventRow.streamKey, h.1, h.2]

namespace LogEntry

/-- The row an entry is about. -/
def key : LogEntry → RowKey
  | .published k | .refused k | .failed k _ | .onDLQ k | .lost k | .replayed k | .abandoned k
  | .deleted k => k

/-- The entry is a call of `Publish`. -/
def isCall : LogEntry → Bool
  | .published _ | .refused _ => true
  | _ => false

end LogEntry

/-- `Publish` has been called on the row. -/
def CalledIn (log : List LogEntry) (k : RowKey) : Prop := .published k ∈ log ∨ .refused k ∈ log

/-- The row has been published successfully or abandoned by an operator. -/
def SettledIn (log : List LogEntry) (k : RowKey) : Prop := .published k ∈ log ∨ .abandoned k ∈ log

theorem SettledIn.append {log : List LogEntry} {k : RowKey} (h : SettledIn log k)
    (es : List LogEntry) : SettledIn (log ++ es) k :=
  h.imp (List.mem_append_left es) (List.mem_append_left es)

theorem called_iff {log : List LogEntry} {k : RowKey} :
    CalledIn log k ↔ ∃ e ∈ log, e.isCall = true ∧ e.key = k := by
  constructor
  · rintro (h | h)
    · exact ⟨_, h, rfl, rfl⟩
    · exact ⟨_, h, rfl, rfl⟩
  · rintro ⟨e, he, hc, rfl⟩
    cases e with
    | published k => exact Or.inl he
    | refused k => exact Or.inr he
    | _ => cases hc

theorem called_append {log es : List LogEntry} {k : RowKey} :
    CalledIn (log ++ es) k ↔ CalledIn log k ∨ CalledIn es k := by
  simp only [CalledIn, List.mem_append]
  tauto

/-- The table has no unpublished row of the event. -/
def OutboxDb.Closed (s : OutboxDb κ) (r : EventRow κ) : Prop :=
  ∀ o ∈ s.outbox, o.key = r.rowKey → o.publishedAt.isSome = true

/-- Events with one key are one event. -/
theorem Db.eq_of_rowKey {db : Db κ} {r r' : EventRow κ} (hr : r ∈ db.events.rows)
    (hr' : r' ∈ db.events.rows) (h : r.rowKey = r'.rowKey) : r = r' :=
  eq_of_position hr hr' (Prod.mk.inj h).2

/-! ### The tables under a step -/

namespace OutboxDb

variable {s : OutboxDb κ} {r : EventRow κ} {x : Pending κ}

theorem key_eq_rowKey (h : x ∈ s.joined) : x.entry.key = x.event.rowKey := by
  rw [OutboxEntry.key, EventRow.rowKey, tenantID_of_mem h, globalPosition_of_mem h]

/-- Every entry takes part in the join. -/
theorem exists_joined {o : OutboxEntry κ} (h : o ∈ s.outbox) : ∃ x ∈ s.joined, x.entry = o := by
  obtain ⟨e, he, hk⟩ := exists_event h
  exact ⟨⟨o, e⟩, mem_joined.2 ⟨h, he, hk⟩, rfl⟩

/-- The entry of an event that is not closed. -/
theorem exists_of_not_closed (h : ¬ s.Closed r) :
    ∃ o ∈ s.outbox, o.key = r.rowKey ∧ o.publishedAt = none := by
  simp only [Closed, not_forall] at h
  obtain ⟨o, ho, hk, hp⟩ := h
  exact ⟨o, ho, hk, Option.not_isSome_iff_eq_none.1 hp⟩

end OutboxDb

/-- The rows of `events`. -/
abbrev OutboxSys.events (s : OutboxSys κ) : List (EventRow κ) := s.store.db.events.rows

/-- What a step that is not an append does: `calls` are the stream keys of the rows `Publish` is
called on, and `fails` those of the rows that get an attempt more. -/
structure OutboxSys.Effect (s s' : OutboxSys κ) (calls fails : String → Prop) : Prop where
  db : s'.store.db = s.store.db
  /-- A call is logged alone. -/
  log : ∃ es, s'.log = s.log ++ es ∧ ∀ e ∈ es, (∃ r ∈ s.events, r.rowKey = e.key) ∧
    (e.isCall = true → es = [e] ∧ ∀ r ∈ s.events, r.rowKey = e.key → calls r.streamKey)
  /-- What is closed stays closed. -/
  closed : ∀ r, s.store.Closed r → s'.store.Closed r
  /-- What gets closed is settled. -/
  settled : ∀ r ∈ s.events, s'.store.Closed r → s.store.Closed r ∨ SettledIn s'.log r.rowKey
  /-- What is dead was dead before, or has got an attempt more. -/
  dead : ∀ n, ∀ x ∈ s'.store.joined, x.dead n = true →
    (∃ y ∈ s.store.joined, y.event = x.event ∧ y.dead n = true) ∨ fails x.event.streamKey

namespace OutboxSys.Effect

variable {s s' : OutboxSys κ} {calls fails : String → Prop}

theorem events_eq (h : s.Effect s' calls fails) : s'.events = s.events :=
  congrArg (fun db => db.events.rows) h.db

/-- A step without calls logs none. -/
theorem rowKey_ne (h : s.Effect s' (fun _ => False) fails) {e : LogEntry}
    (hlog : s'.log = s.log ++ [e]) (hc : e.isCall = true) :
    ∀ r ∈ s.events, r.rowKey ≠ e.key := by
  obtain ⟨es, hlog', hes⟩ := h.log
  rw [hlog'] at hlog
  rw [List.append_cancel_left hlog] at hes
  exact ((hes e List.mem_cons_self).2 hc).2

/-- A step that leaves the tables alone and logs one entry at most. -/
theorem of_store_eq {es : List LogEntry} (hstore : s'.store = s.store) (hlog : s'.log = s.log ++ es)
    (hes : ∀ e ∈ es, es = [e] ∧ (∃ r ∈ s.events, r.rowKey = e.key) ∧
      (e.isCall = true → ∀ r ∈ s.events, r.rowKey = e.key → calls r.streamKey)) :
    s.Effect s' calls fails where
  db := by rw [hstore]
  log := ⟨es, hlog, fun e he => ⟨(hes e he).2.1, fun hc => ⟨(hes e he).1, (hes e he).2.2 hc⟩⟩⟩
  closed r h := by rwa [hstore]
  settled r _ h := by
    rw [hstore] at h
    exact Or.inl h
  dead n x hx hd := by
    rw [hstore] at hx
    exact Or.inl ⟨x, hx, rfl, hd⟩

/-- An update of entries. -/
theorem update {p : OutboxEntry κ → Bool} {f : OutboxEntry κ → OutboxEntry κ}
    {es : List LogEntry} (hf : ∀ o, (f o).toOutboxRow = o.toOutboxRow)
    (hstore : s'.store = s.store.update p f hf) (hlog : s'.log = s.log ++ es)
    (hes : ∀ e ∈ es, (∃ r ∈ s.events, r.rowKey = e.key) ∧ e.isCall = false)
    (hpub : ∀ o ∈ s.store.outbox, p o = true → o.publishedAt.isSome = true →
      (f o).publishedAt.isSome = true)
    (hset : ∀ o ∈ s.store.outbox, p o = true → (f o).publishedAt.isSome = true →
      o.publishedAt.isSome = true ∨ SettledIn s'.log o.key)
    (hatt : ∀ x ∈ s.store.joined, p x.entry = true →
      (f x.entry).attempts ≤ x.entry.attempts ∨ fails x.event.streamKey) :
    s.Effect s' calls fails where
  db := by rw [hstore, OutboxDb.db_update]
  log := ⟨es, hlog, fun e he => ⟨(hes e he).1, fun hc => by rw [(hes e he).2] at hc; cases hc⟩⟩
  closed r h o ho hk := by
    rw [hstore] at ho
    obtain ⟨o₀, ho₀, rfl⟩ := List.mem_map.1 ho
    split_ifs at hk ⊢ with hp
    · refine hpub o₀ ho₀ hp (h o₀ ho₀ ?_)
      rw [← hk, OutboxEntry.key, OutboxEntry.key, hf o₀]
    · exact h o₀ ho₀ hk
  settled r hr h := by
    by_contra hno
    rw [not_or] at hno
    obtain ⟨o, ho, hk, hp⟩ := OutboxDb.exists_of_not_closed hno.1
    -- the entry is published after the update, so the update is what published it
    have ho' : (if p o then f o else o) ∈ s'.store.outbox := by
      rw [hstore]
      exact List.mem_map_of_mem ho
    have hk' : (if p o then f o else o).key = r.rowKey := by
      split_ifs
      · rw [← hk, OutboxEntry.key, hf o]
        rfl
      · exact hk
    have hsome := h _ ho' hk'
    split_ifs at hsome with hpo
    · rcases hset o ho hpo hsome with hs | hs
      · rw [hp] at hs
        cases hs
      · exact hno.2 (hk ▸ hs)
    · rw [hp] at hsome
      cases hsome
  dead n x hx hd := by
    rw [hstore, OutboxDb.joined_update] at hx
    obtain ⟨y, hy, rfl⟩ := List.mem_map.1 hx
    simp only [Pending.dead, Bool.and_eq_true, decide_eq_true_eq, Option.isNone_iff_eq_none] at hd
    split_ifs at hd with hp
    · rcases hatt y hy hp with hle | hfail
      · refine Or.inl ⟨y, hy, rfl, ?_⟩
        have hnone : y.entry.publishedAt = none := by
          by_contra hne
          have := hpub y.entry (OutboxDb.mem_joined.1 hy).1 hp (Option.isSome_iff_ne_none.2 hne)
          rw [hd.1] at this
          cases this
        simp only [Pending.dead, hnone, Option.isNone_none, Bool.true_and, decide_eq_true_eq]
        exact hd.2.trans hle
      · exact Or.inr hfail
    · exact Or.inl ⟨y, hy, rfl, by simpa [Pending.dead] using hd⟩

/-- A deletion of published entries. -/
theorem delete {p : OutboxEntry κ → Bool} {es : List LogEntry}
    (hstore : s'.store = s.store.delete p) (hlog : s'.log = s.log ++ es)
    (hes : ∀ e ∈ es, (∃ r ∈ s.events, r.rowKey = e.key) ∧ e.isCall = false)
    (hp : ∀ o, p o = true → o.publishedAt.isSome = true) : s.Effect s' calls fails where
  db := by rw [hstore, OutboxDb.db_delete]
  log := ⟨es, hlog, fun e he => ⟨(hes e he).1, fun hc => by rw [(hes e he).2] at hc; cases hc⟩⟩
  closed r h o ho hk := by
    rw [hstore] at ho
    exact h o (List.mem_filter.1 ho).1 hk
  settled r hr h := by
    by_contra hno
    rw [not_or] at hno
    obtain ⟨o, ho, hk, hpub⟩ := OutboxDb.exists_of_not_closed hno.1
    have hkeep : p o = false := by
      rw [Bool.eq_false_iff]
      intro hpo
      have := hp o hpo
      rw [hpub] at this
      cases this
    have hsome := h o (by rw [hstore]; exact List.mem_filter.2 ⟨ho, by rw [hkeep]; rfl⟩) hk
    rw [hpub] at hsome
    cases hsome
  dead n x hx hd := by
    rw [hstore] at hx
    exact Or.inl ⟨x, (OutboxDb.mem_joined_delete.1 hx).1, rfl, hd⟩

end OutboxSys.Effect

/-! ### The tables under an append -/

/-- The tables after an append that added `rows` to `events`. -/
structure OutboxDb.Grown (s s' : OutboxDb κ) (rows : List (EventRow κ)) : Prop where
  events : s'.db.events.rows = s.db.events.rows ++ rows
  joined : ∀ x, x ∈ s'.joined ↔ x ∈ s.joined ∨ ∃ r ∈ rows, x = ⟨r.outboxRow.enqueue, r⟩
  fresh : ∀ r ∈ s.db.events.rows, ∀ r' ∈ rows, r.rowKey ≠ r'.rowKey
  named : ∀ r ∈ rows, ∃ sid : StreamID, r.inStream sid = true

namespace OutboxDb

variable {s s' : OutboxDb κ} {rows : List (EventRow κ)}

theorem append_grown {D : Dialect κ} {H : Hasher} {E : Engine} {p : AppendParams} :
    ∃ rows, s.Grown (s.append D H E p).2 rows := by
  rcases hres : EventStore.append D H E p s.db with ⟨e | res, db'⟩
  · -- no table has changed
    have hdb : (s.append D H E p).2.db = db' := congrArg Prod.snd hres
    obtain ⟨he, ho, -⟩ := append_error hres
    have hev : (s.append D H E p).2.db.events.rows = s.db.events.rows ++ [] := by
      rw [hdb, he, List.append_nil]
    refine ⟨[], hev, fun x => mem_joined_append hev ?_, by simp, by simp⟩
    rw [inserted, hdb, ho, List.drop_length]
    rfl
  · have hdb : (s.append D H E p).2.db = db' := congrArg Prod.snd hres
    obtain ⟨rows, ha⟩ := append_ok hres
    have hev : (s.append D H E p).2.db.events.rows = s.db.events.rows ++ rows := by
      rw [hdb, ha.events]
    refine ⟨rows, hev, fun x => mem_joined_append hev ?_, fun r hr r' hr' hk => ?_,
      fun r hr => ⟨p.streamID, ?_⟩⟩
    · rw [inserted, hdb, ha.outbox, List.drop_left]
    · have h₁ := Db.position_le_seq hr
      have h₂ := ha.written.seq_lt r' hr'
      have h₃ := (Prod.mk.inj hk).2
      omega
    · obtain ⟨ht, hc⟩ := ha.written.stream r hr
      rw [EventRow.inStream, ht, hc, beq_self_eq_true, beq_self_eq_true]
      rfl

theorem Grown.mem_events (h : s.Grown s' rows) {r : EventRow κ} :
    r ∈ s'.db.events.rows ↔ r ∈ s.db.events.rows ∨ r ∈ rows := by
  rw [h.events, List.mem_append]

/-- On a dense stream the new versions are above the old ones. -/
theorem Grown.later (h : s.Grown s' rows) (hwf : s'.db.Wf) {r r' : EventRow κ}
    (hr : r ∈ s.db.events.rows) (hr' : r' ∈ rows) (hs : r.SameStream r') :
    r.version < r'.version := by
  obtain ⟨sid, hsid⟩ := h.named r' hr'
  have hlt : (List.range' 1 (s'.db.stream sid).length).Pairwise (· < ·) := List.pairwise_lt_range'
  rw [← hwf.dense sid, List.pairwise_map, Db.stream, h.events, List.filter_append] at hlt
  refine (List.pairwise_append.1 hlt).2.2 r (List.mem_filter.2 ⟨hr, ?_⟩) r'
    (List.mem_filter.2 ⟨hr', hsid⟩)
  rw [EventRow.inStream_iff] at hsid ⊢
  rw [hsid, hs.1, hs.2]

/-- The entries of old events are the old ones. -/
theorem Grown.closed_iff (h : s.Grown s' rows) {r : EventRow κ} (hr : r ∈ s.db.events.rows) :
    s'.Closed r ↔ s.Closed r := by
  constructor
  · intro hc o ho hk
    obtain ⟨x, hx, rfl⟩ := exists_joined ho
    exact hc x.entry (mem_joined.1 ((h.joined x).2 (Or.inl hx))).1 hk
  · intro hc o ho hk
    obtain ⟨x, hx, rfl⟩ := exists_joined ho
    rcases (h.joined x).1 hx with hx | ⟨r', hr', rfl⟩
    · exact hc x.entry (mem_joined.1 hx).1 hk
    · exact absurd hk.symm (h.fresh r hr r' hr')

/-- A new event has an unpublished entry. -/
theorem Grown.not_closed (h : s.Grown s' rows) {r : EventRow κ} (hr : r ∈ rows) :
    ¬ s'.Closed r := by
  intro hc
  have hx := (h.joined ⟨r.outboxRow.enqueue, r⟩).2 (Or.inr ⟨r, hr, rfl⟩)
  have hsome := hc _ (mem_joined.1 hx).1 rfl
  cases hsome

end OutboxDb

/-! ### The rows a statement meets -/

theorem OutboxDb.mem_keys {s : OutboxDb κ} {p : OutboxEntry κ → Bool} {k : RowKey} :
    k ∈ s.keys p ↔ ∃ o ∈ s.outbox, p o = true ∧ o.key = k := by
  simp [OutboxDb.keys, and_assoc]

/-- Entries are of events. -/
theorem OutboxDb.exists_rowKey {s : OutboxDb κ} {o : OutboxEntry κ} (h : o ∈ s.outbox) :
    ∃ r ∈ s.db.events.rows, r.rowKey = o.key := by
  obtain ⟨x, hx, rfl⟩ := exists_joined h
  exact ⟨x.event, (mem_joined.1 hx).2.1, (key_eq_rowKey hx).symm⟩

theorem OutboxEntry.hasKey_iff {t : String} {gp : ℕ} {o : OutboxEntry κ} :
    o.hasKey t gp = true ↔ o.key = (t, gp) := by
  simp [OutboxEntry.hasKey, OutboxEntry.key]

/-- Only published rows are deleted. -/
theorem OutboxDialect.isSome_of_expired {Q : OutboxDialect κ} {t : String} {olderThan : Time}
    {o : OutboxEntry κ} (h : Q.expired t olderThan o = true) : o.publishedAt.isSome = true := by
  obtain ⟨t, ht, -⟩ := (Option.any_eq_true _ _).1 (Bool.and_eq_true_iff.1 h).2
  rw [ht]
  rfl

/-- The rows a statement meets are of events, and so are the entries of the history it causes. -/
theorem OutboxDb.known_keys {s : OutboxDb κ} {p : OutboxEntry κ → Bool} {f : RowKey → LogEntry}
    (hkey : ∀ k, (f k).key = k) :
    ∀ e ∈ (s.keys p).map f, ∃ r ∈ s.db.events.rows, r.rowKey = e.key := by
  intro e he
  obtain ⟨k, hk, rfl⟩ := List.mem_map.1 he
  obtain ⟨o, ho, -, rfl⟩ := mem_keys.1 hk
  rw [hkey]
  exact exists_rowKey ho

/-- An operator's statement: every row it meets is logged. -/
theorem OutboxSys.logged_keys {s : OutboxSys κ} {p : OutboxEntry κ → Bool} {f : RowKey → LogEntry}
    (hkey : ∀ k, (f k).key = k) (hcall : ∀ k, (f k).isCall = false) :
    ∀ e ∈ (s.store.keys p).map f, (∃ r ∈ s.events, r.rowKey = e.key) ∧ e.isCall = false := by
  intro e he
  obtain ⟨k, -, rfl⟩ := List.mem_map.1 he
  exact ⟨OutboxDb.known_keys hkey _ he, hcall k⟩

end EventStore
