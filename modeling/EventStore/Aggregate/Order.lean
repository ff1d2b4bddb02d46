import EventStore.Aggregate.System

/-!
# No call is ahead of its stream

The first invariant of the clients of one store.  A call holds a version from the moment it has
read the cache until it appends; in between other calls commit.  Streams only grow (`Db.Grows`), so
a version that was at most the length of the stream when it was read stays so, and by
`Appended.expected_eq` an append commits only if nothing has been committed since.

* `Ordered s` : the tables are well formed, no call is ahead of its stream, and what a rebuild has
  seen is stored.
* `Ordered.step` : **every step keeps it**, but for a direct append that is ahead of its stream.
* `loadTail_version` : what `Load` returns is at the head of the stream at the time of its second
  read.
-/

namespace EventStore

variable {ι K S C E : Type} {κ : Columns} {D : Dialect κ} {H : Hasher}

/-! ### Streams only grow -/

/-- Every stream of the second database continues that of the first. -/
def Db.Grows (db db' : Db κ) : Prop := ∀ sid, db.stream sid <+: db'.stream sid

namespace Db.Grows

variable {db db' : Db κ}

theorem length_le (h : db.Grows db') (sid : StreamID) :
    (db.stream sid).length ≤ (db'.stream sid).length :=
  (h sid).length_le

theorem of_events_eq (h : db'.events = db.events) : db.Grows db' := fun sid => by
  rw [Db.stream, Db.stream, h]

theorem of_appended {en : Engine} {p : AppendParams} {rows : List (EventRow κ)}
    (h : Appended D H en p db db' rows) : db.Grows db' := by
  intro sid
  by_cases hk : sid.key = p.streamID.key
  · rw [h.stream_key hk]
    exact List.prefix_append ..
  · rw [h.stream_ne hk]

end Db.Grows

theorem Sys.Writes.grows [DecidableEq ι] {s s' : Sys ι κ K S C E} {l : Label ι K S C E}
    (h : s.Writes D H l s') : s.db.Grows s'.db := by
  cases h with
  | quiet hs => exact .of_events_eq hs.1
  | append _ _ _ ha => exact .of_appended ha
  | direct _ ha => exact .of_appended ha
  | wipe _ _ hdb => exact .of_events_eq (hdb ▸ rfl)
  | upsert _ _ _ hu =>
    obtain ⟨_, _, _, _, -, -, -, hdb⟩ := rebuildStream_ok hu
    exact .of_events_eq (hdb ▸ rfl)

/-! ### The cache follows the streams -/

namespace Db.Wf

variable {db : Db κ}

theorem wipe (h : db.Wf) (tenant typeURL : String) :
    (wipeStateCacheForType db tenant typeURL).Wf where
  dense := h.dense
  hash_size := h.hash_size
  position_pos := h.position_pos
  outbox_le := h.outbox_le
  cache_le r hr := h.cache_le r (List.mem_filter.1 hr).1

theorem upsert (h : db.Wf) {row : StateCacheRow κ}
    (hrow : ∀ sid, row.ofStream sid = true → row.version ≤ (db.stream sid).length) :
    Db.Wf { db with stateCache := db.stateCache.upsert row } where
  dense := h.dense
  hash_size := h.hash_size
  position_pos := h.position_pos
  outbox_le := h.outbox_le
  cache_le r hr sid hk := by
    obtain rfl | ⟨hr, -⟩ := Table.mem_upsert.1 hr
    · exact hrow sid hk
    · exact h.cache_le r hr sid hk

end Db.Wf

/-! ### The version a load returns -/

section Load

variable {rt : Runtime K S C E} {db : Db κ} {sid : StreamID}

theorem map_version_of_read {rows : List (EventRow κ)} {envs : List Envelope}
    (h : List.Forall₂ (fun r e => rowToEnvelope D r = .ok e) rows envs) :
    envs.map Envelope.version = rows.map EventRow.version := by
  induction h with
  | nil => rfl
  | cons hr _ ih =>
    obtain ⟨_, _, _, _, -, -, -, -, rfl⟩ := rowToEnvelope_eq_ok.1 hr
    rw [List.map_cons, List.map_cons, ih]

theorem Db.Dense.getLast?_drop (h : db.Dense sid) {v : ℕ} (hv : v ≤ (db.stream sid).length) :
    ((((db.stream sid).drop v).map EventRow.version).getLast?).getD v = (db.stream sid).length := by
  rw [List.map_drop, h, List.drop_range', List.getLast?_range']
  split_ifs with h0
  · exact Nat.le_antisymm hv (Nat.sub_eq_zero_iff_le.1 h0)
  · simp only [Option.getD_some]
    omega

/-- What `Load` starts from is not ahead of the stream. -/
theorem seed_version_le (h : db.Wf) (fault : Option Err) :
    (rt.seed (orFault fault (getState D db sid))).2 ≤ (db.stream sid).length := by
  rcases rt.seed_cases (orFault fault (getState D db sid)) with hs | ⟨_, row, _, -, hg, -, -, -, hs⟩
  · rw [hs]
    exact Nat.zero_le _
  · rw [hs]
    cases fault with
    | some e => cases hg
    | none =>
      obtain ⟨r, hr, hv, -⟩ := getState_ok hg
      obtain ⟨hmem, hof⟩ := Db.cachedRow_eq_some hr
      exact hv ▸ h.cache_le r hmem sid hof

/-- **`Load` returns the version of the stream's last event at the time of its second read.** -/
theorem loadTail_version (h : db.Dense sid) {start st : S × ℕ} {fault : Option Err} {k k' : K}
    (hle : start.2 ≤ (db.stream sid).length)
    (hl : rt.loadTail sid start (orFault fault (readStream D db sid start.2)) k = .ok st k') :
    st.2 = (db.stream sid).length := by
  obtain ⟨envs, hread, hrep⟩ := Runtime.loadTail_eq_ok.1 hl
  cases fault with
  | some e => cases hread
  | none =>
    obtain ⟨-, hrows⟩ := (readStream_eq_ok h).1 hread
    rw [Runtime.replay_version hrep, ← List.getLast?_map, map_version_of_read hrows]
    exact h.getLast?_drop hle

end Load

/-! ### The invariant -/

/-- The version a call works from is not ahead of its stream. -/
def Proc.Behind (db : Db κ) : Proc K S C E → Prop
  | .seeded c start => start.2 ≤ (db.stream c.sid).length
  | .loaded c st => st.2 ≤ (db.stream c.sid).length
  | .decided c _ p => p.streamID = c.sid ∧ p.expectedVersion ≤ (db.stream c.sid).length
  | _ => True

/-- An entry of a rebuild's map stands under the key of its stream, at the version of a stored
event. -/
structure SeenIn (db : Db κ) (x : String × StreamState S) : Prop where
  valid : x.2.streamID.Valid
  key : x.1 = rebuildKey x.2.streamID.tenant x.2.streamID.canonical
  stored : ∃ r ∈ db.stream x.2.streamID, r.version = x.2.version

/-- What a rebuild has seen is stored. -/
def Rebuild.Behind (db : Db κ) : Rebuild K S C E → Prop
  | .scanning _ _ sc => ∀ x ∈ sc.streams, SeenIn db x
  | .writing _ _ left _ => ∀ x ∈ left, SeenIn db x
  | _ => True

/-- The tables are well formed and nobody is ahead of them. -/
structure Ordered (s : Sys ι κ K S C E) : Prop where
  wf : s.db.Wf
  procs : ∀ i, (s.procs i).Behind s.db
  rebuild : s.rebuild.Behind s.db

section Grow

variable {db db' : Db κ}

theorem Proc.Behind.grows {pr : Proc K S C E} (h : pr.Behind db) (hg : db.Grows db') :
    pr.Behind db' := by
  cases pr with
  | seeded c start => exact Nat.le_trans h (hg.length_le _)
  | loaded c st => exact Nat.le_trans h (hg.length_le _)
  | decided c events p => exact ⟨h.1, Nat.le_trans h.2 (hg.length_le _)⟩
  | _ => trivial

theorem SeenIn.grows {x : String × StreamState S} (h : SeenIn db x) (hg : db.Grows db') :
    SeenIn db' x := by
  obtain ⟨r, hr, hv⟩ := h.stored
  exact ⟨h.valid, h.key, r, (hg _).subset hr, hv⟩

theorem Rebuild.Behind.grows {rb : Rebuild K S C E} (h : rb.Behind db) (hg : db.Grows db') :
    rb.Behind db' := by
  cases rb with
  | scanning rt tenant sc => exact fun x hx => (h x hx).grows hg
  | writing rt tenant left written => exact fun x hx => (h x hx).grows hg
  | _ => trivial

/-- A call that moves on is not ahead of the tables it read. -/
theorem Proc.Next.behind {k k' : K} {l : Label ι K S C E} {pr pr' : Proc K S C E}
    (h : Proc.Next D db k k' l pr pr') (hwf : db.Wf) (hb : pr.Behind db) : pr'.Behind db := by
  cases h with
  | begin => trivial
  | getState => exact seed_version_le hwf _
  | load hl => exact Nat.le_of_eq (loadTail_version (hwf.dense _) hb hl)
  | decide hd =>
    have hd := Runtime.decideAppend_ok hd
    exact ⟨hd.streamID, hd.expectedVersion ▸ hb⟩
  | ret => trivial

end Grow

/-! ### The pages of a rebuild -/

section Scan

variable {rt : Runtime K S C E} {db : Db κ}

theorem mem_setKey {α : Type} {k : String} {v : α} {l : List (String × α)} {x : String × α}
    (h : x ∈ setKey k v l) : x = (k, v) ∨ x ∈ l := by
  induction l with
  | nil => exact Or.inl (List.mem_singleton.1 h)
  | cons y l ih =>
    rw [setKey] at h
    split_ifs at h with hy
    · exact (List.mem_cons.1 h).imp_right (List.mem_cons_of_mem _)
    · rcases List.mem_cons.1 h with rfl | h
      · exact Or.inr List.mem_cons_self
      · exact (ih h).imp_right (List.mem_cons_of_mem _)

theorem mem_of_lookup {α : Type} {k : String} {v : α} {l : List (String × α)}
    (h : l.lookup k = some v) : (k, v) ∈ l := by
  obtain ⟨l₁, l₂, rfl, -⟩ := List.lookup_eq_some_iff.1 h
  simp

theorem seenIn_scanEvent {sc : Scan S} {r : EventRow κ} {env : Envelope}
    (hr : r ∈ db.events.rows) (henv : rowToEnvelope D r = .ok env)
    (h : ∀ x ∈ sc.streams, SeenIn db x) : ∀ x ∈ (rt.scanEvent sc env).streams, SeenIn db x := by
  obtain ⟨sid, _, _, _, hsid, -, -, -, rfl⟩ := rowToEnvelope_eq_ok.1 henv
  obtain ⟨hv, ht, hc⟩ := parseCanonical_eq_ok hsid
  have hin : r ∈ db.stream sid := Db.mem_stream.2 ⟨hr, ht.symm, hc.symm⟩
  unfold Runtime.scanEvent
  dsimp only
  split
  · exact h
  · intro x hx
    rcases mem_setKey hx with rfl | hx
    · -- an entry that was there already is of the same stream
      cases hl : sc.streams.lookup (rebuildKey r.tenantID sid.canonical) with
      | none => exact ⟨hv, by rw [← ht]; rfl, r, hin, rfl⟩
      | some st =>
        obtain ⟨hv', hk', -⟩ := h _ (mem_of_lookup hl)
        have : st.streamID = sid := rebuildKey_inj hv' hv (by rw [← hk', ht])
        exact ⟨hv', hk', r, this ▸ hin, rfl⟩
    · exact h x hx

theorem readPage_ok {tenant : String} {cursor : ℕ} {envs : List Envelope}
    (h : readPage D db tenant cursor = .ok envs) :
    ∀ env ∈ envs, ∃ r ∈ db.events.rows, rowToEnvelope D r = .ok env := by
  intro env henv
  obtain ⟨rows, hrows, hsub⟩ : ∃ rows, collect D rows = .ok envs ∧ rows ⊆ db.events.rows := by
    unfold readPage readAll readAllForTenant at h
    -- both queries select from `events`, with and without the tenant
    split_ifs at h <;>
      exact ⟨_, h, fun r hr => (Table.mem_select.1 (List.mem_of_mem_take hr)).1⟩
  obtain ⟨r, hr, he⟩ := exists_of_forall₂_right (collect_eq_ok.1 hrows) henv
  exact ⟨r, hsub hr, he⟩

theorem seenIn_foldl {sc : Scan S} {envs : List Envelope}
    (henvs : ∀ env ∈ envs, ∃ r ∈ db.events.rows, rowToEnvelope D r = .ok env)
    (h : ∀ x ∈ sc.streams, SeenIn db x) :
    ∀ x ∈ (envs.foldl rt.scanEvent sc).streams, SeenIn db x := by
  induction envs generalizing sc with
  | nil => exact h
  | cons env envs ih =>
    obtain ⟨r, hr, he⟩ := henvs env List.mem_cons_self
    exact ih (fun e he => henvs e (List.mem_cons_of_mem _ he)) (seenIn_scanEvent hr he h)

end Scan

/-! ### The steps keep the invariant -/

namespace Ordered

theorem start (k : K) : Ordered (Sys.start k : Sys ι κ K S C E) :=
  ⟨.empty, fun _ => trivial, trivial⟩

variable {s s' : Sys ι κ K S C E} {l : Label ι K S C E}

theorem wf_writes (h : Ordered s)
    (hdirect : ∀ en p, l = .direct en p →
      p.expectedVersion ≤ s.db.currentStreamVersion p.streamID)
    (hw : s.Writes D H l s') : s'.db.Wf := by
  cases hw with
  | quiet hs hq => exact h.wf.sameTables hs hq
  | @append i c events p _ _ _ _ hp _ ha =>
    have hb := h.procs i
    rw [hp] at hb
    exact h.wf.appended (by rw [hb.1]; exact hb.2) ha
  | direct hl ha =>
    have := hdirect _ _ hl
    rw [(h.wf.dense _).currentStreamVersion_eq] at this
    exact h.wf.appended this ha
  | wipe _ _ hdb => exact hdb ▸ h.wf.wipe ..
  | upsert _ hw hl hu =>
    have hb := h.rebuild
    rw [hw] at hb
    obtain ⟨hv, -, r, hr, hrv⟩ := hb _ (mem_of_lookup hl)
    obtain ⟨_, _, _, _, -, -, -, hdb⟩ := rebuildStream_ok hu
    rw [hdb]
    -- the version written is that of an event the scan has seen
    refine h.wf.upsert fun sid hk => ?_
    have hkey := StateCacheRow.ofStream_iff.1 hk
    rw [Db.stream_congr hkey]
    exact (Nat.le_of_eq hrv.symm).trans ((h.wf.dense _).version_le hr).2

variable [DecidableEq ι]

theorem rebuild_moves (h : Ordered s) (hm : Moves D H s l s') : s'.rebuild.Behind s.db := by
  have hb := h.rebuild
  cases hm with
  | wipeError => trivial
  | pageError => trivial
  | upsertError => trivial
  | wipe => exact fun x hx => absurd hx List.not_mem_nil
  | page hsc hpage _ =>
    rw [hsc] at hb
    exact seenIn_foldl (readPage_ok hpage) hb
  | lastPage hsc _ =>
    rw [hsc] at hb
    exact hb
  | upsert hw _ _ =>
    rw [hw] at hb
    exact fun x hx => hb x (List.mem_filter.1 hx).1
  | finish => trivial
  | _ => exact hb

/-- **No step takes a call ahead of its stream**, if direct appends are not. -/
theorem step (h : Ordered s)
    (hdirect : ∀ en p, l = .direct en p →
      p.expectedVersion ≤ s.db.currentStreamVersion p.streamID)
    (hm : Moves D H s l s') : Ordered s' where
  wf := h.wf_writes hdirect hm.writes
  procs i := by
    have hg := hm.writes.grows
    rcases hm.proc i with he | hn
    · exact he ▸ (h.procs i).grows hg
    · exact (hn.behind h.wf (h.procs i)).grows hg
  rebuild := (h.rebuild_moves hm).grows hm.writes.grows

end Ordered

end EventStore
