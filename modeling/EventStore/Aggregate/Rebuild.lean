import EventStore.Aggregate.Runtime

/-!
# Rebuilding the state cache

`aggregate.RebuildStateCache` repopulates `state_cache` for one aggregate type: it wipes the rows
of the type, reads all events in pages of 500, folds those its codec can decode into one state per
stream, and when a page comes back empty writes one row per stream, in the order a Go map is
iterated in, which is any order.

The parts between two calls of the store are the functions of this file;
`EventStore.Aggregate.System` interleaves them with the calls of other clients.
-/

namespace EventStore

/-- `streamState`. -/
structure StreamState (S : Type) where
  state : S
  version : ℕ
  streamID : StreamID

/-- The variables of the loop over the pages: the cursor and the map of the streams. -/
structure Scan (S : Type) where
  cursor : ℕ
  streams : List (String × StreamState S)

/-- `m[k] = v` for a map that is given by its entries. -/
def setKey {α : Type} (k : String) (v : α) : List (String × α) → List (String × α)
  | [] => [(k, v)]
  | (k', v') :: rest => if k' = k then (k, v) :: rest else (k', v') :: setKey k v rest

/-- The key of a stream in the map. -/
def rebuildKey (tenant canonical : String) : String := tenant ++ "|" ++ canonical

/-- The size of a page. -/
def pageSize : ℕ := 500

variable {K S C E : Type} {κ : Columns}

namespace Runtime

variable (rt : Runtime K S C E)

/-- One event of a page.  An event that cannot be decoded is skipped; a shredder is not used. -/
def scanEvent (sc : Scan S) (env : Envelope) : Scan S :=
  -- the cursor moves past an event whether or not it is of the aggregate
  let cursor := if sc.cursor < env.globalPosition then env.globalPosition else sc.cursor
  match rt.codec.decode env.typeURL env.schemaVersion env.payload with
  | .error _ => { sc with cursor := cursor }
  | .ok evt =>
    let key := rebuildKey env.tenantID env.streamID.canonical
    let s := (sc.streams.lookup key).getD ⟨rt.decider.initial, 0, env.streamID⟩
    { cursor := cursor
      streams := setKey key
        { s with state := rt.decider.evolve s.state evt, version := env.version } sc.streams }

/-- The row that is written for a stream.  Its `StateSchemaVersion` is not set. -/
def rebuiltRow (sc : StateCodec S) (st : StreamState S) : Except Err CachedState := do
  let canonical := st.streamID.canonical
  let (bs, tu) ← (sc.encode st.state).mapError (.wrap s!"aggregate: encode state for {canonical}")
  return {
    tenantID := st.streamID.tenant
    streamID := canonical
    typeURL := tu
    state := bs
    version := st.version
    terminal := rt.decider.terminal st.state
    stateSchemaVersion := 0
    updatedAt := 0 }

end Runtime

/-- `WipeStateCacheForType`; the empty tenant stands for all. -/
def wipeStateCacheForType (db : Db κ) (tenant typeURL : String) : Db κ :=
  { db with stateCache := db.stateCache.delete fun r =>
      (tenant == "" || r.tenantID == tenant) && r.typeURL == typeURL }

/-- The stream is in the scope of a rebuild for the tenant. -/
def StreamID.InScope (tenant : String) (sid : StreamID) : Prop := tenant = "" ∨ sid.tenant = tenant

/-- The events of a page. -/
def readPage (D : Dialect κ) (db : Db κ) (tenant : String) (cursor : ℕ) :
    Except Err (List Envelope) :=
  if tenant = "" then readAll D db cursor pageSize
  else readAllForTenant D db tenant cursor pageSize

/-- The columns `UpsertCachedState` writes. -/
def upsertedRow (D : Dialect κ) (en : Engine) (row : CachedState) (state : κ.State) :
    StateCacheRow κ where
  tenantID := row.tenantID
  streamID := row.streamID
  typeURL := row.typeURL
  state := state
  version := row.version
  terminal := row.terminal
  stateSchemaVersion := D.schemaColumn (defaultSchema row.stateSchemaVersion)
  updatedAt := D.formatTime (D.stamp en.clock 0)

/-- `UpsertCachedState`. -/
def upsertCachedState (D : Dialect κ) (en : Engine) (row : CachedState) (db : Db κ) :
    Except Err Unit × Db κ :=
  match upsertStateCache D en (upsertedRow D en row) row.state db with
  | .ok () db' => (.ok (), db')
  | .error e _ => (.error e.toErr, db)

/-- The body of the loop over the streams. -/
def rebuildStream (D : Dialect κ) (en : Engine) (rt : Runtime K S C E) (st : StreamState S)
    (db : Db κ) : Except Err Unit × Db κ :=
  match rt.stateCodec with
  | none =>
    (.error (.text "aggregate: RebuildStateCache requires Runtime.StateCodec to be set"), db)
  | some sc =>
    match rt.rebuiltRow sc st with
    | .error e => (.error e, db)
    | .ok row =>
      let canonical := st.streamID.canonical
      let res := upsertCachedState D en row db
      (res.1.mapError (.wrap s!"aggregate: upsert state for {canonical}"), res.2)

/-- The part of the call before the loop over the pages: the type URL of the aggregate's state is
that of the initial state. -/
def probeTypeURL (rt : Runtime K S C E) : Except Err String :=
  match rt.stateCodec with
  | none => .error (.text "aggregate: RebuildStateCache requires Runtime.StateCodec to be set")
  | some sc => do
    let (_, typeURL) ←
      (sc.encode rt.decider.initial).mapError (.wrap "aggregate: probe state type URL")
    return typeURL

/-! ### The map of the streams -/

theorem ne_bar_of_slugMatch {s : String} (h : slugMatch s = true) : '|' ∉ s.toList := by
  unfold slugMatch at h
  split at h
  · cases h
  · rename_i c cs heq
    simp only [Bool.and_eq_true, List.all_eq_true] at h
    intro hbar
    rw [heq, List.mem_cons] at hbar
    rcases hbar with rfl | hbar
    · exact absurd h.1.1 (by decide)
    · exact absurd (h.2 _ hbar) (by decide)

theorem ne_bar_of_valid {sid : StreamID} (h : sid.Valid) : '|' ∉ sid.canonical.toList := by
  obtain ⟨-, hty, hid⟩ := StreamID.valid_iff.1 h
  rw [StreamID.canonical_toList, List.mem_append, List.mem_cons]
  rintro (hb | hb | hb)
  · exact ne_bar_of_slugMatch hty hb
  · exact absurd hb (by decide)
  · exact ne_bar_of_slugMatch hid hb

/-- What stands after the last separator of a key. -/
theorem takeWhile_reverse_rebuildKey {sid : StreamID} (h : sid.Valid) (tenant : String) :
    (rebuildKey tenant sid.canonical).toList.reverse.takeWhile (· ≠ '|') =
      sid.canonical.toList.reverse := by
  have hne : ∀ c ∈ sid.canonical.toList.reverse, decide (c ≠ '|') = true := fun c hc =>
    decide_eq_true fun he => ne_bar_of_valid h (he ▸ List.mem_reverse.1 hc)
  rw [rebuildKey, String.toList_append, String.toList_append, List.reverse_append,
    List.takeWhile_append_of_pos hne]
  simp

/-- A key has one tenant and one stream. -/
theorem eq_of_rebuildKey {tenant tenant' : String} {sid sid' : StreamID} (h : sid.Valid)
    (h' : sid'.Valid)
    (he : rebuildKey tenant sid.canonical = rebuildKey tenant' sid'.canonical) :
    tenant = tenant' ∧ sid.canonical = sid'.canonical := by
  -- a tenant may contain the separator, a canonical form does not: compare from the end
  have hc : sid.canonical = sid'.canonical := by
    have := takeWhile_reverse_rebuildKey h tenant
    rw [he, takeWhile_reverse_rebuildKey h', List.reverse_inj] at this
    exact (String.toList_injective this).symm
  rw [hc, rebuildKey, rebuildKey, String.append_left_inj, String.append_left_inj] at he
  exact ⟨he, hc⟩

/-- Different streams have different keys. -/
theorem rebuildKey_inj {sid sid' : StreamID} (h : sid.Valid) (h' : sid'.Valid)
    (he : rebuildKey sid.tenant sid.canonical = rebuildKey sid'.tenant sid'.canonical) :
    sid = sid' := by
  obtain ⟨ht, hc⟩ := eq_of_rebuildKey h h' he
  exact StreamID.eq_of_canonical_eq h h' ht hc

theorem lookup_setKey_self {α : Type} {k : String} {v : α} {l : List (String × α)} :
    (setKey k v l).lookup k = some v := by
  induction l with
  | nil => simp [setKey]
  | cons x l ih =>
    rw [setKey]
    split_ifs with hx
    · simp
    · rw [List.lookup_cons, beq_false_of_ne (Ne.symm hx), ih]

theorem lookup_setKey_ne {α : Type} {k k' : String} {v : α} {l : List (String × α)} (h : k' ≠ k) :
    (setKey k v l).lookup k' = l.lookup k' := by
  induction l with
  | nil => simp [setKey, h]
  | cons x l ih =>
    rw [setKey]
    split_ifs with hx
    · rw [List.lookup_cons, List.lookup_cons, hx, beq_false_of_ne h]
    · rw [List.lookup_cons, List.lookup_cons, ih]

theorem lookup_filter {α : Type} {k key : String} {l : List (String × α)} :
    (l.filter fun x => x.1 != key).lookup k = if k = key then none else l.lookup k := by
  induction l with
  | nil => simp
  | cons x l ih =>
    by_cases hx : x.1 = key
    · rw [List.filter_cons_of_neg (by simp [hx]), ih]
      split_ifs with hk
      · rfl
      · rw [List.lookup_cons, beq_false_of_ne (hx ▸ hk)]
    · rw [List.filter_cons_of_pos (by simp [hx]), List.lookup_cons, ih, List.lookup_cons]
      by_cases hk : k = x.1
      · simp [hk, hx]
      · rw [beq_false_of_ne hk]

/-! ### What an upsert does -/

section Upsert

variable {D : Dialect κ} {en : Engine} {db db' : Db κ}

theorem upsertCachedState_error {row : CachedState} {e : Err}
    (h : (upsertCachedState D en row db).1 = .error e) :
    (upsertCachedState D en row db).2 = db := by
  unfold upsertCachedState at h ⊢
  split <;> simp_all

theorem upsertCachedState_ok {row : CachedState}
    (h : (upsertCachedState D en row db).1 = .ok ()) :
    ∃ s, D.storeState row.state = .ok s ∧ (upsertCachedState D en row db).2 =
      { db with stateCache := db.stateCache.upsert (upsertedRow D en row s) } := by
  unfold upsertCachedState at h ⊢
  split at h
  · rename_i db₁ hup
    simp only [upsertStateCache, statement_eq_ok] at hup
    obtain ⟨-, hup⟩ := hup
    -- the column takes the state
    split at hup
    · rename_i s hs
      cases hup
      exact ⟨s, hs, rfl⟩
    · cases hup
  · cases h

/-- A stream that could not be written leaves the tables as they are. -/
theorem rebuildStream_error {rt : Runtime K S C E} {st : StreamState S} {e : Err}
    (h : (rebuildStream D en rt st db).1 = .error e) : (rebuildStream D en rt st db).2 = db := by
  unfold rebuildStream at h ⊢
  split
  · rfl
  · split
    · rfl
    · simp_all only [Except.mapError_eq_error]
      obtain ⟨e', he', -⟩ := h
      exact upsertCachedState_error he'

/-- The row of `state_cache` a rebuild writes for a stream: at the version of the last event seen,
and always under schema version 1. -/
def rebuiltCacheRow (D : Dialect κ) (en : Engine) (rt : Runtime K S C E) (st : StreamState S)
    (typeURL : String) (state : κ.State) : StateCacheRow κ where
  tenantID := st.streamID.tenant
  streamID := st.streamID.canonical
  typeURL := typeURL
  state := state
  version := st.version
  terminal := rt.decider.terminal st.state
  stateSchemaVersion := D.schemaColumn 1
  updatedAt := D.formatTime (D.stamp en.clock 0)

theorem rebuildStream_ok {rt : Runtime K S C E} {st : StreamState S}
    (h : rebuildStream D en rt st db = (.ok (), db')) :
    ∃ sc bs tu s, rt.stateCodec = some sc ∧ sc.encode st.state = .ok (bs, tu) ∧
      D.storeState bs = .ok s ∧
      db' = { db with stateCache := db.stateCache.upsert (rebuiltCacheRow D en rt st tu s) } := by
  unfold rebuildStream at h
  split at h
  · cases h
  · rename_i sc hsc
    split at h
    · cases h
    · -- the state was encoded: the row is the one handed to the upsert
      rename_i row hrow
      simp only [Runtime.rebuiltRow, Except.bind_eq_ok, Except.mapError_eq_ok] at hrow
      obtain ⟨⟨bs, tu⟩, henc, hrow⟩ := hrow
      obtain rfl := Except.ok.inj hrow
      obtain ⟨hok, hdb⟩ := Prod.mk.inj h
      obtain ⟨s, hs, hup⟩ := upsertCachedState_ok (Except.mapError_eq_ok.1 hok)
      exact ⟨sc, bs, tu, s, hsc, henc, hs, hdb.symm.trans hup⟩

end Upsert

end EventStore
