import EventStore.Aggregate.Order

/-!
# Several aggregates in one store

A store holds the streams of several aggregates, and a rebuild is for one of them.  It finds the
streams of its aggregate by the events its codec can decode, and the rows it wipes by the type of
the state.  `Apart` says that this tells the aggregates apart: the codec of the runtime `R` decodes
the events of the streams `mine` and no others, and no cached state of another stream has the type
of `R`'s states.  It holds in every store in which the runtimes of `Handle` calls are `Beside` `R`.
-/

namespace EventStore

variable {ι K S C E : Type} {κ : Columns} {D : Dialect κ} {H : Hasher}

/-! ### The cached row of a stream -/

namespace Db

variable {db db' : Db κ} {sid : StreamID}

/-- A row of another stream stays when a row is written. -/
theorem mem_upsert_of_ne {t : Table (StateCacheRow κ) StateCacheRow.Clash}
    {r row : StateCacheRow κ} (hr : r ∈ t.rows) (hof : r.ofStream sid = true)
    (hne : ¬ row.ofStream sid = true) : r ∈ (t.upsert row).rows := by
  refine Table.mem_upsert.2 (Or.inr ⟨hr, fun hc => hne ?_⟩)
  rw [StateCacheRow.ofStream_iff] at hof ⊢
  rw [hof, hc.1, hc.2]

/-- The cached row of a stream is the row of the table with its key. -/
theorem cachedRow_eq_some_iff {r : StateCacheRow κ} :
    db.cachedRow sid = some r ↔ r ∈ db.stateCache.rows ∧ r.ofStream sid = true := by
  refine ⟨cachedRow_eq_some, fun ⟨hr, hof⟩ => ?_⟩
  cases hc : db.cachedRow sid with
  | none => exact absurd hof (List.find?_eq_none.1 hc r hr)
  | some r' =>
    obtain ⟨hr', hof'⟩ := cachedRow_eq_some hc
    have hk := (StateCacheRow.ofStream_iff.1 hof').symm.trans (StateCacheRow.ofStream_iff.1 hof)
    exact congrArg some (Table.eq_of_clash (fun a b h => ⟨h.1.symm, h.2.symm⟩) hr' hr
      ⟨(Prod.mk.inj hk).1, (Prod.mk.inj hk).2⟩)

end Db

/-! ### Calls -/

/-- The call that is under way meets the condition, and what it is about to append it has
decided. -/
def Proc.Of (P : Call K S C E → Prop) : Proc K S C E → Prop
  | .begun c => P c
  | .seeded c _ => P c
  | .loaded c _ => P c
  | .decided c evts p => P c ∧ ∃ loaded, c.runtime.Decided c.sid c.cmd c.cfg loaded evts p
  | _ => True

theorem Proc.Next.of {P : Call K S C E → Prop} {db : Db κ} {k k' : K} {l : Label ι K S C E}
    {pr pr' : Proc K S C E} (h : Proc.Next D db k k' l pr pr')
    (hl : ∀ i c, l = .begin i c → P c) (hb : pr.Of P) : pr'.Of P := by
  cases h with
  | begin => exact hl _ _ rfl
  | getState => exact hb
  | load => exact hb
  | decide hd => exact ⟨hb, _, Runtime.decideAppend_ok hd⟩
  | ret => trivial

theorem Proc.Of.imp {P Q : Call K S C E → Prop} {pr : Proc K S C E} (h : pr.Of P)
    (hPQ : ∀ c, P c → Q c) : pr.Of Q := by
  cases pr with
  | begun c => exact hPQ c h
  | seeded c start => exact hPQ c h
  | loaded c st => exact hPQ c h
  | decided c evts p => exact ⟨hPQ c h.1, h.2⟩
  | _ => trivial

theorem Ordered.of_decided {s : Sys ι κ K S C E} {db' : Db κ} {P : Call K S C E → Prop}
    (h : Ordered s) (hP : ∀ i, (s.procs i).Of P) {i : ι} {c : Call K S C E} {evts : List E}
    {p : AppendParams} {en : Engine} {rows : List (EventRow κ)}
    (hp : s.procs i = .decided c evts p) (ha : Appended D H en p s.db db' rows) :
    p.streamID = c.sid ∧ p.expectedVersion = (s.db.stream p.streamID).length ∧
      P c ∧ ∃ loaded, c.runtime.Decided c.sid c.cmd c.cfg loaded evts p := by
  have hb := h.procs i
  have hr := hP i
  rw [hp] at hb hr
  refine ⟨hb.1, ha.expected_eq (h.wf.dense _) ?_, hr⟩
  rw [hb.1]
  exact hb.2

/-! ### Runtimes beside the one of a rebuild -/

/-- The codec of the runtime can decode the event. -/
def Runtime.Reads (R : Runtime K S C E) (typeURL : String) (v : UInt32) (payload : Bytes) : Prop :=
  ∃ evt, R.codec.decode typeURL v payload = .ok evt

/-- The `StateCodec` is wired and encodes no state as nil, so every append caches a state. -/
structure Runtime.Caches (rt : Runtime K S C E) : Prop where
  wired : rt.stateCodec ≠ none
  bytes : ∀ sc s bs url, rt.stateCodec = some sc → sc.encode s = .ok (bs, url) → bs ≠ none

/-- On the streams of `R`'s aggregate the runtime writes events that `R` can decode; on others,
events that `R` cannot decode and states of another type. -/
structure Beside (R : Runtime K S C E) (mine : StreamID → Prop) (sid : StreamID)
    (rt : Runtime K S C E) : Prop where
  events : ∀ evt enc, rt.codec.encode evt = .ok enc →
    (R.Reads enc.typeURL enc.schemaVersion enc.payload ↔ mine sid)
  states : ¬ mine sid → ∀ sc s bs url, rt.stateCodec = some sc → sc.encode s = .ok (bs, url) →
    probeTypeURL R ≠ .ok url

section Decided

variable {R : Runtime K S C E} {mine : StreamID → Prop} {sid : StreamID} {rt : Runtime K S C E}
  {cmd : C} {cfg : HandleConfig} {loaded : S × ℕ} {evts : List E} {p : AppendParams}

theorem Runtime.Caches.newStateBytes (h : rt.Caches) (hd : rt.Decided sid cmd cfg loaded evts p) :
    p.newStateBytes ≠ none := by
  rcases hd.state with ⟨hn, -⟩ | ⟨sc, hsc, henc, -⟩
  · exact absurd hn h.wired
  · exact h.bytes sc _ _ _ hsc henc

theorem Beside.stateTypeURL (h : Beside R mine sid rt) (hd : rt.Decided sid cmd cfg loaded evts p)
    (hmine : ¬ mine sid) (hb : p.newStateBytes ≠ none) : probeTypeURL R ≠ .ok p.stateTypeURL := by
  rcases hd.state with ⟨-, hn⟩ | ⟨sc, hsc, henc, -⟩
  · exact absurd hn hb
  · exact h.states hmine sc _ _ _ hsc henc

theorem Beside.reads (h : Beside R mine sid rt) (hd : rt.Decided sid cmd cfg loaded evts p)
    {en : Engine} {i : ℕ} {prev : Bytes} {seq : ℕ} {rows : List (EventRow κ)}
    (hw : Written D H en p i prev seq p.events rows) :
    ∀ r ∈ rows, (R.Reads r.typeURL (UInt32.ofInt r.schemaVersion) r.payload ↔ mine sid) := by
  intro r hr
  obtain ⟨ids, k, k', hok⟩ := hd.encoded
  obtain ⟨ev, hev, ht, hv, hp⟩ := exists_of_forall₂_right hw.payload hr
  obtain ⟨evt, enc, id, henc, rfl⟩ := Runtime.encodeEvents_mem hok ev hev
  rw [ht, hv, hp]
  exact h.events evt enc henc

end Decided

/-! ### The row of a state -/

/-- The row of `state_cache` for a state at a version, under a schema version. -/
structure Runtime.RowOf (R : Runtime K S C E) (D : Dialect κ) (s : S) (v : ℕ) (k : UInt32)
    (r : StateCacheRow κ) : Prop where
  version : r.version = v
  terminal : r.terminal = R.decider.terminal s
  schema : r.stateSchemaVersion = D.schemaColumn k
  state : ∃ sc bs, R.stateCodec = some sc ∧ sc.encode s = .ok (some bs, r.typeURL) ∧
    D.storeState (some bs) = .ok r.state

/-- An append at the head of a stream caches the state after the events decided. -/
theorem Appended.rowOf {rt : Runtime K S C E} {cmd : C} {cfg : HandleConfig} {loaded : S × ℕ}
    {evts : List E} {p : AppendParams} {en : Engine} {db db' : Db κ} {rows : List (EventRow κ)}
    (ha : Appended D H en p db db' rows)
    (hexp : p.expectedVersion = (db.stream p.streamID).length) (hc : rt.Caches)
    (hd : rt.Decided p.streamID cmd cfg loaded evts p) :
    ∃ r ∈ db'.stateCache.rows, r.ofStream p.streamID = true ∧
      rt.RowOf D (rt.decider.fold loaded.1 evts) (db'.stream p.streamID).length rt.schema r := by
  rcases hd.state with ⟨hn, -⟩ | ⟨sc, hsc, henc, hschema, hterm⟩
  · exact absurd hn hc.wired
  · rcases ha.stateCache with ⟨-, hn⟩ | ⟨b, col, hb, hcol, hcache⟩
    · exact absurd hn (hc.newStateBytes hd)
    · refine ⟨stateCacheRow D en p col, ?_, StateCacheRow.ofStream_iff.2 rfl, ?_, hterm, ?_, sc, b,
        hsc, hb ▸ henc, hcol⟩
      · rw [hcache]
        exact Table.mem_upsert.2 (Or.inl rfl)
      · rw [ha.stream_key rfl, List.length_append, ha.written.length_eq, ← hexp]
        rfl
      · rw [stateCacheRow, hschema, Runtime.schema, defaultSchema_defaultSchema]

/-! ### The store -/

/-- The streams `mine` can be told from the others by their events and by the type of their
states. -/
structure Apart (R : Runtime K S C E) (mine : StreamID → Prop) (db : Db κ) : Prop where
  reads : ∀ sid : StreamID, sid.Valid → ∀ r ∈ db.stream sid,
    (R.Reads r.typeURL (UInt32.ofInt r.schemaVersion) r.payload ↔ mine sid)
  types : ∀ r ∈ db.stateCache.rows, ∀ sid : StreamID, sid.Valid → r.ofStream sid = true →
    ¬ mine sid → probeTypeURL R ≠ .ok r.typeURL

namespace Apart

variable {R : Runtime K S C E} {mine : StreamID → Prop} {db db' : Db κ}

theorem empty : Apart R mine (Db.empty : Db κ) :=
  ⟨fun _ _ _ hr => absurd hr List.not_mem_nil, fun _ hr => absurd hr List.not_mem_nil⟩

/-- The events stay, and rows of the cache are kept or added for the streams `mine`. -/
theorem of_events_eq (h : Apart R mine db) (he : db'.events = db.events)
    (hr : ∀ r ∈ db'.stateCache.rows, r ∈ db.stateCache.rows ∨
      ∃ sid : StreamID, sid.Valid ∧ mine sid ∧ r.ofStream sid = true) : Apart R mine db' where
  reads sid hv r hmem := by
    rw [Db.stream, he] at hmem
    exact h.reads sid hv r hmem
  types r hmem sid hv hof hmine := by
    rcases hr r hmem with hmem | ⟨sid', hv', hmine', hof'⟩
    · exact h.types r hmem sid hv hof hmine
    · have hk := (StateCacheRow.ofStream_iff.1 hof').trans (StateCacheRow.ofStream_iff.1 hof).symm
      exact absurd (StreamID.eq_of_key_eq hv' hv hk ▸ hmine') hmine

theorem appended (h : Apart R mine db) {en : Engine} {p : AppendParams} {rows : List (EventRow κ)}
    (ha : Appended D H en p db db' rows) {rt : Runtime K S C E} (hb : Beside R mine p.streamID rt)
    {cmd : C} {cfg : HandleConfig} {loaded : S × ℕ} {evts : List E}
    (hd : rt.Decided p.streamID cmd cfg loaded evts p) :
    Apart R mine db' where
  reads sid hv r hr := by
    by_cases hk : sid.key = p.streamID.key
    · obtain rfl := StreamID.eq_of_key_eq hv ha.valid hk
      rw [ha.stream_key rfl, List.mem_append] at hr
      exact hr.elim (h.reads _ hv r) (hb.reads hd ha.written r)
    · rw [ha.stream_ne hk] at hr
      exact h.reads sid hv r hr
  types r hr sid hv hof hmine := by
    rcases ha.stateCache with ⟨hsc, -⟩ | ⟨b, col, hbytes, -, hsc⟩
    · exact h.types r (hsc ▸ hr) sid hv hof hmine
    · rw [hsc] at hr
      rcases Table.mem_upsert.1 hr with rfl | ⟨hr, -⟩
      · -- the row of the append is of the stream of the append
        obtain rfl := StreamID.eq_of_key_eq hv ha.valid (StateCacheRow.ofStream_iff.1 hof)
        exact hb.stateTypeURL hd hmine (by simp [hbytes])
      · exact h.types r hr sid hv hof hmine

/-- The wipe takes only rows of `R`'s aggregate in the scope of the rebuild. -/
theorem mem_wipe (h : Apart R mine db) {tenant typeURL : String}
    (hp : probeTypeURL R = .ok typeURL) {sid : StreamID} (hv : sid.Valid)
    (hn : ¬ (mine sid ∧ sid.InScope tenant)) {r : StateCacheRow κ} (hof : r.ofStream sid = true) :
    r ∈ (wipeStateCacheForType db tenant typeURL).stateCache.rows ↔ r ∈ db.stateCache.rows := by
  refine ⟨fun hr => (List.mem_filter.1 hr).1, fun hr => List.mem_filter.2 ⟨hr, ?_⟩⟩
  rw [Bool.not_eq_true', Bool.and_eq_false_iff]
  -- a row stays for its tenant, if the stream is `mine`, and otherwise for its type
  by_cases hmine : mine sid
  · left
    rw [Bool.or_eq_false_iff, beq_eq_false_iff_ne, beq_eq_false_iff_ne]
    have hk := (Prod.mk.inj (StateCacheRow.ofStream_iff.1 hof)).1
    exact ⟨fun he => hn ⟨hmine, Or.inl he⟩, fun he => hn ⟨hmine, Or.inr (hk.trans he)⟩⟩
  · right
    rw [beq_eq_false_iff_ne]
    rintro rfl
    exact h.types r hr sid hv hof hmine hp

end Apart

/-! ### Journals -/

theorem Journal.caches (v : UInt32) : (runtime K true v).Caches where
  wired := by simp [runtime]
  bytes sc s bs url hsc henc := by
    obtain rfl := Option.some.inj hsc
    rw [← (Prod.mk.inj (Except.ok.inj henc)).1]
    simp

theorem Journal.beside (cached : Bool) (v w : UInt32) (sid : StreamID) :
    Beside (runtime K true v) (fun _ => True) sid (runtime K cached w) where
  events evt enc henc := by
    obtain rfl := Except.ok.inj henc
    exact ⟨fun _ => trivial, fun _ => ⟨evt, rfl⟩⟩
  states hn := absurd trivial hn

end EventStore
