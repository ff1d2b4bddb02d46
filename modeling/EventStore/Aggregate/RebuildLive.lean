import EventStore.Aggregate.Cache
import EventStore.Aggregate.RebuildRace

/-!
# `Load` during a rebuild

`RebuildStateCache` wipes the cached states, folds the events page by page while the streams grow,
and writes one row after the other, each over whatever row is there by then.  A row it writes late
may be behind its stream (`rebuild_race_stale`), but never wrong: it is the fold of as many events
of its stream as its version says, and `Load` adds the events after it.

The rebuild is one with the runtime `R`, under the default schema version, which is the one its rows
carry.  `mine` are the streams of its aggregate; the events of other streams it cannot decode.

* `Rebuild.Holds` : what the map of the rebuild holds for a stream is the fold of its first events.
* `Fleet.Live.step` : **every step of a `Handle` call or of the rebuild keeps it**, and every cached
  state.
* `load_during_rebuild` : **at every moment a load is a full replay.**
-/

namespace EventStore

variable {ι K S C E : Type} {κ : Columns} {D : Dialect κ} {H : Hasher} {F : Fleet S C E}
  {mine : StreamID → Prop} {R : Runtime K S C E}

/-! ### The runtime of the rebuild -/

variable (F D mine R) in
/-- The runtime of the rebuild: one of the fleet on the streams of its aggregate, under the default
schema version.  It decodes no event of another aggregate. -/
structure Fleet.Rebuilder : Prop where
  runs : ∀ sid, mine sid → F.Runs sid R
  schema : R.schema = 1
  others : ∀ sid, ¬ mine sid → ∀ url v payload evt, (F.codec sid).decode url v payload = .ok evt →
    ∃ e, R.codec.decode url v payload = .error e
  /-- No state is encoded as nil, or the column refuses it. -/
  bytes : ∀ sc s url col, R.stateCodec = some sc → sc.encode s = .ok (none, url) →
    D.storeState none ≠ .ok col

/-- The steps of `Handle` calls by runtimes of the fleet, and of a rebuild with `R`. -/
def Fleet.Rebuilds (F : Fleet S C E) (R : Runtime K S C E) : Label ι K S C E → Prop
  | .begin _ c => F.Runs c.sid c.runtime
  | .wipe rt _ _ => rt = R
  | .direct .. | .keys _ => False
  | _ => True

variable (D H F R) in
/-- `Handle` calls of the fleet and a rebuild on one store, and nothing else. -/
def Fleet.rebuildSystem [DecidableEq ι] : TS (Sys ι κ K S C E) (Label ι K S C E) :=
  (EventStore.system D H).restrict fun _ l => F.Rebuilds R l

/-! ### What the rebuild holds -/

/-- The entry is the fold of the first events of its stream. -/
structure StreamState.IsPrefix (F : Fleet S C E) (mine : StreamID → Prop)
    (log : StreamID → List E) (st : StreamState S) : Prop where
  mine : mine st.streamID
  version_le : st.version ≤ (log st.streamID).length
  state : st.state = F.fold st.streamID ((log st.streamID).take st.version)

variable (D F mine R) in
/-- What the rebuild has read are the first events in its scope, and what it is about to write are
folds of first events. -/
def Rebuild.Holds (log : StreamID → List E) (db : Db κ) : Rebuild K S C E → Prop
  | .scanning rt tenant sc => rt = R ∧ ∃ seen rest, Scanned D R tenant db sc seen rest
  | .writing rt _ left _ => rt = R ∧ ∀ key st, left.lookup key = some st →
      st.IsPrefix F mine log
  | _ => True

/-- The loop of the rebuild over rows of a stream that hold the events. -/
theorem Fleet.Runs.foldl_scanRow {sid : StreamID} (h : F.Runs sid R) {rows : List (EventRow κ)}
    {evts : List E} (hrows : List.Forall₂ (F.Stores sid) rows evts) (acc : Option (S × ℕ)) :
    rows.foldl R.scanRow acc = (rows.getLast?.map fun r =>
      (R.decider.fold (acc.getD (R.decider.initial, 0)).1 evts, r.version)).or acc := by
  induction hrows generalizing acc with
  | nil => rfl
  | @cons r evt rows evts hr hrest ih =>
    have hdec : R.codec.decode r.typeURL (UInt32.ofInt r.schemaVersion) r.payload = .ok evt := by
      rw [h.codec]
      exact hr
    rw [List.foldl_cons, ih, Runtime.scanRow, hdec, List.getLast?_cons]
    cases hrest with
    | nil => rfl
    | cons => rw [List.getLast?_cons]; rfl

/-- The rows of a stream are rebuilt to the fold of its events. -/
theorem Fleet.Runs.rebuilt {sid : StreamID} (h : F.Runs sid R) {rows : List (EventRow κ)}
    {evts : List E} (hrows : List.Forall₂ (F.Stores sid) rows evts) :
    R.rebuilt rows = rows.getLast?.map fun r => (F.fold sid evts, r.version) := by
  rw [Runtime.rebuilt, h.foldl_scanRow hrows, Option.or_none, Fleet.fold, ← h.decider]
  rfl

/-- **After the last page, the map holds the folds of the streams.** -/
theorem Fleet.Rebuilder.isPrefix (hR : F.Rebuilder D mine R) {log : StreamID → List E}
    {db : Db κ} (hlogs : F.Logs log db) (hd : ∀ sid, db.Dense sid) {tenant : String}
    {sc : Scan S} (hsc : ∃ rest, Scanned D R tenant db sc (db.scope tenant) rest)
    {sid : StreamID} (hv : sid.Valid) {st : StreamState S}
    (hst : sc.streams.lookup (rebuildKey sid.tenant sid.canonical) = some st) :
    st.IsPrefix F mine log := by
  obtain ⟨rest, hsc⟩ := hsc
  rw [hsc.covers sid hv] at hst
  obtain ⟨x, hx, rfl⟩ := Option.map_eq_some_iff.1 hst
  by_cases hscope : sid.InScope tenant
  · rw [Db.filter_scope hscope] at hx
    by_cases hm : mine sid
    · -- all rows decode, so the version is that of the last
      rw [(hR.runs sid hm).rebuilt (hlogs sid hv)] at hx
      obtain ⟨r, hr, rfl⟩ := Option.map_eq_some_iff.1 hx
      have hlast := (hd sid).getLast?_drop (Nat.zero_le _)
      rw [List.drop_zero, List.getLast?_map, hr, Option.map_some, Option.getD_some,
        hlogs.length_eq hv] at hlast
      exact ⟨hm, hlast.le, by rw [hlast, List.take_length]⟩
    · -- no row decodes
      have hnone : R.rebuilt (db.stream sid) = none := by
        refine R.rebuilt_eq_none fun r hr => ?_
        obtain ⟨evt, -, hevt⟩ := exists_of_forall₂_right (hlogs sid hv).flip hr
        exact hR.others sid hm _ _ _ _ hevt
      rw [hnone] at hx
      cases hx
  · rw [Db.filter_scope_nil hscope] at hx
    cases hx

theorem StreamState.IsPrefix.mono {log log' : StreamID → List E} {st : StreamState S}
    (h : st.IsPrefix F mine log) (hp : ∀ sid, log sid <+: log' sid) :
    st.IsPrefix F mine log' where
  mine := h.mine
  version_le := h.version_le.trans (hp _).length_le
  state := by
    rw [take_eq_take_of_isPrefix (hp _) h.version_le]
    exact h.state

namespace Rebuild.Holds

variable {log log' : StreamID → List E} {db db' : Db κ} {rb : Rebuild K S C E}

/-- Events are added behind what the rebuild has read. -/
theorem mono (h : rb.Holds D F mine R log db)
    (hscan : ∀ tenant sc seen rest, Scanned D R tenant db sc seen rest →
      ∃ rest', Scanned D R tenant db' sc seen rest')
    (hp : ∀ sid, log sid <+: log' sid) : rb.Holds D F mine R log' db' := by
  cases rb with
  | scanning rt tenant sc =>
    obtain ⟨hrt, seen, rest, hsc⟩ := h
    exact ⟨hrt, seen, hscan tenant sc seen rest hsc⟩
  | writing rt tenant left written => exact ⟨h.1, fun key st hst => (h.2 key st hst).mono hp⟩
  | _ => trivial

theorem sameTables (h : rb.Holds D F mine R log db) (hs : db.SameTables db')
    (hq : db.seq ≤ db'.seq) : rb.Holds D F mine R log db' :=
  h.mono (fun _ _ _ rest hsc => ⟨rest, hsc.of_events_eq hs.1 hq⟩) fun _ => List.prefix_rfl

end Rebuild.Holds

/-! ### The invariant -/

variable (D F mine R) in
/-- The store is faithful to the history of the commits, cached rows belong to streams, and the
rebuild holds folds of first events. -/
structure Fleet.Live (s : Sys ι κ K S C E) : Prop where
  faithful : F.Faithful D s
  rows : ∀ r ∈ s.db.stateCache.rows, ∃ sid, sid.Valid ∧ r.ofStream sid = true
  rebuild : s.rebuild.Holds D F mine R (Occ.logOf s.commits) s.db

/-- A step of a `Handle` call leaves the rebuild alone. -/
theorem Moves.rebuild_of_handles [DecidableEq ι] {s s' : Sys ι κ K S C E} {l : Label ι K S C E}
    (hm : Moves D H s l s') (hl : F.Handles l) : s'.rebuild = s.rebuild := by
  cases hm <;> first | rfl | exact hl.elim

namespace Fleet.Live

variable {s s' : Sys ι κ K S C E} {l : Label ι K S C E}

theorem start (k : K) : F.Live D mine R (Sys.start k : Sys ι κ K S C E) where
  faithful := .start k
  rows _ hr := absurd hr List.not_mem_nil
  rebuild := trivial

/-- A step of the rebuild that writes some rows of the cache. -/
theorem of_rebuild (h : F.Live D mine R s) (ho : Ordered s') (hev : s'.db.events = s.db.events)
    (hprocs : s'.procs = s.procs) (hcommits : s'.commits = s.commits)
    (hrow : ∀ r ∈ s'.db.stateCache.rows, r ∈ s.db.stateCache.rows ∨
      ∃ sid, sid.Valid ∧ r.ofStream sid = true ∧
        (F.stateCodec sid (UInt32.ofInt r.stateSchemaVersion)).decode (D.loadState r.state) =
          .ok (F.fold sid ((Occ.logOf s.commits sid).take r.version)))
    (hrb : s'.rebuild.Holds D F mine R (Occ.logOf s.commits) s'.db) : F.Live D mine R s' where
  faithful := {
    ordered := ho
    streams := by
      rw [hev]
      exact h.faithful.streams
    logs := by
      intro sid hv
      rw [hcommits, Db.stream, hev]
      exact h.faithful.logs sid hv
    caches := by
      intro r hr sid hv hof
      rw [hcommits]
      rcases hrow r hr with hr | ⟨sid', hv', hof', hdec⟩
      · exact h.faithful.caches r hr sid hv hof
      · obtain rfl := StreamID.eq_of_key_eq hv hv'
          ((StateCacheRow.ofStream_iff.1 hof).trans (StateCacheRow.ofStream_iff.1 hof').symm)
        exact hdec
    procs := by
      rw [hprocs, hcommits]
      exact h.faithful.procs
    history := by
      rw [hcommits]
      exact h.faithful.history
    returned := by
      rw [hprocs, hcommits]
      exact h.faithful.returned }
  rows r hr := by
    rcases hrow r hr with hr | ⟨sid, hv, hof, -⟩
    · exact h.rows r hr
    · exact ⟨sid, hv, hof⟩
  rebuild := by
    rw [hcommits]
    exact hrb

/-- **A row the rebuild writes is a fold of the first events of its stream.** -/
theorem upserted (hF : F.RoundTrips D) (hR : F.Rebuilder D mine R) (h : F.Live D mine R s)
    {tenant key : String} {left : List (String × StreamState S)} {written : ℕ}
    {st : StreamState S} {en : Engine} {db' : Db κ}
    (hw : s.rebuild = .writing R tenant left written) (hl : left.lookup key = some st)
    (hu : rebuildStream D en R st s.db = (.ok (), db')) :
    db'.events = s.db.events ∧ db'.seq = s.db.seq ∧
      ∀ r ∈ db'.stateCache.rows, r ∈ s.db.stateCache.rows ∨
        ∃ sid, sid.Valid ∧ r.ofStream sid = true ∧
          (F.stateCodec sid (UInt32.ofInt r.stateSchemaVersion)).decode (D.loadState r.state) =
            .ok (F.fold sid ((Occ.logOf s.commits sid).take r.version)) := by
  obtain ⟨sc, bs, tu, col, hsc, henc, hcol, rfl⟩ := rebuildStream_ok hu
  have hb := h.faithful.ordered.rebuild
  have hh := h.rebuild
  rw [hw] at hb hh
  obtain ⟨hv, -⟩ := hb _ (mem_of_lookup hl)
  obtain ⟨hm, -, hstate⟩ := hh.2 key st hl
  refine ⟨rfl, rfl, fun r hr => ?_⟩
  rcases Table.mem_upsert.1 hr with rfl | ⟨hr, -⟩
  · refine Or.inr ⟨st.streamID, hv, StateCacheRow.ofStream_iff.2 rfl, ?_⟩
    -- the row carries the default schema version, under which the runtime encodes
    have hcodec := (hR.runs _ hm).stateCodec sc hsc
    rw [hR.schema] at hcodec
    show (F.stateCodec st.streamID (UInt32.ofInt (D.schemaColumn 1))).decode (D.loadState col) =
      .ok (F.fold st.streamID ((Occ.logOf s.commits st.streamID).take st.version))
    rw [D.ofInt_schemaColumn, ← hstate]
    cases bs with
    | none => exact absurd hcol (hR.bytes sc st.state tu col hsc henc)
    | some b =>
      rw [hcodec] at henc
      exact hF.state _ _ _ _ _ _ henc hcol
  · exact Or.inl hr

variable [DecidableEq ι]

/-- A step of a `Handle` call. -/
theorem of_handle (hF : F.RoundTrips D) (h : F.Live D mine R s) (hl : F.Handles l)
    (hm : Moves D H s l s') (hrb : s'.rebuild = s.rebuild) : F.Live D mine R s' := by
  have hf := h.faithful.step hF hl hm
  cases hm.writes with
  | quiet hs hq hc =>
    refine ⟨hf, fun r hr => h.rows r (hs.2.2.2 ▸ hr), ?_⟩
    rw [hrb, hc]
    exact h.rebuild.sameTables hs hq
  | @append i c evts p en _ rows _ hp _ ha hc =>
    obtain ⟨hsid, -, -, hv, -⟩ := h.faithful.of_decided hp ha
    refine ⟨hf, fun r hr => ?_, ?_⟩
    · rcases ha.stateCache with ⟨hsc, -⟩ | ⟨b, col, -, -, hsc⟩
      · exact h.rows r (hsc ▸ hr)
      · rw [hsc] at hr
        rcases Table.mem_upsert.1 hr with rfl | ⟨hr, -⟩
        · exact ⟨p.streamID, hsid ▸ hv, StateCacheRow.ofStream_iff.2 rfl⟩
        · exact h.rows r hr
    · rw [hrb, hc]
      exact h.rebuild.mono (fun _ _ _ _ hsc => ⟨_, hsc.appended ha⟩) fun _ => Occ.logOf_prefix
  -- the other writers are not steps of `Handle`
  | direct he => rw [he] at hl; exact hl.elim
  | wipe he => rw [he] at hl; exact hl.elim
  | upsert he => rw [he] at hl; exact hl.elim

/-- **Every step of a `Handle` call or of the rebuild keeps the invariant.** -/
theorem step (hF : F.RoundTrips D) (hR : F.Rebuilder D mine R) (h : F.Live D mine R s)
    (hl : F.Rebuilds R l) (hm : Moves D H s l s') : F.Live D mine R s' := by
  have ho : Ordered s' :=
    h.faithful.ordered.step (fun en p he => by rw [he] at hl; exact hl.elim) hm
  by_cases hhandle : F.Handles l
  · exact h.of_handle hF hhandle hm (hm.rebuild_of_handles hhandle)
  have hh := h.rebuild
  cases hm with
  | direct => exact hl.elim
  | keys => exact hl.elim
  | wipeError => exact h.of_rebuild ho rfl rfl rfl (fun r hr => Or.inl hr) trivial
  | wipe hidle hp =>
    obtain rfl : _ = R := hl
    refine h.of_rebuild ho rfl rfl rfl (fun r hr => Or.inl (List.mem_filter.1 hr).1) ⟨rfl, ?_⟩
    exact ⟨_, _, .start (h.faithful.ordered.wf.wipe _ _)⟩
  | pageError => exact h.of_rebuild ho rfl rfl rfl (fun r hr => Or.inl hr) trivial
  | page hs hread _ =>
    rw [hs] at hh
    obtain ⟨rfl, seen, rest, hsc⟩ := hh
    exact h.of_rebuild ho rfl rfl rfl (fun r hr => Or.inl hr) ⟨rfl, _, _, hsc.page hread⟩
  | lastPage hs hread =>
    have hb := h.faithful.ordered.rebuild
    rw [hs] at hh hb
    obtain ⟨rfl, seen, rest, hsc⟩ := hh
    obtain ⟨-, rfl⟩ := hsc.last hread
    refine h.of_rebuild ho rfl rfl rfl (fun r hr => Or.inl hr) ⟨rfl, fun key st hst => ?_⟩
    obtain ⟨hv, hkey, -⟩ := hb _ (mem_of_lookup hst)
    rw [show key = _ from hkey] at hst
    exact hR.isPrefix h.faithful.logs h.faithful.ordered.wf.dense ⟨_, hsc⟩ hv hst
  | upsert hw hlk hu =>
    rw [hw] at hh
    obtain ⟨rfl, hleft⟩ := hh
    obtain ⟨hev, -, hrow⟩ := h.upserted hF hR hw hlk hu
    refine h.of_rebuild ho hev rfl rfl hrow ⟨rfl, fun key' st' hst' => ?_⟩
    rw [lookup_filter] at hst'
    split_ifs at hst'
    exact hleft key' st' hst'
  | upsertError => exact h.of_rebuild ho rfl rfl rfl (fun r hr => Or.inl hr) trivial
  | finish => exact h.of_rebuild ho rfl rfl rfl (fun r hr => Or.inl hr) trivial
  | begin => exact absurd hl hhandle
  | _ => exact absurd trivial hhandle

theorem of_reachable (hF : F.RoundTrips D) (hR : F.Rebuilder D mine R)
    (h : (F.rebuildSystem D H R).Reachable s) : F.Live D mine R s := by
  induction h with
  | init h₀ =>
    obtain ⟨k, rfl⟩ := h₀
    exact start k
  | step _ hstep ih => exact ih.step hF hR hstep.1 (Sys.moves hstep.2)

end Fleet.Live

/-! ### Loads -/

/-- The runtime without a `StateCodec`: its `Load` replays the whole stream. -/
def Runtime.uncached (rt : Runtime K S C E) : Runtime K S C E := { rt with stateCodec := none }

theorem Fleet.Runs.uncached {sid : StreamID} {rt : Runtime K S C E} (h : F.Runs sid rt) :
    F.Runs sid rt.uncached where
  decider := h.decider
  codec := h.codec
  stateCodec _ hsc := by cases hsc
  shredder := h.shredder

/-- `Load` of a stream that can be read. -/
theorem Fleet.Faithful.load_eq {s : Sys ι κ K S C E} (h : F.Faithful D s) {sid : StreamID}
    {rt : Runtime K S C E} (hrt : F.Runs sid rt) {envs : List Envelope}
    (hread : readStream D s.db sid 0 = .ok envs) (k : K) :
    rt.load D s.db sid k =
      .ok (F.fold sid (Occ.logOf s.commits sid), (s.db.stream sid).length) k := by
  have hwf := h.ordered.wf
  have htail := (hwf.dense sid).read_after hread (rt.seed (getState D s.db sid)).2
  have hload := h.logs.loadTail hwf.dense hrt (seed_version_le hwf none)
    (fun hv => h.caches.seed hv hrt none) htail k
  rw [Runtime.load, htail]
  exact hload

variable [DecidableEq ι] {s : Sys ι κ K S C E}

/-- **`Load` stays correct during a rebuild.**  In every state of a store in which runtimes of the
fleet call `Handle` while the cache is rebuilt, whatever steps have been taken:

* every cached state decodes, under its schema version, to the fold of as many events of its stream
  as its version says;
* if a stream can be read, `Load` returns the fold of all its events and the version of the last,
  which is what a full replay returns;
* so does the second read of a call that has read the cache in an earlier state. -/
theorem load_during_rebuild (hF : F.RoundTrips D) (hR : F.Rebuilder D mine R)
    (h : (F.rebuildSystem D H R).Reachable s) :
    (∀ r ∈ s.db.stateCache.rows, ∃ sid, sid.Valid ∧ r.ofStream sid = true ∧
        ∃ evts, List.Forall₂ (F.Stores sid) (s.db.streamRows sid) evts ∧
          r.version ≤ evts.length ∧
          (F.stateCodec sid (UInt32.ofInt r.stateSchemaVersion)).decode (D.loadState r.state) =
            .ok (F.fold sid (evts.take r.version))) ∧
      (∀ sid (rt : Runtime K S C E), F.Runs sid rt → ∀ envs, readStream D s.db sid 0 = .ok envs →
        ∃ st, rt.FullFold envs st ∧ ∀ k, rt.load D s.db sid k = .ok st k ∧
          rt.uncached.load D s.db sid k = .ok st k) ∧
      ∀ i c start, s.procs i = .seeded c start →
        ∀ envs, readStream D s.db c.sid 0 = .ok envs →
          ∃ st, c.runtime.FullFold envs st ∧
            ∀ k, c.runtime.loadTail c.sid start (readStream D s.db c.sid start.2) k = .ok st k := by
  have hlive := Fleet.Live.of_reachable hF hR h
  have hf := hlive.faithful
  have hwf := hf.ordered.wf
  refine ⟨fun r hr => ?_, fun sid rt hrt envs hread => ?_, fun i c start hi envs hread => ?_⟩
  · obtain ⟨sid, hv, hof⟩ := hlive.rows r hr
    refine ⟨sid, hv, hof, Occ.logOf s.commits sid, ?_, ?_, hf.caches r hr sid hv hof⟩
    · rw [(hwf.dense sid).streamRows_eq]
      exact hf.logs sid hv
    · rw [← hf.logs.length_eq hv]
      exact hwf.cache_le r hr sid hof
  · exact ⟨_, hf.logs.fullFold hwf.dense hrt hread, fun k =>
      ⟨hf.load_eq hrt hread k, hf.load_eq hrt.uncached hread k⟩⟩
  · have hb := hf.ordered.procs i
    have hp := hf.procs i
    rw [hi] at hb hp
    exact hf.logs.loadTail_eq_full hwf.dense hp.1 hb hp.2 hread

theorem Fleet.journal_rebuilder :
    Fleet.journal.Rebuilder (Sqlite.dialect .small) (fun _ => True) (Journal.runtime Unit true 1)
    where
  runs := fun sid _ => Fleet.journal_runs true 1 sid
  schema := rfl
  others _ hn := absurd trivial hn
  bytes sc s url col hsc henc := by
    obtain rfl := Option.some.inj hsc
    cases henc

/-- A late row of a rebuild replaces a newer one; both notes are loaded all the same. -/
theorem load_during_rebuild_stale : ∃ (s : Journal.Store) (envs : List Envelope),
    (Fleet.journal.rebuildSystem (Sqlite.dialect .small) .small
        (Journal.runtime Unit true 1)).Reachable s ∧
      (s.db.cachedRow ⟨"acme", "journal", "1"⟩).map StateCacheRow.version = some 1 ∧
      readStream (Sqlite.dialect .small) s.db ⟨"acme", "journal", "1"⟩ 0 = .ok envs ∧
      envs.map Envelope.version = [1, 2] ∧
      ∃ st, (Journal.runtime Unit true 1).FullFold envs st ∧ ∀ k,
        (Journal.runtime Unit true 1).load (Sqlite.dialect .small) s.db
            ⟨"acme", "journal", "1"⟩ k = .ok st k := by
  let D := Sqlite.dialect .small
  let sid : StreamID := ⟨"acme", "journal", "1"⟩
  let ls := Journal.disturbed ++ [.upsert "acme|journal:1" .calm]
  let s? := TS.exec (Sys.step D .small) (Sys.start (ι := ℕ) ()) ls
  have hls : ∀ l ∈ ls, Fleet.journal.Rebuilds (Journal.runtime Unit true 1) l := by
    simp [ls, Journal.disturbed, Journal.handle, Journal.upToAppend, Fleet.Rebuilds, Journal.call,
      Fleet.journal_runs]
  have hend : s?.map (fun s => ((s.db.cachedRow sid).map StateCacheRow.version,
      (readStream D s.db sid 0).toOption.map (List.map Envelope.version))) =
        some (some 1, some [1, 2]) := by decide +kernel
  obtain ⟨s, hs, he⟩ := Option.map_eq_some_iff.1 hend
  obtain ⟨hcache, hread⟩ := Prod.mk.inj he
  have hr : (Fleet.journal.rebuildSystem D .small (Journal.runtime Unit true 1)).Reachable s :=
    TS.Reachable.exec (.init ⟨(), rfl⟩) (fun l hl _ _ h => ⟨hls l hl, h⟩) hs
  obtain ⟨envs, henvs, hversions⟩ := Option.map_eq_some_iff.1 hread
  have hok : readStream D s.db sid 0 = .ok envs := by
    cases hrd : readStream D s.db sid 0 with
    | error e => rw [hrd] at henvs; cases henvs
    | ok es => rw [hrd] at henvs; exact congrArg _ (Option.some.inj henvs)
  obtain ⟨st, hfold, hload⟩ := (load_during_rebuild Fleet.journal_roundTrips
    Fleet.journal_rebuilder hr).2.1 sid _ (Fleet.journal_runs true 1 sid) envs hok
  exact ⟨s, envs, hr, hcache, hok, hversions, st, hfold, fun k => (hload k).1⟩

end EventStore
