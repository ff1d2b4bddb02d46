import EventStore.Aggregate.Cache
import EventStore.Aggregate.Scan

/-!
# A rebuild of a quiescent store

The history of a store is written by `Handle` calls; on the streams `mine` by the runtime `R`, which
has no shredder.  Then `RebuildStateCache` runs with `R` while nobody else writes.

`Runtime.RowOf R D s v k r` says that `r` is the row for the state `s` at version `v` under the
schema version `k`.  A `Handle` call of `R` leaves `RowOf ... R.schema` (`Settled.rows`), a rebuild
`RowOf ... 1`, since it leaves `StateSchemaVersion` out.  So

* `rebuild_quiet` : **a rebuild puts back the row of the last `Handle` call but for its schema
  version, which is right iff that of the runtime is 1**; the rebuild can always finish when the
  events can be read, and what `Load` returns does not change.
* `rebuild_quiet_differs` : under another schema version, with an event that cannot be decoded, or
  with a shredder, the row is another one, and no error is reported.
-/

namespace EventStore

variable {ι K S C E : Type} {κ : Columns} {D : Dialect κ} {H : Hasher}
  {F : Fleet S C E} {R : Runtime K S C E} {mine : StreamID → Prop}

/-! ### Rows of one state -/

/-- Rows of one state differ at most in the schema version. -/
theorem Runtime.RowOf.same {s : S} {v : ℕ} {k k' : UInt32} {r r' : StateCacheRow κ}
    (h : R.RowOf D s v k r) (h' : R.RowOf D s v k' r') :
    r'.typeURL = r.typeURL ∧ r'.state = r.state ∧ r'.version = r.version ∧
      r'.terminal = r.terminal ∧ (r'.stateSchemaVersion = r.stateSchemaVersion ↔ k = k') := by
  obtain ⟨sc, bs, hsc, henc, hst⟩ := h.state
  obtain ⟨sc', bs', hsc', henc', hst'⟩ := h'.state
  rw [hsc] at hsc'
  obtain rfl := Option.some.inj hsc'
  rw [henc] at henc'
  obtain ⟨hbs, hurl⟩ := Prod.mk.inj (Except.ok.inj henc')
  rw [← Option.some.inj hbs, hst] at hst'
  refine ⟨hurl.symm, (Except.ok.inj hst').symm, h'.version.trans h.version.symm,
    h'.terminal.trans h.terminal.symm, ?_⟩
  rw [h.schema, h'.schema]
  constructor
  · intro he
    rw [← D.ofInt_schemaColumn k, ← he, D.ofInt_schemaColumn]
  · rintro rfl
    rfl

/-! ### The history before the rebuild -/

variable (F R mine) in
/-- A call before the rebuild: of the fleet, beside `R`, and on the streams `mine` of `R` itself. -/
structure Call.Before (c : Call K S C E) : Prop where
  runs : F.Runs c.sid c.runtime
  beside : Beside R mine c.sid c.runtime
  mine : mine c.sid → c.runtime = R

variable (F R mine) in
/-- The steps before the rebuild. -/
def HandledStep : Label ι K S C E → Prop
  | .begin _ c => c.Before F R mine
  | .getState .. => True
  | .readStream .. => True
  | .decide .. => True
  | .append .. => True
  | _ => False

theorem HandledStep.handles {l : Label ι K S C E} (h : HandledStep F R mine l) : F.Handles l := by
  cases l with
  | begin i c => exact h.runs
  | _ => exact h

variable (D F R mine) in
/-- What the history leaves: the cached row of a stream of `R` is that of its fold. -/
structure Settled (s : Sys ι κ K S C E) : Prop where
  faithful : F.Faithful D s
  apart : Apart R mine s.db
  procs : ∀ i, (s.procs i).Of (Call.Before F R mine)
  rows : ∀ sid : StreamID, sid.Valid → mine sid → s.db.stream sid ≠ [] →
    ∃ r ∈ s.db.stateCache.rows, r.ofStream sid = true ∧
      R.RowOf D (F.fold sid (Occ.logOf s.commits sid)) (s.db.stream sid).length R.schema r
  idle : s.rebuild = .idle

namespace Settled

variable {s s' : Sys ι κ K S C E} {l : Label ι K S C E}

theorem start (k : K) : Settled D F R mine (Sys.start k : Sys ι κ K S C E) where
  faithful := .start k
  apart := .empty
  procs _ := trivial
  rows _ _ _ hne := absurd rfl hne
  idle := rfl

/-- The row `R` writes with a batch is that of the fold of the log and the batch. -/
theorem rows_commit (hR : R.Caches) (h : Settled D F R mine s) {i : ι} {c : Call K S C E}
    {evts : List E} {p : AppendParams} {en : Engine} {db' : Db κ} {rows : List (EventRow κ)}
    (hp : s.procs i = .decided c evts p) (ha : Appended D H en p s.db db' rows) :
    ∀ sid : StreamID, sid.Valid → mine sid → db'.stream sid ≠ [] →
      ∃ r ∈ db'.stateCache.rows, r.ofStream sid = true ∧
        R.RowOf D (F.fold sid (Occ.logOf (s.commits ++ [⟨i, c.sid, c.cmd, evts⟩]) sid))
          (db'.stream sid).length R.schema r := by
  obtain ⟨hsid, hexp, hrt, hv, hd⟩ := h.faithful.of_decided hp ha
  obtain ⟨-, -, hbefore, -⟩ := h.faithful.ordered.of_decided h.procs hp ha
  intro sid hv' hm hne
  by_cases hk : sid.key = p.streamID.key
  · -- the stream of the batch: the call is by `R`, at the head
    obtain rfl := StreamID.eq_of_key_eq hv' hv (hsid ▸ hk)
    obtain rfl := hbefore.mine hm
    have hfold : F.fold c.sid (Occ.logOf (s.commits ++ [⟨i, c.sid, c.cmd, evts⟩]) c.sid) =
        c.runtime.decider.fold (F.fold c.sid (Occ.logOf s.commits c.sid)) evts := by
      rw [Occ.logOf_concat_self (b := ⟨i, c.sid, c.cmd, evts⟩), F.fold_append, hrt.decider]
    rw [hfold]
    rw [← hsid] at hd hexp ⊢
    exact ha.rowOf hexp hR hd
  · -- another stream: neither its log nor its row is touched
    rw [ha.stream_ne hk] at hne ⊢
    rw [Occ.logOf_concat_ne (by rintro rfl; exact hk (by rw [hsid]))]
    obtain ⟨r, hr, hof, hrow⟩ := h.rows sid hv' hm hne
    refine ⟨r, ?_, hof, hrow⟩
    rcases ha.stateCache with ⟨hcache, -⟩ | ⟨b, col, -, -, hcache⟩
    · exact hcache ▸ hr
    · rw [hcache]
      exact Db.mem_upsert_of_ne hr hof fun hof' => hk (StateCacheRow.ofStream_iff.1 hof')

variable [DecidableEq ι]

theorem step (hF : F.RoundTrips D) (hR : R.Caches) (h : Settled D F R mine s)
    (hl : HandledStep F R mine l) (hm : Moves D H s l s') : Settled D F R mine s' where
  faithful := h.faithful.step hF hl.handles hm
  apart := by
    rcases hl.handles.writes hm.writes with ⟨hs, -⟩ | ⟨i, c, evts, p, en, r, rows, -, hp, -, ha, -⟩
    · exact h.apart.of_events_eq hs.1 fun r hr => Or.inl (hs.2.2.2 ▸ hr)
    · obtain ⟨hsid, -, hc, _, hd⟩ := h.faithful.ordered.of_decided h.procs hp ha
      rw [← hsid] at hd
      exact h.apart.appended ha (hsid ▸ hc.beside) hd
  procs i := by
    rcases hm.proc i with he | hn
    · exact he ▸ h.procs i
    · exact hn.of (fun i c he => by rw [he] at hl; exact hl) (h.procs i)
  rows := by
    rcases hl.handles.writes hm.writes with
      ⟨hs, hc⟩ | ⟨i, c, evts, p, en, r, rows, -, hp, -, ha, hc⟩
    · intro sid hv hmine hne
      rw [hs.stream_eq] at hne ⊢
      rw [hc, hs.2.2.2]
      exact h.rows sid hv hmine hne
    · exact hc ▸ h.rows_commit hR hp ha
  idle := by
    cases hm with
    | wipeError => exact hl.elim
    | pageError => exact hl.elim
    | upsertError => exact hl.elim
    | wipe => exact hl.elim
    | page => exact hl.elim
    | lastPage => exact hl.elim
    | upsert => exact hl.elim
    | finish => exact hl.elim
    | _ => exact h.idle

end Settled

/-! ### The rebuild -/

/-- The steps of a rebuild with `R` for a tenant, no statement of which fails by itself. -/
def RebuildStep (R : Runtime K S C E) (tenant : String) : Label ι K S C E → Prop
  | .wipe rt t fault => rt = R ∧ t = tenant ∧ fault = none
  | .page fault => fault = none
  | .upsert _ en => en.fault .upsertStateCache = none
  | .finish => True
  | _ => False

variable (D) in
/-- The events in the scope of a rebuild can be read. -/
def Db.Readable (db : Db κ) (tenant : String) : Prop :=
  ∀ r ∈ db.scope tenant, ∃ env, rowToEnvelope D r = .ok env

theorem Db.Readable.readPage {db : Db κ} {tenant : String} (h : db.Readable D tenant)
    (cursor : ℕ) : ∃ envs, readPage D db tenant cursor = .ok envs := by
  obtain ⟨envs, henvs⟩ := exists_forall₂_of_forall fun r hr =>
    h r (List.mem_filter.1 (List.mem_of_mem_take hr)).1
  exact ⟨envs, readPage_eq_ok.2 henvs⟩

theorem Db.Readable.readStream {db : Db κ} {tenant : String} (h : db.Readable D tenant)
    {sid : StreamID} (hd : db.Dense sid) (hv : sid.Valid) (hs : sid.InScope tenant) :
    ∃ envs, readStream D db sid 0 = .ok envs := by
  have hrows : ∀ r ∈ db.stream sid, ∃ env, rowToEnvelope D r = .ok env := fun r hr => by
    rw [← Db.filter_scope hs] at hr
    exact h r (List.mem_filter.1 hr).1
  obtain ⟨envs, henvs⟩ := exists_forall₂_of_forall hrows
  exact ⟨envs, (readStream_eq_ok hd).2 ⟨hv, henvs⟩⟩

/-- What a rebuild holds for a stream of its aggregate is the fold of the stream. -/
theorem foldl_scanRow {sid : StreamID} (hR : F.Runs sid R) {rows : List (EventRow κ)}
    {evts : List E} (h : List.Forall₂ (F.Stores sid) rows evts) (acc : Option (S × ℕ)) :
    rows.foldl R.scanRow acc = rows.getLast?.elim acc fun r =>
      some (R.decider.fold (acc.getD (R.decider.initial, 0)).1 evts, r.version) := by
  induction h generalizing acc with
  | nil => rfl
  | @cons r evt rows evts hr hrest ih =>
    have hrow : R.scanRow acc r =
        some (R.decider.evolve (acc.getD (R.decider.initial, 0)).1 evt, r.version) := by
      have hdec : R.codec.decode r.typeURL (UInt32.ofInt r.schemaVersion) r.payload = .ok evt :=
        hR.codec ▸ hr
      rw [Runtime.scanRow, hdec]
    rw [List.foldl_cons, ih, hrow]
    -- the version that stays is the one of the last row
    cases hrest with
    | nil => rfl
    | cons _ _ => rw [List.getLast?_cons_cons, List.getLast?_cons]; rfl

theorem Runtime.rebuilt_of_stores {sid : StreamID} (hR : F.Runs sid R) {rows : List (EventRow κ)}
    {evts : List E} (h : List.Forall₂ (F.Stores sid) rows evts) :
    R.rebuilt rows = rows.getLast?.map fun r => (F.fold sid evts, r.version) := by
  rw [Runtime.rebuilt, foldl_scanRow hR h]
  cases rows.getLast? with
  | none => rfl
  | some r =>
    have hfold : R.decider.fold R.decider.initial evts = F.fold sid evts := by
      rw [hR.decider]
      rfl
    exact congrArg (fun s => some (s, r.version)) hfold

/-- The stream is empty, or its row is the one a rebuild writes for its fold. -/
def Restored (F : Fleet S C E) (R : Runtime K S C E) (D : Dialect κ) (log : StreamID → List E)
    (db : Db κ) (sid : StreamID) : Prop :=
  db.stream sid ≠ [] → ∃ r ∈ db.stateCache.rows, r.ofStream sid = true ∧
    R.RowOf D (F.fold sid (log sid)) (db.stream sid).length 1 r

/-- The rows of the streams that are not rebuilt are those they were. -/
def Untouched (mine : StreamID → Prop) (tenant : String) (db₀ db : Db κ) : Prop :=
  ∀ sid : StreamID, sid.Valid → ¬ (mine sid ∧ sid.InScope tenant) →
    ∀ r : StateCacheRow κ, r.ofStream sid = true →
      (r ∈ db.stateCache.rows ↔ r ∈ db₀.stateCache.rows)

variable (D F R mine) in
/-- How far a rebuild of the store `db₀` has come. -/
def Rebuild.Restores (log : StreamID → List E) (tenant : String) (db₀ db : Db κ) :
    Rebuild K S C E → Prop
  | .idle => db.stateCache = db₀.stateCache
  | .scanning rt t sc => rt = R ∧ t = tenant ∧ Untouched mine tenant db₀ db ∧
      ∃ seen rest, Scanned D R tenant db sc seen rest
  | .writing rt t left _ => rt = R ∧ t = tenant ∧ Untouched mine tenant db₀ db ∧
      db.Readable D tenant ∧ ∀ sid : StreamID, sid.Valid →
        (left.lookup (rebuildKey sid.tenant sid.canonical) = none →
          mine sid → sid.InScope tenant → Restored F R D log db sid) ∧
        ∀ st, left.lookup (rebuildKey sid.tenant sid.canonical) = some st →
          mine sid ∧ sid.InScope tenant ∧ db.stream sid ≠ [] ∧
            st = ⟨F.fold sid (log sid), (db.stream sid).length, sid⟩
  | .returned (.ok _) => Untouched mine tenant db₀ db ∧ db.Readable D tenant ∧
      ∀ sid : StreamID, sid.Valid → mine sid → sid.InScope tenant → Restored F R D log db sid
  | .returned (.error _) => ¬ (db.Readable D tenant ∧ ∃ url, probeTypeURL R = .ok url)

variable (D F R mine) in
/-- A state in the course of a rebuild of the store that `s₀` has settled. -/
structure Restoring (tenant : String) (s₀ s : Sys ι κ K S C E) : Prop where
  ordered : Ordered s
  events : s.db.events = s₀.db.events
  seq : s.db.seq = s₀.db.seq
  rebuild : s.rebuild.Restores D F R mine (Occ.logOf s₀.commits) tenant s₀.db s.db

namespace Restoring

variable {s₀ s s' : Sys ι κ K S C E} {l : Label ι K S C E} {tenant : String}

theorem stream_eq (h : Restoring D F R mine tenant s₀ s) (sid : StreamID) :
    s.db.stream sid = s₀.db.stream sid := by
  rw [Db.stream, Db.stream, h.events]

theorem start (h₀ : Settled D F R mine s₀) : Restoring D F R mine tenant s₀ s₀ where
  ordered := h₀.faithful.ordered
  events := rfl
  seq := rfl
  rebuild := by
    rw [h₀.idle]
    exact rfl

/-- What the map holds after the last page. -/
theorem restores_lastPage (hmine : ∀ sid, mine sid → F.Runs sid R)
    (h₀ : Settled D F R mine s₀) (h : Restoring D F R mine tenant s₀ s) {rt : Runtime K S C E}
    {t : String} {sc : Scan S} (hs : s.rebuild = .scanning rt t sc)
    (hread : readPage D s.db t sc.cursor = .ok []) :
    (Rebuild.writing rt t sc.streams 0 : Rebuild K S C E).Restores D F R mine
      (Occ.logOf s₀.commits) tenant s₀.db s.db := by
  have ht := h.rebuild
  rw [hs] at ht
  obtain ⟨rfl, rfl, hunt, seen, rest, hsc⟩ := ht
  obtain ⟨-, rfl⟩ := hsc.last hread
  refine ⟨rfl, rfl, hunt, hsc.readable, fun sid hv => ?_⟩
  rw [hsc.covers sid hv]
  by_cases hin : mine sid ∧ sid.InScope t
  · -- the whole scope has been seen, so the entry is the fold of the whole stream
    have hlog := h₀.faithful.logs sid hv
    rw [← h.stream_eq] at hlog
    have hlast := (h.ordered.wf.dense sid).getLast?_drop (Nat.zero_le _)
    rw [List.drop_zero, List.getLast?_map] at hlast
    rw [Db.filter_scope hin.2, Runtime.rebuilt_of_stores (hmine sid hin.1) hlog]
    cases hl : (s.db.stream sid).getLast? with
    | none =>
      refine ⟨fun _ _ _ hne => absurd (List.getLast?_eq_none_iff.1 hl) hne, fun st hst => ?_⟩
      cases hst
    | some r =>
      rw [hl] at hlast
      refine ⟨fun hn => ?_, fun st hst => ⟨hin.1, hin.2, ?_, ?_⟩⟩
      · cases hn
      · intro hnil
        rw [hnil] at hl
        cases hl
      · rw [← Option.some.inj hst]
        exact congrArg (fun v => (⟨_, v, sid⟩ : StreamState S)) hlast
  · -- no event of another stream has been decoded
    have hscope : s.db.scope t = s₀.db.scope t := by rw [Db.scope, Db.scope, h.events]
    rw [hscope, h₀.apart.rebuilt_eq_none hv hin]
    refine ⟨fun _ hm hsc => absurd ⟨hm, hsc⟩ hin, fun st hst => ?_⟩
    cases hst

/-- The entry of a stream that is written. -/
theorem entry (h : Restoring D F R mine tenant s₀ s) {rt : Runtime K S C E} {t key : String}
    {left : List (String × StreamState S)} {written : ℕ} {st : StreamState S}
    (hw : s.rebuild = .writing rt t left written) (hl : left.lookup key = some st) :
    ∃ sid : StreamID, sid.Valid ∧ mine sid ∧ sid.InScope tenant ∧ s.db.stream sid ≠ [] ∧
      key = rebuildKey sid.tenant sid.canonical ∧
      st = ⟨F.fold sid (Occ.logOf s₀.commits sid), (s.db.stream sid).length, sid⟩ := by
  have hb := h.ordered.rebuild
  have ht := h.rebuild
  rw [hw] at hb ht
  obtain ⟨hv, hk, -⟩ := hb _ (mem_of_lookup hl)
  obtain ⟨hm, hs, hne, hst⟩ := (ht.2.2.2.2 _ hv).2 st (hk ▸ hl)
  exact ⟨st.streamID, hv, hm, hs, hne, hk, hst⟩

theorem restores_upsert (h : Restoring D F R mine tenant s₀ s) {rt : Runtime K S C E}
    {t key : String} {left : List (String × StreamState S)} {written : ℕ} {st : StreamState S}
    {en : Engine} {db' : Db κ} (hR : R.Caches)
    (hw : s.rebuild = .writing rt t left written)
    (hl : left.lookup key = some st) (hu : rebuildStream D en rt st s.db = (.ok (), db')) :
    (Rebuild.writing rt t (left.filter fun x => x.1 != key) (written + 1) :
      Rebuild K S C E).Restores D F R mine (Occ.logOf s₀.commits) tenant s₀.db db' := by
  obtain ⟨sid₀, hv₀, hm₀, hs₀, hne₀, hkey, rfl⟩ := h.entry hw hl
  have ht := h.rebuild
  rw [hw] at ht
  obtain ⟨rfl, rfl, hunt, hread, hstreams⟩ := ht
  obtain ⟨sc, bs, tu, col, hsc, henc, hcol, rfl⟩ := rebuildStream_ok hu
  obtain ⟨b, rfl⟩ := Option.ne_none_iff_exists'.1 (hR.bytes sc _ _ _ hsc henc)
  have hother : ∀ sid : StreamID, sid.Valid → sid ≠ sid₀ →
      ∀ row : StateCacheRow κ, row.tenantID = sid₀.tenant → row.streamID = sid₀.canonical →
        ¬ row.ofStream sid = true := fun sid hv hne row h₁ h₂ hof =>
    hne (StreamID.eq_of_key_eq hv hv₀ ((StateCacheRow.ofStream_iff.1 hof).trans (Prod.ext h₁ h₂)))
  refine ⟨rfl, rfl, fun sid hv hn r hof => ?_, hread, fun sid hv => ?_⟩
  · -- the rows of the streams not rebuilt
    have hne : sid ≠ sid₀ := by
      rintro rfl
      exact hn ⟨hm₀, hs₀⟩
    rw [← hunt sid hv hn r hof]
    refine ⟨fun hr => ?_, fun hr => Db.mem_upsert_of_ne hr hof (hother sid hv hne _ rfl rfl)⟩
    rcases Table.mem_upsert.1 hr with rfl | ⟨hr, -⟩
    · exact absurd hof (hother sid hv hne _ rfl rfl)
    · exact hr
  · rw [lookup_filter]
    by_cases hs : sid = sid₀
    · -- the stream written leaves the map
      subst hs
      rw [if_pos hkey.symm]
      refine ⟨fun _ _ _ _ => ?_, fun _ hst => nomatch hst⟩
      exact ⟨_, Table.mem_upsert.2 (Or.inl rfl), StateCacheRow.ofStream_iff.2 rfl, rfl, rfl, rfl,
        sc, b, hsc, henc, hcol⟩
    · rw [if_neg fun he => hs (rebuildKey_inj hv hv₀ (he.trans hkey))]
      refine ⟨fun hn hm hsc' hne => ?_, (hstreams sid hv).2⟩
      obtain ⟨r, hr, hof, hrow⟩ := (hstreams sid hv).1 hn hm hsc' hne
      exact ⟨r, Db.mem_upsert_of_ne hr hof (hother sid hv hs _ rfl rfl), hof, hrow⟩

/-- A stream of `R` can be written: its state has been written before. -/
theorem rebuildStream_commits (h₀ : Settled D F R mine s₀)
    (h : Restoring D F R mine tenant s₀ s) {rt : Runtime K S C E} {t key : String}
    {left : List (String × StreamState S)} {written : ℕ} {st : StreamState S} {en : Engine}
    (hen : en.fault .upsertStateCache = none) (hw : s.rebuild = .writing rt t left written)
    (hl : left.lookup key = some st) : (rebuildStream D en rt st s.db).1 = .ok () := by
  obtain ⟨sid, hv, hm, -, hne, -, rfl⟩ := h.entry hw hl
  have ht := h.rebuild
  rw [hw] at ht
  obtain ⟨rfl, -⟩ := ht
  obtain ⟨r, -, -, hrow⟩ := h₀.rows sid hv hm (h.stream_eq sid ▸ hne)
  obtain ⟨sc, bs, hsc, henc, hcol⟩ := hrow.state
  simp [rebuildStream, hsc, Runtime.rebuiltRow, henc, upsertCachedState, upsertStateCache,
    statement, hen, hcol, Except.mapError, bind, Except.bind, pure, Except.pure]

variable [DecidableEq ι]

/-- **Every step of the rebuild brings it on.** -/
theorem step (hR : R.Caches) (hmine : ∀ sid, mine sid → F.Runs sid R)
    (h₀ : Settled D F R mine s₀) (h : Restoring D F R mine tenant s₀ s)
    (hl : RebuildStep R tenant l) (hm : Moves D H s l s') : Restoring D F R mine tenant s₀ s' := by
  have ho : Ordered s' := h.ordered.step (fun en p he => by rw [he] at hl; exact hl.elim) hm
  have ht := h.rebuild
  cases hm with
  | wipeError hidle herr =>
    -- without a fault only the probe of the state's type can fail
    obtain ⟨rfl, rfl, rfl⟩ := hl
    refine ⟨ho, h.events, h.seq, fun ⟨_, url, hurl⟩ => ?_⟩
    rcases herr with ⟨e, he⟩ | hf
    · rw [he] at hurl
      cases hurl
    · exact hf rfl
  | wipe hidle hp =>
    obtain ⟨rfl, rfl, -⟩ := hl
    rw [hidle] at ht
    refine ⟨ho, h.events, h.seq, rfl, rfl, fun sid hv hn r hof => ?_, _, _, .start ho.wf⟩
    have hapart : Apart _ mine s.db :=
      h₀.apart.of_events_eq h.events fun r hr => Or.inl (ht ▸ hr)
    rw [hapart.mem_wipe hp hv hn hof, ht]
  | pageError hs herr =>
    -- without a fault only an event that cannot be read fails a page
    obtain rfl : _ = none := hl
    rw [hs] at ht
    obtain ⟨rfl, rfl, -⟩ := ht
    refine ⟨ho, h.events, h.seq, fun ⟨hread, _⟩ => ?_⟩
    obtain ⟨envs, henvs⟩ := hread.readPage _
    rcases herr with ⟨e, he⟩ | hf
    · rw [henvs] at he
      cases he
    · exact hf rfl
  | page hs hread _ =>
    rw [hs] at ht
    obtain ⟨rfl, rfl, hunt, seen, rest, hsc⟩ := ht
    exact ⟨ho, h.events, h.seq, rfl, rfl, hunt, _, _, hsc.page hread⟩
  | lastPage hs hread => exact ⟨ho, h.events, h.seq, h.restores_lastPage hmine h₀ hs hread⟩
  | upsertError hw hlk herr =>
    -- the state has been written before, by the `Handle` call of the last event
    rw [h.rebuildStream_commits h₀ hl hw hlk] at herr
    cases herr
  | upsert hw hlk hu =>
    have hdb := (rebuildStream_ok hu)
    obtain ⟨_, _, _, _, -, -, -, hdb⟩ := hdb
    exact ⟨ho, by rw [hdb]; exact h.events, by rw [hdb]; exact h.seq,
      h.restores_upsert hR hw hlk hu⟩
  | finish hw =>
    rw [hw] at ht
    obtain ⟨rfl, rfl, hunt, hread, hstreams⟩ := ht
    exact ⟨ho, h.events, h.seq, hunt, hread, fun sid hv => (hstreams sid hv).1 rfl⟩
  | _ => exact hl.elim

end Restoring

/-! ### The rebuild finishes -/

section Finish

variable [DecidableEq ι] {s₀ s : Sys ι κ K S C E} {tenant : String}

variable (ι κ D H R) in
/-- A rebuild with `R` for a tenant, and nothing else. -/
def rebuildSystem (tenant : String) : TS (Sys ι κ K S C E) (Label ι K S C E) :=
  (system D H).restrict fun _ l => RebuildStep R tenant l

/-- The end of a rebuild that has written all streams. -/
theorem exists_run_finish {rt : Runtime K S C E} {t : String} {written : ℕ}
    (hw : s.rebuild = .writing rt t [] written) :
    ∃ ls s' m, (rebuildSystem ι κ D H R tenant).Run s ls s' ∧ s'.rebuild = .returned (.ok m) := by
  have hstep : s.step D H .finish = some { s with rebuild := .returned (.ok written) } := by
    simp [Sys.step, Sys.finish, hw]
  exact ⟨[.finish], _, written, .cons ⟨trivial, hstep⟩ (.done _), rfl⟩

/-- Writing the streams that are left ends; the induction is on a bound of their number. -/
theorem exists_run_writing (hR : R.Caches) (hmine : ∀ sid, mine sid → F.Runs sid R)
    (h₀ : Settled D F R mine s₀) (n : ℕ) (h : Restoring D F R mine tenant s₀ s)
    {rt : Runtime K S C E} {t : String} {left : List (String × StreamState S)} {written : ℕ}
    (hw : s.rebuild = .writing rt t left written) (hn : left.length ≤ n) :
    ∃ ls s' m, (rebuildSystem ι κ D H R tenant).Run s ls s' ∧ s'.rebuild = .returned (.ok m) := by
  induction n generalizing s left written with
  | zero =>
    obtain rfl := List.length_eq_zero_iff.1 (Nat.le_zero.1 hn)
    exact exists_run_finish hw
  | succ n ih =>
    cases left with
    | nil => exact exists_run_finish hw
    | cons x left =>
      have hlk : (x :: left).lookup x.1 = some x.2 := List.lookup_cons_self
      have hok : (rebuildStream D .calm rt x.2 s.db).1 = .ok () :=
        h.rebuildStream_commits h₀ rfl hw hlk
      have hstep : s.step D H (.upsert x.1 .calm) = some { s with
          db := (rebuildStream D .calm rt x.2 s.db).2
          rebuild := .writing rt t ((x :: left).filter fun y => y.1 != x.1) (written + 1) } := by
        simp [Sys.step, Sys.upsert, hw, hlk, hok]
      have hl : RebuildStep R tenant (.upsert x.1 .calm : Label ι K S C E) := rfl
      have hlen : ((x :: left).filter fun y => y.1 != x.1).length ≤ n := by
        rw [List.filter_cons_of_neg (by simp)]
        exact (List.length_filter_le ..).trans (Nat.le_of_succ_le_succ hn)
      obtain ⟨ls, s', m, hrun, hret⟩ :=
        ih (h.step hR hmine h₀ hl (Sys.moves hstep)) rfl hlen
      exact ⟨_, s', m, .cons ⟨hl, hstep⟩ hrun, hret⟩

/-- Reading the pages ends; the induction is on a bound of the events not yet seen. -/
theorem exists_run_scanning (hR : R.Caches) (hmine : ∀ sid, mine sid → F.Runs sid R)
    (h₀ : Settled D F R mine s₀) (n : ℕ) (h : Restoring D F R mine tenant s₀ s)
    (hread : s.db.Readable D tenant) {sc : Scan S} {seen rest : List (EventRow κ)}
    (hs : s.rebuild = .scanning R tenant sc) (hsc : Scanned D R tenant s.db sc seen rest)
    (hn : rest.length ≤ n) :
    ∃ ls s' m, (rebuildSystem ι κ D H R tenant).Run s ls s' ∧ s'.rebuild = .returned (.ok m) := by
  induction n generalizing s sc seen rest with
  | zero =>
    obtain rfl := List.length_eq_zero_iff.1 (Nat.le_zero.1 hn)
    -- the empty page ends the scan
    have hpage : readPage D s.db tenant sc.cursor = .ok [] := by
      rw [readPage_eq_ok, hsc.filter_eq_rest]
      exact .nil
    have hstep : s.step D H (.page none) =
        some { s with rebuild := .writing R tenant sc.streams 0 } := by
      simp [Sys.step, Sys.page, hs, orFault, hpage]
    have hl : RebuildStep R tenant (.page none : Label ι K S C E) := rfl
    obtain ⟨ls, s', m, hrun, hret⟩ := exists_run_writing hR hmine h₀ sc.streams.length
      (h.step hR hmine h₀ hl (Sys.moves hstep)) rfl (Nat.le_refl _)
    exact ⟨_, s', m, .cons ⟨hl, hstep⟩ hrun, hret⟩
  | succ n ih =>
    cases rest with
    | nil => exact ih h hread hs hsc (Nat.zero_le _)
    | cons r rest =>
      obtain ⟨envs, hpage⟩ := hread.readPage sc.cursor
      have hne : envs ≠ [] := by
        rintro rfl
        exact absurd (hsc.last hpage).1 (List.cons_ne_nil _ _)
      obtain ⟨env, envs, rfl⟩ := List.exists_cons_of_ne_nil hne
      have hstep : s.step D H (.page none) = some { s with
          rebuild := .scanning R tenant ((env :: envs).foldl R.scanEvent sc) } := by
        simp [Sys.step, Sys.page, hs, orFault, hpage]
      have hl : RebuildStep R tenant (.page none : Label ι K S C E) := rfl
      -- a page that is not empty takes at least one event off the rest
      have hlen : ((r :: rest).drop pageSize).length ≤ n := by
        rw [List.length_drop]
        have : 1 ≤ pageSize := by decide
        omega
      obtain ⟨ls, s', m, hrun, hret⟩ := ih (h.step hR hmine h₀ hl (Sys.moves hstep)) hread rfl
        (hsc.page hpage) hlen
      exact ⟨_, s', m, .cons ⟨hl, hstep⟩ hrun, hret⟩

/-- A rebuild of a store whose events can be read can be run to its end. -/
theorem exists_run_rebuild (hR : R.Caches) (hmine : ∀ sid, mine sid → F.Runs sid R)
    (h₀ : Settled D F R mine s₀) (hread : s₀.db.Readable D tenant) {url : String}
    (hp : probeTypeURL R = .ok url) :
    ∃ ls s' m, (rebuildSystem ι κ D H R tenant).Run s₀ ls s' ∧ s'.rebuild = .returned (.ok m) := by
  have hstep : s₀.step D H (.wipe R tenant none) = some { s₀ with
      db := wipeStateCacheForType s₀.db tenant url, rebuild := .scanning R tenant ⟨0, []⟩ } := by
    simp [Sys.step, Sys.wipe, h₀.idle, hp]
  have hl : RebuildStep R tenant (.wipe R tenant none : Label ι K S C E) := ⟨rfl, rfl, rfl⟩
  have hwf := h₀.faithful.ordered.wf.wipe tenant url
  obtain ⟨ls, s', m, hrun, hret⟩ := exists_run_scanning hR hmine h₀ _
    ((Restoring.start h₀).step hR hmine h₀ hl (Sys.moves hstep)) hread rfl (.start hwf)
    (Nat.le_refl _)
  exact ⟨_, s', m, .cons ⟨hl, hstep⟩ hrun, hret⟩

end Finish

/-! ### Loads before and after -/

section Load

variable {log : StreamID → List E} {db db₀ : Db κ} {sid : StreamID}

theorem Fleet.Logs.load_eq (h : F.Logs log db) (hwf : db.Wf) (hR : F.Runs sid R)
    (hseed : sid.Valid → (R.seed (getState D db sid)).1 =
      F.fold sid ((log sid).take (R.seed (getState D db sid)).2))
    {envs : List Envelope} (hread : readStream D db sid 0 = .ok envs) (k : K) :
    R.load D db sid k = .ok (F.fold sid (log sid), (db.stream sid).length) k := by
  have htail := (hwf.dense sid).read_after hread (R.seed (getState D db sid)).2
  have hload : R.load D db sid k = R.loadTail sid (R.seed (getState D db sid))
      (readStream D db sid (R.seed (getState D db sid)).2) k := rfl
  rw [hload, htail]
  exact h.loadTail hwf.dense hR (seed_version_le hwf none) hseed htail k

/-- `R` loads from the row a rebuild has written, or does not use it. -/
theorem Restored.seed (hF : F.RoundTrips D) (h : Restored F R D log db sid) (hwf : db.Wf)
    (hlogs : F.Logs log db) (hR : F.Runs sid R) (hv : sid.Valid) :
    (R.seed (getState D db sid)).1 =
      F.fold sid ((log sid).take (R.seed (getState D db sid)).2) := by
  rcases R.seed_cases (getState D db sid) with hs | ⟨sc, row, s, hsc, hg, hpos, -, hdec, hs⟩
  · rw [hs, List.take_zero, hR.decider]
    rfl
  · rw [hs]
    obtain ⟨r, hr, hrv, hst, -⟩ := getState_ok hg
    obtain ⟨hmem, hof⟩ := Db.cachedRow_eq_some hr
    have hne : db.stream sid ≠ [] := by
      intro hnil
      have := hwf.cache_le r hmem sid hof
      rw [hnil, ← hrv] at this
      exact absurd hpos (Nat.not_lt.2 this)
    -- the row is the one the rebuild has written
    obtain ⟨r', hmem', hof', hrow⟩ := h hne
    rw [Db.cachedRow_eq_some_iff.2 ⟨hmem', hof'⟩] at hr
    obtain rfl := Option.some.inj hr
    obtain ⟨sc', bs, hsc', henc, hcol⟩ := hrow.state
    rw [hsc] at hsc'
    obtain rfl := Option.some.inj hsc'
    have hback := hF.state sid R.schema _ bs _ _ (hR.stateCodec sc hsc ▸ henc) hcol
    rw [hst, Option.getD_some, hR.stateCodec sc hsc, hback] at hdec
    rw [hrv, hrow.version, hlogs.length_eq hv, List.take_length]
    exact (Except.ok.inj hdec).symm

theorem load_congr (he : db.events = db₀.events)
    (hc : ∀ r : StateCacheRow κ, r.ofStream sid = true →
      (r ∈ db.stateCache.rows ↔ r ∈ db₀.stateCache.rows)) :
    R.load D db sid = R.load D db₀ sid := by
  have hrow : db.cachedRow sid = db₀.cachedRow sid := by
    refine Option.ext fun r => ?_
    rw [Db.cachedRow_eq_some_iff, Db.cachedRow_eq_some_iff]
    exact ⟨fun ⟨hr, hof⟩ => ⟨(hc r hof).1 hr, hof⟩, fun ⟨hr, hof⟩ => ⟨(hc r hof).2 hr, hof⟩⟩
  have hget : getState D db sid = getState D db₀ sid := by
    unfold getState
    rw [hrow]
  have hread : readStream D db sid = readStream D db₀ sid := by
    funext v
    unfold readStream
    rw [he]
  unfold Runtime.load
  rw [hget, hread]

/-- What `R` loads from a stream after a rebuild is what it loaded before. -/
theorem Restoring.load_eq {mine : StreamID → Prop} {s₀ s₁ : Sys ι κ K S C E} {tenant : String}
    {n : ℕ} (hF : F.RoundTrips D) (hmine : ∀ sid, mine sid → F.Runs sid R)
    (h₀ : Settled D F R mine s₀) (h : Restoring D F R mine tenant s₀ s₁)
    (hret : s₁.rebuild = .returned (.ok n)) (hv : sid.Valid) (hm : mine sid) (k : K) :
    R.load D s₁.db sid k = R.load D s₀.db sid k := by
  have hres := h.rebuild
  rw [hret] at hres
  obtain ⟨hunt, hread, hrest⟩ := hres
  by_cases hscope : sid.InScope tenant
  · -- both loads give the fold of the stream
    obtain ⟨envs, henvs⟩ := hread.readStream (h.ordered.wf.dense sid) hv hscope
    have hlogs : F.Logs (Occ.logOf s₀.commits) s₁.db := fun sid hv => by
      rw [h.stream_eq]
      exact h₀.faithful.logs sid hv
    have henvs₀ : readStream D s₀.db sid 0 = .ok envs := by
      rw [← henvs, readStream, readStream, h.events]
    have hafter := hlogs.load_eq h.ordered.wf (hmine sid hm)
      (fun hv => (hrest sid hv hm hscope).seed hF h.ordered.wf hlogs (hmine sid hm) hv) henvs k
    have hbefore := h₀.faithful.logs.load_eq h₀.faithful.ordered.wf (hmine sid hm)
      (fun hv => h₀.faithful.caches.seed hv (hmine sid hm) none) henvs₀ k
    rw [hafter, hbefore, h.stream_eq]
  · -- a stream out of scope keeps its row
    rw [load_congr h.events (hunt sid hv fun hg => hscope hg.2)]

end Load

/-! ### The theorem -/

variable [DecidableEq ι] {s₀ : Sys ι κ K S C E}

variable (ι κ D H F R mine) in
/-- The histories of `Handle` calls, on the streams `mine` by `R`. -/
def handledSystem : TS (Sys ι κ K S C E) (Label ι K S C E) :=
  (system D H).restrict fun _ l => HandledStep F R mine l

theorem Settled.of_reachable (hF : F.RoundTrips D) (hR : R.Caches)
    (h : (handledSystem ι κ D H F R mine).Reachable s₀) : Settled D F R mine s₀ := by
  induction h with
  | init h₀ =>
    obtain ⟨k, rfl⟩ := h₀
    exact .start k
  | step _ hstep ih => exact ih.step hF hR hstep.1 (Sys.moves hstep.2)

/-- **A rebuild of a quiescent store.**  After a history of `Handle` calls by runtimes without
shredders whose codecs read back what they wrote, on the streams `mine` by `R`:

* a rebuild with `R` that has returned without an error leaves, for every stream of `R` in its
  scope, a row with the type, state, version and terminal flag of the row `R`'s last `Handle` call
  wrote, and with its schema version iff that is 1; and what `R` loads from its streams is the same
  before and after;
* if the events can be read and the initial state encodes, the rebuild can be run to its end, and
  it never returns an error. -/
theorem rebuild_quiet (hF : F.RoundTrips D) (hR : R.Caches)
    (hmine : ∀ sid, mine sid → F.Runs sid R)
    (h : (handledSystem ι κ D H F R mine).Reachable s₀) (tenant : String) :
    (∀ ls s₁ n, (rebuildSystem ι κ D H R tenant).Run s₀ ls s₁ → s₁.rebuild = .returned (.ok n) →
        ∀ sid : StreamID, sid.Valid → mine sid →
          (sid.InScope tenant → s₀.db.stream sid ≠ [] →
            ∃ r₀ r₁, s₀.db.cachedRow sid = some r₀ ∧ s₁.db.cachedRow sid = some r₁ ∧
              r₁.typeURL = r₀.typeURL ∧ r₁.state = r₀.state ∧ r₁.version = r₀.version ∧
              r₁.terminal = r₀.terminal ∧
              (r₁.stateSchemaVersion = r₀.stateSchemaVersion ↔ R.schema = 1)) ∧
          ∀ k, R.load D s₁.db sid k = R.load D s₀.db sid k) ∧
      (s₀.db.Readable D tenant → (∃ url, probeTypeURL R = .ok url) →
        (∃ ls s₁ n, (rebuildSystem ι κ D H R tenant).Run s₀ ls s₁ ∧
            s₁.rebuild = .returned (.ok n)) ∧
          ∀ ls s₁ res, (rebuildSystem ι κ D H R tenant).Run s₀ ls s₁ →
            s₁.rebuild = .returned res → ∃ n, res = .ok n) := by
  have h₀ := Settled.of_reachable hF hR h
  have hrun : ∀ ls s₁, (rebuildSystem ι κ D H R tenant).Run s₀ ls s₁ →
      Restoring D F R mine tenant s₀ s₁ := fun ls s₁ hr =>
    hr.invariant (Restoring.start h₀) fun s l s' hs hst =>
      hs.step hR hmine h₀ hst.1 (Sys.moves hst.2)
  constructor
  · intro ls s₁ n hr hret sid hv hm
    have hs := hrun ls s₁ hr
    have hres := hs.rebuild
    rw [hret] at hres
    obtain ⟨-, -, hrest⟩ := hres
    constructor
    · intro hscope hne
      obtain ⟨r₀, hr₀, hof₀, hrow₀⟩ := h₀.rows sid hv hm hne
      obtain ⟨r₁, hr₁, hof₁, hrow₁⟩ := hrest sid hv hm hscope (hs.stream_eq sid ▸ hne)
      rw [hs.stream_eq] at hrow₁
      exact ⟨r₀, r₁, Db.cachedRow_eq_some_iff.2 ⟨hr₀, hof₀⟩, Db.cachedRow_eq_some_iff.2 ⟨hr₁, hof₁⟩,
        hrow₀.same hrow₁⟩
    · intro k
      exact hs.load_eq hF hmine h₀ hret hv hm k
  · rintro hread ⟨url, hurl⟩
    refine ⟨exists_run_rebuild hR hmine h₀ hread hurl, fun ls s₁ res hr hret => ?_⟩
    have hs := hrun ls s₁ hr
    have hres := hs.rebuild
    rw [hret] at hres
    cases res with
    | ok n => exact ⟨n, rfl⟩
    | error e =>
      have hread₁ : s₁.db.Readable D tenant := fun r hr' => by
        rw [Db.scope, hs.events] at hr'
        exact hread r hr'
      exact absurd ⟨hread₁, url, hurl⟩ hres

/-! ### Rebuilds of a journal -/

/-- One `Handle` call of `R` after the other. -/
def Journal.handles (R : Runtime Unit (List UInt8) (List UInt8) UInt8) (notes : List (List UInt8)) :
    List Journal.Step :=
  (notes.zipIdx.map fun (ns, i) =>
    handle i { call Unit true 1 ns with runtime := R } (toString i ++ "/")).flatten

/-- A journal of two calls is rebuilt. -/
theorem rebuild_quiet_journal : ∃ (s₀ s₁ : Journal.Store) (r₀ r₁ : StateCacheRow _),
    (handledSystem ℕ _ (Sqlite.dialect .small) .small Fleet.journal (Journal.runtime Unit true 1)
        fun _ => True).Reachable s₀ ∧
      (∃ ls n, (rebuildSystem ℕ _ (Sqlite.dialect .small) .small (Journal.runtime Unit true 1)
        "acme").Run s₀ ls s₁ ∧ s₁.rebuild = .returned (.ok n)) ∧
      s₀.db.cachedRow ⟨"acme", "journal", "1"⟩ = some r₀ ∧
      s₁.db.cachedRow ⟨"acme", "journal", "1"⟩ = some r₁ ∧ r₁.state = r₀.state ∧
      r₁.version = r₀.version ∧ r₁.stateSchemaVersion = r₀.stateSchemaVersion := by
  let D := Sqlite.dialect .small
  let R := Journal.runtime Unit true 1
  let sid : StreamID := ⟨"acme", "journal", "1"⟩
  let ls := Journal.handles R [[5, 6], [0]]
  have hend : (TS.exec (Sys.step D .small) (Sys.start (ι := ℕ) ()) ls).map (fun s =>
      ((s.db.scope "acme").all fun r => (rowToEnvelope D r).isOk, (s.db.stream sid).isEmpty)) =
        some (true, false) := by decide +kernel
  obtain ⟨s₀, hs₀, he⟩ := Option.map_eq_some_iff.1 hend
  obtain ⟨hread, hne⟩ := Prod.mk.inj he
  have hls : ∀ l ∈ ls, HandledStep Fleet.journal R (fun _ => True) l := by
    have hb : ∀ notes, Call.Before Fleet.journal R (fun _ => True)
        (Journal.call Unit true 1 notes) := fun notes =>
      ⟨Fleet.journal_runs true 1 _, Journal.beside true 1 1 _, fun _ => rfl⟩
    simp only [ls, Journal.handles, Journal.handle, Journal.upToAppend, List.zipIdx_cons,
      List.zipIdx_nil, List.map_cons, List.map_nil, List.flatten_cons, List.flatten_nil]
    simp [HandledStep]
    exact ⟨hb _, hb _⟩
  have hr : (handledSystem ℕ _ D .small Fleet.journal R fun _ => True).Reachable s₀ :=
    TS.Reachable.exec (.init ⟨(), rfl⟩) (fun l hl _ _ h => ⟨hls l hl, h⟩) hs₀
  have h := rebuild_quiet Fleet.journal_roundTrips (Journal.caches 1)
    (fun sid _ => Fleet.journal_runs true 1 sid) hr "acme"
  have hreadable : s₀.db.Readable D "acme" := fun r hmem => by
    have := List.all_eq_true.1 hread r hmem
    cases hrow : rowToEnvelope D r with
    | error e => rw [hrow] at this; cases this
    | ok env => exact ⟨env, rfl⟩
  obtain ⟨ls', s₁, n, hrun, hret⟩ := (h.2 hreadable ⟨_, rfl⟩).1
  obtain ⟨r₀, r₁, h₀, h₁, -, hstate, hver, -, hschema⟩ :=
    (h.1 ls' s₁ n hrun hret sid (by decide) trivial).1 (Or.inr rfl) (by simpa using hne)
  exact ⟨s₀, s₁, r₀, r₁, hr, ⟨ls', n, hrun, hret⟩, h₀, h₁, hstate, hver, hschema.2 rfl⟩

/-- What the cached row of the journal holds. -/
def Journal.row (s : Journal.Store) : Option (ℕ × Bytes × ℤ) :=
  (s.db.cachedRow ⟨"acme", "journal", "1"⟩).map fun r => (r.version, r.state, r.stateSchemaVersion)

/-- Calls of `R` leave the first row, a rebuild with `R` then the second, and it reports no
error. -/
def Journal.Rebuilds (R : Runtime Unit (List UInt8) (List UInt8) UInt8) (notes : List (List UInt8))
    (row₀ row₁ : ℕ × Bytes × ℤ) : Prop :=
  ∃ s₀ s₁ : Journal.Store, ∃ n,
    TS.exec (Sys.step (Sqlite.dialect .small) .small) (Sys.start ()) (handles R notes) = some s₀ ∧
      TS.exec (Sys.step (Sqlite.dialect .small) .small) s₀ [.wipe R "" none, .page none,
        .page none, .upsert "acme|journal:1" .calm, .finish] = some s₁ ∧
      s₁.rebuild = .returned (.ok n) ∧ row s₀ = some row₀ ∧ row s₁ = some row₁

/-- The two rows, when the rebuild returns without an error. -/
def Journal.rebuildRows (R : Runtime Unit (List UInt8) (List UInt8) UInt8)
    (notes : List (List UInt8)) : Option (List (Option (ℕ × Bytes × ℤ))) :=
  (TS.exec (Sys.step (Sqlite.dialect .small) .small) (Sys.start (ι := ℕ) ())
      (handles R notes)).bind fun s₀ =>
    (TS.exec (Sys.step (Sqlite.dialect .small) .small) s₀ [.wipe R "" none, .page none, .page none,
        .upsert "acme|journal:1" .calm, .finish]).bind fun s₁ =>
      match s₁.rebuild with
      | .returned (.ok _) => some [row s₀, row s₁]
      | _ => none

theorem Journal.rebuilds_of_rebuildRows {R : Runtime Unit (List UInt8) (List UInt8) UInt8}
    {notes : List (List UInt8)} {row₀ row₁ : ℕ × Bytes × ℤ}
    (h : rebuildRows R notes = some [some row₀, some row₁]) : Rebuilds R notes row₀ row₁ := by
  obtain ⟨s₀, hs₀, h⟩ := Option.bind_eq_some_iff.1 h
  obtain ⟨s₁, hs₁, h⟩ := Option.bind_eq_some_iff.1 h
  split at h
  · rename_i n hn
    obtain ⟨h₀, h₁⟩ := List.cons.inj (Option.some.inj h)
    exact ⟨s₀, s₁, n, hs₀, hs₁, hn, h₀, (List.cons.inj h₁).1⟩
  · cases h

/-- A codec that can no longer decode the note 9. -/
def Journal.forgetful : Codec UInt8 where
  encode := codec.encode
  decode typeURL v payload :=
    if payload = [9] then .error (.text "unknown note") else codec.decode typeURL v payload

/-- A shredder that encrypts a note by inverting its bits. -/
def Journal.inverting : Shredder Unit UInt8 where
  subject _ := some "alice"
  encryptPII _ _ n := pure (n ^^^ 255)
  decryptPII _ _ n := pure (n ^^^ 255)

/-- **A rebuild writes other rows than `Handle`, and reports no error**: under schema version 2 the
row says 1; an event that cannot be decoded is left out of the state; and with a shredder the
state is the fold of the ciphertext. -/
theorem rebuild_quiet_differs :
    Journal.Rebuilds (Journal.runtime Unit true 2) [[5]] (1, [2, 5], 2) (1, [2, 5], 1) ∧
      Journal.Rebuilds { Journal.runtime Unit true 1 with codec := Journal.forgetful }
        [[5], [9, 6]] (3, [1, 5, 9, 6], 1) (3, [1, 5, 6], 1) ∧
      Journal.Rebuilds { Journal.runtime Unit true 1 with shredder := some Journal.inverting }
        [[5]] (1, [1, 5], 1) (1, [1, 250], 1) :=
  ⟨Journal.rebuilds_of_rebuildRows (by decide +kernel),
    Journal.rebuilds_of_rebuildRows (by decide +kernel),
    Journal.rebuilds_of_rebuildRows (by decide +kernel)⟩

end EventStore
