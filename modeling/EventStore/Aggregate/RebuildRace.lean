import EventStore.Aggregate.Scan
import EventStore.Aggregate.Serial

/-!
# A rebuild among `Handle` calls

`RebuildStateCache` while runtimes that cache their states go on appending.  An append made while
the rebuild reads pages is seen by a later page.  An append to a stream that the rebuild has read
and not yet written is not: the rebuild then replaces the row of the append by the one it computed
before (`rebuild_race_stale`), since `UpsertStateCache` does not compare versions.

That is the only way a row is left behind:

* `rebuild_race` : **in every run in which no batch is committed to a stream that a rebuild has
  read and not yet written**, no row is ever replaced by one of a lower version, and once the
  rebuild has returned every stream has its cached state at its head.

The rebuild is one with the runtime `R`; `mine` are the streams of its aggregate, whose events its
codec can decode.
-/

namespace EventStore

variable {ι K S C E : Type} {κ : Columns} {D : Dialect κ} {H : Hasher}

/-! ### Cached states at the head of their streams -/

namespace Db

variable {db db' : Db κ} {sid : StreamID}

/-- The stream is empty, or its cached state is at its head. -/
def Fresh (db : Db κ) (sid : StreamID) : Prop :=
  db.stream sid ≠ [] → ∃ r ∈ db.stateCache.rows, r.ofStream sid = true ∧
    r.version = (db.stream sid).length

theorem Fresh.of_rows (h : db.Fresh sid) (hs : db'.stream sid = db.stream sid)
    (hr : ∀ r ∈ db.stateCache.rows, r.ofStream sid = true → r ∈ db'.stateCache.rows) :
    db'.Fresh sid := by
  intro hne
  rw [hs] at hne ⊢
  obtain ⟨r, hmem, hof, hv⟩ := h hne
  exact ⟨r, hr r hmem hof, hof, hv⟩

end Db

namespace Appended

variable {en : Engine} {p : AppendParams} {db db' : Db κ} {rows : List (EventRow κ)}
  {sid : StreamID}

/-- An append at the head of a stream leaves the state it caches at the head. -/
theorem fresh (h : Appended D H en p db db' rows)
    (hexp : p.expectedVersion = (db.stream p.streamID).length) (hb : p.newStateBytes ≠ none)
    (hk : sid.key = p.streamID.key) : db'.Fresh sid := by
  intro _
  rcases h.stateCache with ⟨-, hn⟩ | ⟨b, s, -, -, hsc⟩
  · exact absurd hn hb
  · refine ⟨stateCacheRow D en p s, ?_, StateCacheRow.ofStream_iff.2 hk, ?_⟩
    · rw [hsc]
      exact Table.mem_upsert.2 (Or.inl rfl)
    · rw [h.stream_key hk, List.length_append, Db.stream_congr hk, ← hexp, h.written.length_eq]
      rfl

theorem fresh_ne (h : Appended D H en p db db' rows) (hk : sid.key ≠ p.streamID.key)
    (hf : db.Fresh sid) : db'.Fresh sid := by
  refine hf.of_rows (h.stream_ne hk) fun r hr hof => ?_
  rcases h.stateCache with ⟨hsc, -⟩ | ⟨b, s, -, -, hsc⟩
  · exact hsc ▸ hr
  · rw [hsc]
    exact Db.mem_upsert_of_ne hr hof fun hof' => hk (StateCacheRow.ofStream_iff.1 hof')

end Appended

/-! ### The steps -/

variable {R : Runtime K S C E} {mine : StreamID → Prop}

/-- A call of a caching runtime beside `R`. -/
def Call.Caching (R : Runtime K S C E) (mine : StreamID → Prop) (c : Call K S C E) : Prop :=
  Beside R mine c.sid c.runtime ∧ c.runtime.Caches

/-- The steps: `Handle` calls of caching runtimes, changes of the keys, and a rebuild with `R`. -/
def RaceStep (R : Runtime K S C E) (mine : StreamID → Prop) : Label ι K S C E → Prop
  | .begin _ c => c.Caching R mine
  | .wipe rt _ _ => rt = R
  | .direct .. => False
  | _ => True

/-- The rebuild has read the stream and not yet written its row. -/
def Sys.Pending (s : Sys ι κ K S C E) (sid : StreamID) : Prop :=
  ∃ rt tenant left written, s.rebuild = .writing rt tenant left written ∧
    left.lookup (rebuildKey sid.tenant sid.canonical) ≠ none

variable (D H) in
/-- The step does not commit a batch to a stream the rebuild has read and not yet written. -/
def Undisturbed (s : Sys ι κ K S C E) (l : Label ι K S C E) : Prop :=
  ∀ i en c evts p, l = .append i en → s.procs i = .decided c evts p → s.Pending c.sid →
    ∃ e db', append D H en p s.db = (.error e, db')

/-! ### The invariant -/

variable (D R mine) in
/-- Which streams have their cached state at the head, by the state of the rebuild. -/
def Rebuild.Tracks (db : Db κ) : Rebuild K S C E → Prop
  | .idle => ∀ sid : StreamID, sid.Valid → db.Fresh sid
  | .scanning rt tenant sc => rt = R ∧ (∃ seen rest, Scanned D R tenant db sc seen rest) ∧
      ∀ sid : StreamID, sid.Valid → ¬ (mine sid ∧ sid.InScope tenant) →
        db.Fresh sid
  | .writing _ _ left _ => ∀ sid : StreamID, sid.Valid →
      (left.lookup (rebuildKey sid.tenant sid.canonical) = none → db.Fresh sid) ∧
      ∀ st, left.lookup (rebuildKey sid.tenant sid.canonical) = some st →
        mine sid ∧ st.streamID = sid ∧ st.version = (db.stream sid).length
  | .returned (.ok _) => ∀ sid : StreamID, sid.Valid → db.Fresh sid
  | .returned (.error _) => True

variable (D R mine) in
/-- The invariant of the race. -/
structure Race (s : Sys ι κ K S C E) : Prop where
  ordered : Ordered s
  apart : Apart R mine s.db
  procs : ∀ i, (s.procs i).Of (Call.Caching R mine)
  rebuild : s.rebuild.Tracks D R mine s.db

namespace Rebuild.Tracks

variable {db db' : Db κ} {rb : Rebuild K S C E}

/-- A change of the tables that leaves cached states at the head and the pending streams as they
are. -/
theorem mono (h : rb.Tracks D R mine db) (hfresh : ∀ sid, db.Fresh sid → db'.Fresh sid)
    (hscan : ∀ tenant sc seen rest, Scanned D R tenant db sc seen rest →
      ∃ rest', Scanned D R tenant db' sc seen rest')
    (hpend : ∀ rt tenant left written, rb = .writing rt tenant left written →
      ∀ sid : StreamID, sid.Valid →
        left.lookup (rebuildKey sid.tenant sid.canonical) ≠ none →
          db'.stream sid = db.stream sid) : rb.Tracks D R mine db' := by
  cases rb with
  | idle => exact fun sid hv => hfresh sid (h sid hv)
  | scanning rt tenant sc =>
    obtain ⟨hrt, ⟨seen, rest, hsc⟩, hf⟩ := h
    obtain ⟨rest', hsc'⟩ := hscan tenant sc seen rest hsc
    exact ⟨hrt, ⟨seen, rest', hsc'⟩, fun sid hv hn => hfresh sid (hf sid hv hn)⟩
  | writing rt tenant left written =>
    -- what was read of a pending stream is still all of it
    intro sid hv
    refine ⟨fun hn => hfresh sid ((h sid hv).1 hn), fun st hst => ?_⟩
    rw [hpend _ _ _ _ rfl sid hv (by simp [hst])]
    exact (h sid hv).2 st hst
  | returned res =>
    cases res with
    | error e => trivial
    | ok n => exact fun sid hv => hfresh sid (h sid hv)

theorem sameTables (h : rb.Tracks D R mine db) (hs : db.SameTables db') (hq : db.seq ≤ db'.seq) :
    rb.Tracks D R mine db' := by
  refine h.mono (fun sid hf => ?_) (fun tenant sc seen rest hsc => ?_)
    fun _ _ _ _ _ sid _ _ => hs.stream_eq sid
  · exact hf.of_rows (hs.stream_eq sid) fun r hr _ => hs.2.2.2 ▸ hr
  · exact ⟨rest, hsc.of_events_eq hs.1 hq⟩

/-- A batch committed to a stream that is not pending. -/
theorem commit {en : Engine} {p : AppendParams} {rows : List (EventRow κ)}
    (h : rb.Tracks D R mine db) (ha : Appended D H en p db db' rows)
    (hexp : p.expectedVersion = (db.stream p.streamID).length) (hb : p.newStateBytes ≠ none)
    (hpend : ∀ rt tenant left written, rb = .writing rt tenant left written →
      left.lookup (rebuildKey p.streamID.tenant p.streamID.canonical) = none) :
    rb.Tracks D R mine db' := by
  refine h.mono (fun sid hf => ?_) (fun tenant sc seen rest hsc => ⟨_, hsc.appended ha⟩)
    fun rt tenant left written hw sid hv hne => ?_
  · by_cases hk : sid.key = p.streamID.key
    · exact ha.fresh hexp hb hk
    · exact ha.fresh_ne hk hf
  · -- a pending stream is not the one committed to
    apply ha.stream_ne
    intro hk
    obtain rfl := StreamID.eq_of_key_eq hv ha.valid hk
    exact hne (hpend rt tenant left written hw)

end Rebuild.Tracks

namespace Race

variable {s s' : Sys ι κ K S C E} {l : Label ι K S C E}

theorem start (k : K) : Race D R mine (Sys.start k : Sys ι κ K S C E) where
  ordered := .start k
  apart := .empty
  procs _ := trivial
  rebuild _ _ hne := absurd rfl hne

/-- The stream of an entry that is written: its own, at the head. -/
theorem pending_entry (h : Race D R mine s) {rt : Runtime K S C E} {tenant key : String}
    {left : List (String × StreamState S)} {written : ℕ} {st : StreamState S}
    (hw : s.rebuild = .writing rt tenant left written) (hl : left.lookup key = some st) :
    st.streamID.Valid ∧ key = rebuildKey st.streamID.tenant st.streamID.canonical ∧
      mine st.streamID ∧ st.version = (s.db.stream st.streamID).length := by
  have hb := h.ordered.rebuild
  have ht := h.rebuild
  rw [hw] at hb ht
  obtain ⟨hv, hk, -⟩ := hb _ (mem_of_lookup hl)
  obtain ⟨hm, -, hver⟩ := (ht _ hv).2 st (hk ▸ hl)
  exact ⟨hv, hk, hm, hver⟩

theorem apart_writes (h : Race D R mine s) (hl : RaceStep R mine l) (hw : s.Writes D H l s') :
    Apart R mine s'.db := by
  cases hw with
  | quiet hs => exact h.apart.of_events_eq hs.1 fun r hr => Or.inl (hs.2.2.2 ▸ hr)
  | append _ hp _ ha =>
    obtain ⟨hsid, -, hc, _, hd⟩ := h.ordered.of_decided h.procs hp ha
    rw [← hsid] at hd
    exact h.apart.appended ha (hsid ▸ hc.1) hd
  | direct he => rw [he] at hl; exact hl.elim
  | wipe _ _ hdb =>
    rw [hdb]
    exact h.apart.of_events_eq rfl fun r hr => Or.inl (List.mem_filter.1 hr).1
  | upsert _ hwr hlk hu =>
    obtain ⟨hv, -, hm, -⟩ := h.pending_entry hwr hlk
    obtain ⟨_, _, _, _, -, -, -, hdb⟩ := rebuildStream_ok hu
    rw [hdb]
    refine h.apart.of_events_eq rfl fun r hr => ?_
    rcases Table.mem_upsert.1 hr with rfl | ⟨hr, -⟩
    · exact Or.inr ⟨_, hv, hm, StateCacheRow.ofStream_iff.2 rfl⟩
    · exact Or.inl hr

/-- The streams whose rows are not wiped keep them. -/
theorem tracks_wipe (h : Race D R mine s) {tenant typeURL : String} (hidle : s.rebuild = .idle)
    (hp : probeTypeURL R = .ok typeURL) :
    (Rebuild.scanning R tenant ⟨0, []⟩ : Rebuild K S C E).Tracks D R mine
      (wipeStateCacheForType s.db tenant typeURL) := by
  have ht := h.rebuild
  rw [hidle] at ht
  refine ⟨rfl, ⟨_, _, .start (h.ordered.wf.wipe tenant typeURL)⟩, fun sid hv hn => ?_⟩
  exact (ht sid hv).of_rows rfl fun r hr hof => (h.apart.mem_wipe hp hv hn hof).2 hr

/-- After the last page, the streams that are not in the map have their row at the head, and those
that are in it were read up to the head. -/
theorem tracks_lastPage (h : Race D R mine s) {rt : Runtime K S C E} {tenant : String} {sc : Scan S}
    (hs : s.rebuild = .scanning rt tenant sc) (hread : readPage D s.db tenant sc.cursor = .ok []) :
    (Rebuild.writing rt tenant sc.streams 0 : Rebuild K S C E).Tracks D R mine s.db := by
  have ht := h.rebuild
  rw [hs] at ht
  obtain ⟨rfl, ⟨seen, rest, hsc⟩, hfresh⟩ := ht
  obtain ⟨-, rfl⟩ := hsc.last hread
  intro sid hv
  rw [hsc.covers sid hv]
  by_cases hin : mine sid ∧ sid.InScope tenant
  · -- all events of the stream decode, so the map holds it at its last version
    have hver := rt.rebuilt_version fun r (hr : r ∈ s.db.stream sid) =>
      (h.apart.reads sid hv r hr).2 hin.1
    rw [Db.filter_scope hin.2]
    have hlast := (h.ordered.wf.dense sid).getLast?_drop (Nat.zero_le _)
    rw [List.drop_zero, List.getLast?_map] at hlast
    constructor
    · intro hn
      rw [Option.map_eq_none_iff] at hn
      rw [hn, Option.map_none, eq_comm, Option.map_eq_none_iff, List.getLast?_eq_none_iff] at hver
      exact fun hne => absurd hver hne
    · intro st hst
      obtain ⟨x, hx, rfl⟩ := Option.map_eq_some_iff.1 hst
      rw [hx] at hver
      rw [← hver] at hlast
      exact ⟨hin.1, rfl, hlast⟩
  · -- nothing of the stream was decoded
    rw [h.apart.rebuilt_eq_none hv hin]
    exact ⟨fun _ => hfresh sid hv hin, fun st hst => by cases hst⟩

/-- Writing a stream that was read up to the head brings its row to the head. -/
theorem tracks_upsert (h : Race D R mine s) {rt : Runtime K S C E} {tenant key : String}
    {left : List (String × StreamState S)} {written : ℕ} {st : StreamState S} {en : Engine}
    {db' : Db κ} (hw : s.rebuild = .writing rt tenant left written)
    (hl : left.lookup key = some st) (hu : rebuildStream D en rt st s.db = (.ok (), db')) :
    (Rebuild.writing rt tenant (left.filter fun x => x.1 != key) (written + 1) :
      Rebuild K S C E).Tracks D R mine db' := by
  obtain ⟨hv₀, hkey, -, hver⟩ := h.pending_entry hw hl
  have ht := h.rebuild
  rw [hw] at ht
  obtain ⟨_, _, tu, col, -, -, -, rfl⟩ := rebuildStream_ok hu
  intro sid hv
  rw [lookup_filter]
  by_cases hs : sid = st.streamID
  · -- the row written carries the version read, which is the head
    subst hs
    rw [if_pos hkey.symm]
    refine ⟨fun _ _ => ?_, fun _ hst => by cases hst⟩
    exact ⟨rebuiltCacheRow D en rt st tu col, Table.mem_upsert.2 (Or.inl rfl),
      StateCacheRow.ofStream_iff.2 rfl, hver⟩
  · rw [if_neg fun he => hs (rebuildKey_inj hv hv₀ (he.trans hkey))]
    refine ⟨fun hn => ((ht sid hv).1 hn).of_rows rfl fun r hr hof => ?_, (ht sid hv).2⟩
    exact Db.mem_upsert_of_ne hr hof fun hof' =>
      hs (StreamID.eq_of_key_eq hv hv₀ (StateCacheRow.ofStream_iff.1 hof'))

variable [DecidableEq ι]

theorem rebuild_moves (h : Race D R mine s) (hl : RaceStep R mine l) (hun : Undisturbed D H s l)
    (hm : Moves D H s l s') : s'.rebuild.Tracks D R mine s'.db := by
  cases hm with
  | @append i c evts p en r db' hp ha =>
    obtain ⟨rows, happ⟩ := append_ok ha
    obtain ⟨hsid, hexp, hc, _, hd⟩ := h.ordered.of_decided h.procs hp happ
    refine h.rebuild.commit happ hexp (hc.2.newStateBytes hd) fun rt tenant left written hw => ?_
    -- the stream of a batch that commits is not pending
    by_contra hne
    obtain ⟨e, db₁, he⟩ := hun i en c evts p rfl hp ⟨rt, tenant, left, written, hw, hsid ▸ hne⟩
    rw [ha] at he
    cases he
  | appendError _ ha => exact h.rebuild.sameTables (append_error ha) (append_error_seq ha)
  | direct => exact hl.elim
  | wipeError => trivial
  | pageError => trivial
  | upsertError => trivial
  | wipe hidle hp =>
    obtain rfl : _ = R := hl
    exact h.tracks_wipe hidle hp
  | page hs hread _ =>
    have ht := h.rebuild
    rw [hs] at ht
    obtain ⟨rfl, ⟨seen, rest, hsc⟩, hfresh⟩ := ht
    exact ⟨rfl, ⟨_, _, hsc.page hread⟩, hfresh⟩
  | lastPage hs hread => exact h.tracks_lastPage hs hread
  | upsert hw hlk hu => exact h.tracks_upsert hw hlk hu
  | finish hw =>
    have ht := h.rebuild
    rw [hw] at ht
    exact fun sid hv => (ht sid hv).1 rfl
  | _ => exact h.rebuild

/-- **Every step keeps the invariant**, if it commits nothing to a pending stream. -/
theorem step (h : Race D R mine s) (hl : RaceStep R mine l) (hun : Undisturbed D H s l)
    (hm : Moves D H s l s') : Race D R mine s' where
  ordered := h.ordered.step (fun en p he => by rw [he] at hl; exact hl.elim) hm
  apart := h.apart_writes hl hm.writes
  procs i := by
    rcases hm.proc i with he | hn
    · exact he ▸ h.procs i
    · exact hn.of (fun i c he => by rw [he] at hl; exact hl) (h.procs i)
  rebuild := h.rebuild_moves hl hun hm

omit [DecidableEq ι] in
/-- No step replaces a row by one of a lower version. -/
theorem version_le (h : Race D R mine s) (hl : RaceStep R mine l) (hw : s.Writes D H l s')
    {r r' : StateCacheRow κ} (hr : r ∈ s.db.stateCache.rows) (hr' : r' ∈ s'.db.stateCache.rows)
    {sid : StreamID} (hof : r.ofStream sid = true) (hof' : r'.ofStream sid = true) :
    r.version ≤ r'.version := by
  have hle := h.ordered.wf.cache_le r hr sid hof
  have same : r' ∈ s.db.stateCache.rows → r.version ≤ r'.version := fun hr' => by
    have h₁ := Db.cachedRow_eq_some_iff.2 ⟨hr, hof⟩
    rw [Db.cachedRow_eq_some_iff.2 ⟨hr', hof'⟩] at h₁
    rw [Option.some.inj h₁]
  cases hw with
  | quiet hs => exact same (hs.2.2.2 ▸ hr')
  | append _ hp _ ha =>
    obtain ⟨hsid, hexp, -⟩ := h.ordered.of_decided h.procs hp ha
    rcases ha.stateCache with ⟨hsc, -⟩ | ⟨b, col, -, -, hsc⟩
    · exact same (hsc ▸ hr')
    · rw [hsc] at hr'
      rcases Table.mem_upsert.1 hr' with rfl | ⟨hr', -⟩
      · rw [Db.stream_congr (StateCacheRow.ofStream_iff.1 hof'), ← hexp] at hle
        exact hle.trans (Nat.le_add_right ..)
      · exact same hr'
  | direct he => rw [he] at hl; exact hl.elim
  | wipe _ _ hdb =>
    rw [hdb] at hr'
    exact same (List.mem_filter.1 hr').1
  | upsert _ hwr hlk hu =>
    obtain ⟨-, -, -, hver⟩ := h.pending_entry hwr hlk
    obtain ⟨_, _, _, _, -, -, -, hdb⟩ := rebuildStream_ok hu
    rw [hdb] at hr'
    rcases Table.mem_upsert.1 hr' with rfl | ⟨hr', -⟩
    · rw [Db.stream_congr (StateCacheRow.ofStream_iff.1 hof')] at hle
      exact hle.trans (Nat.le_of_eq hver.symm)
    · exact same hr'

end Race

variable [DecidableEq ι] {s : Sys ι κ K S C E}

variable (ι κ D H R mine) in
/-- The runs of a rebuild with `R` among `Handle` calls, in which no batch is committed to a
stream the rebuild has read and not yet written. -/
def raceSystem : TS (Sys ι κ K S C E) (Label ι K S C E) :=
  (system D H).restrict fun s l => RaceStep R mine l ∧ Undisturbed D H s l

/-- **A rebuild among `Handle` calls.**  In every run in which no batch is committed to a stream
the rebuild has read and not yet written: once the rebuild has returned, the cached state of every
stream is at the head of the stream, and no step replaces a row by one of a lower version. -/
theorem rebuild_race (h : (raceSystem ι κ D H R mine).Reachable s) :
    (∀ n, s.rebuild = .returned (.ok n) → ∀ sid : StreamID, sid.Valid → s.db.stream sid ≠ [] →
        ∃ r, s.db.cachedRow sid = some r ∧ r.version = s.db.currentStreamVersion sid) ∧
      ∀ l s', (raceSystem ι κ D H R mine).step s l s' →
        ∀ sid r r', s.db.cachedRow sid = some r → s'.db.cachedRow sid = some r' →
          r.version ≤ r'.version := by
  have hinv : Race D R mine s := by
    induction h with
    | init h₀ =>
      obtain ⟨k, rfl⟩ := h₀
      exact .start k
    | step _ hstep ih => exact ih.step hstep.1.1 hstep.1.2 (Sys.moves hstep.2)
  refine ⟨fun n hn sid hv hne => ?_, fun l s' hstep sid r r' hr hr' => ?_⟩
  · have ht := hinv.rebuild
    rw [hn] at ht
    obtain ⟨r, hr, hof, hver⟩ := ht sid hv hne
    rw [(hinv.ordered.wf.dense sid).currentStreamVersion_eq]
    exact ⟨r, Db.cachedRow_eq_some_iff.2 ⟨hr, hof⟩, hver⟩
  · obtain ⟨hr, hof⟩ := Db.cachedRow_eq_some hr
    obtain ⟨hr', hof'⟩ := Db.cachedRow_eq_some hr'
    exact hinv.version_le hstep.1.1 (Sys.moves hstep.2).writes hr hr' hof hof'

/-! ### An undisturbed and a disturbed rebuild -/

/-- The step is not an append to a pending stream. -/
def Sys.leavesPending (s : Sys ι κ K S C E) : Label ι K S C E → Bool
  | .append i _ =>
    match s.procs i, s.rebuild with
    | .decided c _ _, .writing _ _ left _ =>
      (left.lookup (rebuildKey c.sid.tenant c.sid.canonical)).isNone
    | _, _ => true
  | _ => true

omit [DecidableEq ι] in
theorem Sys.leavesPending.undisturbed {l : Label ι K S C E} (h : s.leavesPending l = true) :
    Undisturbed D H s l := by
  rintro i en c evts p rfl hp ⟨rt, tenant, left, written, hw, hne⟩
  rw [Sys.leavesPending, hp, hw] at h
  exact absurd (Option.isNone_iff_eq_none.1 h) hne

theorem Journal.caching (v w : UInt32) (notes : List UInt8) :
    (call K true w notes).Caching (runtime K true v) fun _ => True :=
  ⟨beside true v w _, caches w⟩

/-- A note is added before the rebuild, one between its pages, and one after the stream was
written. -/
def Journal.undisturbed : List Journal.Step :=
  handle 0 (call Unit true 1 [5]) "a" ++ [.wipe (runtime Unit true 1) "" none, .page none] ++
    handle 1 (call Unit true 1 [6]) "b" ++
    [.page none, .page none, .upsert "acme|journal:1" .calm] ++
    handle 2 (call Unit true 1 [7]) "c" ++ [.finish]

theorem rebuild_race_between_pages : ∃ s : Journal.Store,
    (raceSystem ℕ _ (Sqlite.dialect .small) .small (Journal.runtime Unit true 1)
        fun _ => True).Reachable s ∧
      s.db.currentStreamVersion ⟨"acme", "journal", "1"⟩ = 3 ∧
      ∃ r, s.db.cachedRow ⟨"acme", "journal", "1"⟩ = some r ∧ r.version = 3 := by
  let D := Sqlite.dialect .small
  let sid : StreamID := ⟨"acme", "journal", "1"⟩
  let f := fun (s : Journal.Store) (l : Journal.Step) =>
    if s.leavesPending l then s.step D .small l else none
  have hend : (TS.exec f (Sys.start ()) Journal.undisturbed).map (fun s =>
      (s.rebuild.succeeded, s.db.currentStreamVersion sid)) = some (true, 3) := by decide +kernel
  obtain ⟨s, hs, he⟩ := Option.map_eq_some_iff.1 hend
  obtain ⟨hret, hver⟩ := Prod.mk.inj he
  have hls : ∀ l ∈ Journal.undisturbed,
      RaceStep (Journal.runtime Unit true 1) (fun _ => True) l := by
    simp [Journal.undisturbed, Journal.handle, Journal.upToAppend, RaceStep, Journal.caching]
  have hr : (raceSystem ℕ _ D .small (Journal.runtime Unit true 1) fun _ => True).Reachable s := by
    refine TS.Reachable.exec (.init ⟨(), rfl⟩) (fun l hl s s' h => ?_) hs
    simp only [f] at h
    split_ifs at h with hp
    exact ⟨⟨hls l hl, Sys.leavesPending.undisturbed hp⟩, h⟩
  obtain ⟨n, hn⟩ := Rebuild.succeeded_iff.1 hret
  have hne : s.db.stream sid ≠ [] := by
    intro hnil
    rw [Db.currentStreamVersion, hnil] at hver
    cases hver
  obtain ⟨r, hrow, hrv⟩ := (rebuild_race hr).1 n hn sid (by decide) hne
  exact ⟨s, hr, hver, r, hrow, hrv.trans hver⟩

/-- A note is added after the last page of a rebuild and before it writes the stream. -/
def Journal.disturbed : List Journal.Step :=
  handle 0 (call Unit true 1 [5]) "a" ++
    [.wipe (runtime Unit true 1) "" none, .page none, .page none] ++
    handle 1 (call Unit true 1 [6]) "b"

/-- **A rebuild replaces a row by one of a lower version**: the row of the second call is at
version 2, the rebuild puts back version 1, and there it stays when both have returned. -/
theorem rebuild_race_stale : ∃ s s₁ s₂ : Journal.Store,
    ((system (Sqlite.dialect .small) .small).restrict fun _ =>
        RaceStep (Journal.runtime Unit true 1) fun _ => True).Reachable s ∧
      s.step (Sqlite.dialect .small) .small (.upsert "acme|journal:1" .calm) = some s₁ ∧
      s₁.step (Sqlite.dialect .small) .small .finish = some s₂ ∧
      (s.db.cachedRow ⟨"acme", "journal", "1"⟩).map StateCacheRow.version = some 2 ∧
      (s₂.db.cachedRow ⟨"acme", "journal", "1"⟩).map StateCacheRow.version = some 1 ∧
      s₂.db.currentStreamVersion ⟨"acme", "journal", "1"⟩ = 2 ∧
      ∃ n, s₂.rebuild = .returned (.ok n) := by
  let D := Sqlite.dialect .small
  let sid : StreamID := ⟨"acme", "journal", "1"⟩
  let s? := TS.exec (Sys.step D .small) (Sys.start (ι := ℕ) ()) Journal.disturbed
  have hend : (s?.bind fun s => (s.step D .small (.upsert "acme|journal:1" .calm)).bind fun s₁ =>
      (s₁.step D .small .finish).map fun s₂ =>
        ((s.db.cachedRow sid).map StateCacheRow.version,
          (s₂.db.cachedRow sid).map StateCacheRow.version, s₂.db.currentStreamVersion sid,
          s₂.rebuild.succeeded)) =
        some (some 2, some 1, 2, true) := by decide +kernel
  obtain ⟨s, hs, hend⟩ := Option.bind_eq_some_iff.1 hend
  obtain ⟨s₁, hs₁, hend⟩ := Option.bind_eq_some_iff.1 hend
  obtain ⟨s₂, hs₂, hend⟩ := Option.map_eq_some_iff.1 hend
  simp only [Prod.mk.injEq] at hend
  obtain ⟨h₁, h₂, h₃, h₄⟩ := hend
  have hls : ∀ l ∈ Journal.disturbed, RaceStep (Journal.runtime Unit true 1) (fun _ => True) l := by
    simp [Journal.disturbed, Journal.handle, Journal.upToAppend, RaceStep,
      Journal.caching]
  refine ⟨s, s₁, s₂, TS.Reachable.exec (.init ⟨(), rfl⟩) (fun l hl _ _ h => ⟨hls l hl, h⟩) hs,
    hs₁, hs₂, h₁, h₂, h₃, Rebuild.succeeded_iff.1 h₄⟩

end EventStore
