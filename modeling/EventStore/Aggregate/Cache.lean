import EventStore.Aggregate.Serial

/-!
# A cached load is a full replay

`Load` reads the cached state and then the events after it, in two separate reads.  Between them
other runtimes append; they may replace the row, under the same schema version or another, or leave
it behind.  In a store written by `Handle` calls of one fleet this makes no difference:

* `load_eq_fold` : **a load returns the fold of the whole stream**, for every runtime of the fleet
  and also when the calls of others come between its reads, and every row of the cache is the fold
  of the first events of its stream under the encoding of its schema version.
-/

namespace EventStore

variable {ι K S C E : Type} {κ : Columns} {D : Dialect κ} {H : Hasher}

/-- The fold of `Evolve` over the envelopes of a full read, with the version of the last. -/
def Runtime.FullFold (rt : Runtime K S C E) (envs : List Envelope) (st : S × ℕ) : Prop :=
  ∃ evts, List.Forall₂ rt.Decodes envs evts ∧
    st = (rt.decider.fold rt.decider.initial evts, (envs.getLast?.map Envelope.version).getD 0)

/-- If a dense stream can be read from its start, it can be read from any version. -/
theorem Db.Dense.read_after {db : Db κ} {sid : StreamID} (h : db.Dense sid) {envs : List Envelope}
    (hread : readStream D db sid 0 = .ok envs) (v : ℕ) :
    readStream D db sid v = .ok (envs.drop v) := by
  obtain ⟨hv, hrows⟩ := (readStream_eq_ok h).1 hread
  exact (readStream_eq_ok h).2 ⟨hv, List.forall₂_drop v hrows⟩

section Load

variable {F : Fleet S C E} {log : StreamID → List E} {db : Db κ} {sid : StreamID}
  {rt : Runtime K S C E}

theorem Fleet.Logs.fullFold (h : F.Logs log db) (hd : ∀ sid, db.Dense sid) (hrt : F.Runs sid rt)
    {envs : List Envelope} (hread : readStream D db sid 0 = .ok envs) :
    rt.FullFold envs (F.fold sid (log sid), (db.stream sid).length) := by
  obtain ⟨hv, hrows⟩ := (readStream_eq_ok (hd sid)).1 hread
  refine ⟨log sid, decodes_of_read hrt hrows (h sid hv), Prod.ext ?_ ?_⟩
  · rw [hrt.decider]
    rfl
  · rw [← List.getLast?_map, map_version_of_read hrows]
    exact ((hd sid).getLast?_drop (Nat.zero_le _)).symm

/-- From a fold of the first events, the second read leads to the fold of all. -/
theorem Fleet.Logs.loadTail_eq_full (h : F.Logs log db) (hd : ∀ sid, db.Dense sid)
    (hrt : F.Runs sid rt) {start : S × ℕ} (hle : start.2 ≤ (db.stream sid).length)
    (hstart : sid.Valid → start.1 = F.fold sid ((log sid).take start.2))
    {envs : List Envelope} (hread : readStream D db sid 0 = .ok envs) :
    ∃ st, rt.FullFold envs st ∧
      ∀ k, rt.loadTail sid start (readStream D db sid start.2) k = .ok st k := by
  have htail := (hd sid).read_after hread start.2
  refine ⟨_, h.fullFold hd hrt hread, fun k => ?_⟩
  rw [htail]
  exact h.loadTail hd hrt hle hstart htail k

theorem Fleet.Logs.load_ok (h : F.Logs log db) (hwf : db.Wf) (hc : F.Caches D log db)
    (hrt : F.Runs sid rt) {k k' : K} {st : S × ℕ} (hload : rt.load D db sid k = .ok st k') :
    sid.Valid ∧ st = (F.fold sid (log sid), (db.stream sid).length) := by
  obtain ⟨envs, hread, hrep⟩ := Runtime.loadTail_eq_ok.1 hload
  have hv := ((readStream_eq_ok (hwf.dense sid)).1 hread).1
  have hres := h.loadTail hwf.dense hrt (seed_version_le hwf none) (fun hv => hc.seed hv hrt none)
    hread k
  have hload' := Runtime.loadTail_eq_ok.2 ⟨envs, rfl, hrep⟩
  exact ⟨hv, (EStateM.Result.ok.inj (hload'.symm.trans hres)).1⟩

end Load

variable [DecidableEq ι] {F : Fleet S C E} {s : Sys ι κ K S C E}

/-- **A cached load is a full replay.**  In every store written by `Handle` calls of the fleet:

* if a stream can be read, `Load` of every runtime of the fleet returns the fold of what is read,
  whatever the cache holds;
* so does the second read of a call that has read the cache in an earlier state of the store;
* what `Load` returns is the fold of the stored events, also when the events before the cached
  version cannot be read;
* every cached state decodes, under its schema version, to the fold of as many events of its
  stream as its version says. -/
theorem load_eq_fold (hF : F.RoundTrips D) (h : (F.system D H).Reachable s) :
    (∀ sid (rt : Runtime K S C E), F.Runs sid rt → ∀ envs, readStream D s.db sid 0 = .ok envs →
        ∃ st, rt.FullFold envs st ∧ ∀ k, rt.load D s.db sid k = .ok st k) ∧
      (∀ i c start, s.procs i = .seeded c start →
        ∀ envs, readStream D s.db c.sid 0 = .ok envs →
          ∃ st, c.runtime.FullFold envs st ∧
            ∀ k, c.runtime.loadTail c.sid start (readStream D s.db c.sid start.2) k = .ok st k) ∧
      (∀ sid (rt : Runtime K S C E), F.Runs sid rt → ∀ k st k', rt.load D s.db sid k = .ok st k' →
        ∃ evts, List.Forall₂ (F.Stores sid) (s.db.streamRows sid) evts ∧
          st = (F.fold sid evts, evts.length)) ∧
      ∀ r ∈ s.db.stateCache.rows, ∀ sid, sid.Valid → r.ofStream sid = true →
        ∃ evts, List.Forall₂ (F.Stores sid) (s.db.streamRows sid) evts ∧
          r.version ≤ evts.length ∧
          (F.stateCodec sid (UInt32.ofInt r.stateSchemaVersion)).decode (D.loadState r.state) =
            .ok (F.fold sid (evts.take r.version)) := by
  have hf := Fleet.Faithful.of_reachable hF h
  have hwf := hf.ordered.wf
  have hrows : ∀ sid, s.db.streamRows sid = s.db.stream sid := fun sid =>
    (hwf.dense sid).streamRows_eq
  refine ⟨fun sid rt hrt envs hread => ?_, fun i c start hi envs hread => ?_,
    fun sid rt hrt k st k' hload => ?_, fun r hr sid hv hof => ?_⟩
  · exact hf.logs.loadTail_eq_full hwf.dense hrt (seed_version_le hwf none)
      (fun hv => hf.caches.seed hv hrt none) hread
  · have hb := hf.ordered.procs i
    have hp := hf.procs i
    rw [hi] at hb hp
    exact hf.logs.loadTail_eq_full hwf.dense hp.1 hb hp.2 hread
  · obtain ⟨hv, rfl⟩ := hf.logs.load_ok hwf hf.caches hrt hload
    rw [hrows, hf.logs.length_eq hv]
    exact ⟨_, hf.logs sid hv, rfl⟩
  · rw [hrows]
    refine ⟨_, hf.logs sid hv, ?_, hf.caches r hr sid hv hof⟩
    rw [← hf.logs.length_eq hv]
    exact hwf.cache_le r hr sid hof

/-- The first call caches two notes under schema version 1, the second adds one without caching;
runtimes of every schema version load all three. -/
theorem load_eq_fold_mixed : ∃ (s : Journal.Store) (envs : List Envelope),
    (Fleet.journal.system (Sqlite.dialect .small) .small).Reachable s ∧
      s.db.stateCache.rows.map (fun r => (r.version, r.stateSchemaVersion)) = [(2, 1)] ∧
      readStream (Sqlite.dialect .small) s.db ⟨"acme", "journal", "1"⟩ 0 = .ok envs ∧
      envs.map Envelope.version = [1, 2, 3] ∧
      ∀ v, ∃ st, (Journal.runtime Unit true v).FullFold envs st ∧ ∀ k,
        (Journal.runtime Unit true v).load (Sqlite.dialect .small) s.db ⟨"acme", "journal", "1"⟩ k =
          .ok st k := by
  let D := Sqlite.dialect .small
  let sid : StreamID := ⟨"acme", "journal", "1"⟩
  let ls := Journal.upToAppend 0 (Journal.call Unit true 1 [5, 6]) "a" ++ [.append 0 .calm] ++
    Journal.upToAppend 1 (Journal.call Unit false 0 [7]) "b" ++ [.append 1 .calm]
  let s? := TS.exec (Sys.step D .small) (Sys.start (ι := ℕ) ()) ls
  have hls : ∀ l ∈ ls, Fleet.journal.Handles l := by
    simp [ls, Journal.upToAppend, Fleet.Handles, Journal.call, Fleet.journal_runs]
  have hend : s?.map (fun s =>
      (s.db.stateCache.rows.map fun r => (r.version, r.stateSchemaVersion),
        (readStream D s.db sid 0).toOption.map (List.map Envelope.version))) =
        some ([(2, 1)], some [1, 2, 3]) := by decide +kernel
  obtain ⟨s, hs, he⟩ := Option.map_eq_some_iff.1 hend
  obtain ⟨hcache, hread⟩ := Prod.mk.inj he
  have hr : (Fleet.journal.system D .small).Reachable s :=
    TS.Reachable.exec (.init ⟨(), rfl⟩) (fun l hl _ _ h => ⟨hls l hl, h⟩) hs
  obtain ⟨envs, henvs, hversions⟩ := Option.map_eq_some_iff.1 hread
  have hok : readStream D s.db sid 0 = .ok envs := by
    cases hrd : readStream D s.db sid 0 with
    | error e => rw [hrd] at henvs; cases henvs
    | ok es => rw [hrd] at henvs; exact congrArg _ (Option.some.inj henvs)
  exact ⟨s, envs, hr, hcache, hok, hversions, fun v =>
    (load_eq_fold Fleet.journal_roundTrips hr).1 sid _ (Fleet.journal_runs true v sid) envs hok⟩

end EventStore
