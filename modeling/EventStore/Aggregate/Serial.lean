import EventStore.Aggregate.Order

/-!
# Concurrent `Handle` calls serialise

The runtimes of one store are a `Fleet`: for every stream a decider and a codec of its events, and
for every schema version a codec of its states.  Runtimes of a stream may differ in whether they
cache states and under which schema version they do.

The specification is `Occ.serial F.Law`: batches are committed one at a time, each decided on the
fold of the events its stream holds at that moment.  `Fleet.Faithful` relates the store and the
calls to a history of the specification:

* the rows of a stream decode to its log in the history;
* a cached state is the fold of as many events as its version says;
* a call that is under way holds the fold of the first `v` events of its stream, where `v` is the
  version it will append at.

Other calls may commit while a call holds its state, so the fold it holds may be of a proper
prefix of the log.  That it is of the whole log when its own append commits is
`Appended.expected_eq`, and so every step keeps the relation (`Fleet.Faithful.step`).

* `handle_serializes` : **every run of `Handle` calls commits a history of the specification.**
-/

namespace EventStore

variable {ι K S C E : Type} {κ : Columns} {D : Dialect κ} {H : Hasher}

/-! ### Fleets -/

/-- The deciders and codecs of the streams of a store. -/
structure Fleet (S C E : Type) where
  decider : StreamID → Decider S C E
  codec : StreamID → Codec E
  /-- The encoding of a stream's states under a schema version. -/
  stateCodec : StreamID → UInt32 → StateCodec S

namespace Fleet

variable (F : Fleet S C E)

/-- A runtime for the stream, without a shredder, with or without a `StateCodec`. -/
structure Runs (sid : StreamID) (rt : Runtime K S C E) : Prop where
  decider : rt.decider = F.decider sid
  codec : rt.codec = F.codec sid
  stateCodec : ∀ sc, rt.stateCodec = some sc → sc = F.stateCodec sid rt.schema
  shredder : rt.shredder = none

variable (D) in
/-- The codecs read back what they wrote; a state is read back through its column. -/
structure RoundTrips : Prop where
  event : ∀ sid evt enc, (F.codec sid).encode evt = .ok enc →
    (F.codec sid).decode enc.typeURL enc.schemaVersion enc.payload = .ok evt
  state : ∀ sid v s b url col, (F.stateCodec sid v).encode s = .ok (some b, url) →
    D.storeState (some b) = .ok col → (F.stateCodec sid v).decode (D.loadState col) = .ok s

/-- The state of a stream after the given events. -/
def fold (sid : StreamID) (evts : List E) : S := (F.decider sid).fold (F.decider sid).initial evts

/-- What a command may lead to on a stream with the given events: the stream is not terminal, and
the events are those decided. -/
def Law (sid : StreamID) (log : List E) (cmd : C) (evts : List E) : Prop :=
  (F.decider sid).terminal (F.fold sid log) = false ∧
    ∃ cs, (F.decider sid).decide (F.fold sid log) cmd = .ok (evts, cs)

/-- The row holds the event. -/
def Stores (sid : StreamID) (r : EventRow κ) (evt : E) : Prop :=
  (F.codec sid).decode r.typeURL (UInt32.ofInt r.schemaVersion) r.payload = .ok evt

/-- The steps of `Handle` calls by runtimes of the fleet. -/
def Handles : Label ι K S C E → Prop
  | .begin _ c => F.Runs c.sid c.runtime
  | .getState .. => True
  | .readStream .. => True
  | .decide .. => True
  | .append .. => True
  | _ => False

variable (D H) in
/-- `Handle` calls of the fleet on one store, and nothing else. -/
def system [DecidableEq ι] : TS (Sys ι κ K S C E) (Label ι K S C E) :=
  (EventStore.system D H).restrict fun _ l => F.Handles l

theorem fold_append (sid : StreamID) (evts evts' : List E) :
    F.fold sid (evts ++ evts') = (F.decider sid).fold (F.fold sid evts) evts' :=
  List.foldl_append ..

end Fleet

/-! ### What a call holds -/

variable {F : Fleet S C E}

/-- The state a call works with is the fold of the first events of its stream. -/
def Proc.Follows (F : Fleet S C E) (log : StreamID → List E) : Proc K S C E → Prop
  | .begun c => F.Runs c.sid c.runtime
  | .seeded c start => F.Runs c.sid c.runtime ∧
      (c.sid.Valid → start.1 = F.fold c.sid ((log c.sid).take start.2))
  | .loaded c st => F.Runs c.sid c.runtime ∧ c.sid.Valid ∧
      st.1 = F.fold c.sid ((log c.sid).take st.2)
  | .decided c evts p => F.Runs c.sid c.runtime ∧ c.sid.Valid ∧
      ∃ s, s = F.fold c.sid ((log c.sid).take p.expectedVersion) ∧
        c.runtime.Decided c.sid c.cmd c.cfg (s, p.expectedVersion) evts p
  | _ => True

/-- The cached states of a stream are folds of its first events. -/
def Fleet.Caches (F : Fleet S C E) (D : Dialect κ) (log : StreamID → List E) (db : Db κ) : Prop :=
  ∀ r ∈ db.stateCache.rows, ∀ sid, sid.Valid → r.ofStream sid = true →
    (F.stateCodec sid (UInt32.ofInt r.stateSchemaVersion)).decode (D.loadState r.state) =
      .ok (F.fold sid ((log sid).take r.version))

/-- The rows of a stream hold its log. -/
def Fleet.Logs (F : Fleet S C E) (log : StreamID → List E) (db : Db κ) : Prop :=
  ∀ sid, sid.Valid → List.Forall₂ (F.Stores sid) (db.stream sid) (log sid)

section Content

variable {log log' : StreamID → List E} {db db' : Db κ}

/-- A longer log has the same first events. -/
theorem take_eq_take_of_isPrefix {α : Type*} {l l' : List α} {n : ℕ} (h : l <+: l')
    (hn : n ≤ l.length) : l'.take n = l.take n := by
  obtain ⟨t, rfl⟩ := h
  rw [List.take_append_of_le_length hn]

theorem Fleet.Logs.length_eq (h : F.Logs log db) {sid : StreamID} (hv : sid.Valid) :
    (db.stream sid).length = (log sid).length :=
  (h sid hv).length_eq

theorem Proc.Follows.mono {pr : Proc K S C E} (h : pr.Follows F log) (hb : pr.Behind db)
    (hl : F.Logs log db) (hp : ∀ sid, log sid <+: log' sid) : pr.Follows F log' := by
  -- a call holds a fold of events that are already in the log, so a longer log changes nothing
  cases pr with
  | seeded c start =>
    refine ⟨h.1, fun hv => ?_⟩
    have hle : start.2 ≤ (log c.sid).length := hl.length_eq hv ▸ hb
    rw [take_eq_take_of_isPrefix (hp _) hle]
    exact h.2 hv
  | loaded c st =>
    have hle : st.2 ≤ (log c.sid).length := hl.length_eq h.2.1 ▸ hb
    refine ⟨h.1, h.2.1, ?_⟩
    rw [take_eq_take_of_isPrefix (hp _) hle]
    exact h.2.2
  | decided c evts p =>
    have hle : p.expectedVersion ≤ (log c.sid).length := hl.length_eq h.2.1 ▸ hb.2
    refine ⟨h.1, h.2.1, ?_⟩
    rw [take_eq_take_of_isPrefix (hp _) hle]
    exact h.2.2
  | _ => exact h

/-- What `Load` starts from is the fold of the events up to its version. -/
theorem Fleet.Caches.seed (h : F.Caches D log db) {sid : StreamID} (hv : sid.Valid)
    {rt : Runtime K S C E} (hrt : F.Runs sid rt) (fault : Option Err) :
    (rt.seed (orFault fault (getState D db sid))).1 =
      F.fold sid ((log sid).take (rt.seed (orFault fault (getState D db sid))).2) := by
  rcases rt.seed_cases (orFault fault (getState D db sid)) with
    hs | ⟨sc, row, s, hsc, hg, -, hschema, hdec, hs⟩
  · rw [hs, List.take_zero, hrt.decider]
    rfl
  · rw [hs]
    cases fault with
    | some e => cases hg
    | none =>
      obtain ⟨r, hr, hrv, hst, hrs⟩ := getState_ok hg
      obtain ⟨hmem, hof⟩ := Db.cachedRow_eq_some hr
      -- the row was written under the schema version, so by the codec, of this runtime
      have hdec' := h r hmem sid hv hof
      rw [← hrs, hschema, ← hrt.stateCodec sc hsc] at hdec'
      rw [hst, Option.getD_some, hdec'] at hdec
      rw [hrv]
      exact (Except.ok.inj hdec).symm

theorem decodes_of_read {sid : StreamID} {rt : Runtime K S C E} (hrt : F.Runs sid rt)
    {rows : List (EventRow κ)} {envs : List Envelope} {evts : List E}
    (hread : List.Forall₂ (fun r e => rowToEnvelope D r = .ok e) rows envs)
    (hrows : List.Forall₂ (F.Stores sid) rows evts) : List.Forall₂ rt.Decodes envs evts := by
  induction hread generalizing evts with
  | nil =>
    cases hrows
    exact .nil
  | cons hr _ ih =>
    obtain ⟨_, _, _, _, -, -, -, -, rfl⟩ := rowToEnvelope_eq_ok.1 hr
    cases hrows with
    | cons hs hrest =>
      refine .cons ?_ (ih hrest)
      rw [Runtime.Decodes, hrt.codec]
      exact hs

/-- **The second read of `Load` completes the fold**: whatever was committed since the first, the
state returned is the fold of the whole stream. -/
theorem Fleet.Logs.loadTail (h : F.Logs log db) (hd : ∀ sid, db.Dense sid) {sid : StreamID}
    {rt : Runtime K S C E} (hrt : F.Runs sid rt) {start : S × ℕ}
    (hle : start.2 ≤ (db.stream sid).length)
    (hstart : sid.Valid → start.1 = F.fold sid ((log sid).take start.2))
    {envs : List Envelope} (hread : readStream D db sid start.2 = .ok envs) (k : K) :
    rt.loadTail sid start (.ok envs) k = .ok (F.fold sid (log sid), (db.stream sid).length) k := by
  obtain ⟨hv, hrows⟩ := (readStream_eq_ok (hd sid)).1 hread
  have hdec := decodes_of_read hrt hrows (List.forall₂_drop start.2 (h sid hv))
  refine Runtime.loadTail_eq_ok.2 ⟨envs, rfl, ?_⟩
  -- the fold of the whole log, cut where the second read starts
  have hfold : F.fold sid (log sid) = rt.decider.fold start.1 ((log sid).drop start.2) := by
    rw [hstart hv, hrt.decider, ← F.fold_append, List.take_append_drop]
  have hver : (envs.getLast?.map Envelope.version).getD start.2 = (db.stream sid).length := by
    rw [← List.getLast?_map, map_version_of_read hrows]
    exact (hd sid).getLast?_drop hle
  rw [Runtime.replay_of_decodes hrt.shredder hdec, hfold, hver]

/-- A call that moves on holds a fold again. -/
theorem Proc.Next.follows {k k' : K} {l : Label ι K S C E} {pr pr' : Proc K S C E}
    (h : Proc.Next D db k k' l pr pr') (hl : F.Handles l) (hwf : db.Wf) (hlog : F.Logs log db)
    (hcache : F.Caches D log db) (hb : pr.Behind db) (hf : pr.Follows F log) :
    pr'.Follows F log := by
  cases h with
  | begin => exact hl
  | getState => exact ⟨hf, fun hv => hcache.seed hv hf _⟩
  | @load i fault c start st hload =>
    obtain ⟨envs, hread, hrep⟩ := Runtime.loadTail_eq_ok.1 hload
    cases fault with
    | some e => cases hread
    | none =>
      have hv := ((readStream_eq_ok (hwf.dense _)).1 hread).1
      have hres := hlog.loadTail hwf.dense hf.1 hb hf.2 hread k
      rw [Runtime.loadTail_eq_ok.2 ⟨envs, rfl, hrep⟩] at hres
      cases hres
      refine ⟨hf.1, hv, ?_⟩
      rw [hlog.length_eq hv, List.take_length]
  | @decide i ids c st evts p hd =>
    have hd := Runtime.decideAppend_ok hd
    refine ⟨hf.1, hf.2.1, st.1, ?_, ?_⟩
    · rw [hd.expectedVersion]
      exact hf.2.2
    · rw [hd.expectedVersion]
      exact hd
  | ret => trivial

end Content

/-! ### The rows an append stores -/

theorem Runtime.Decided.stores (hF : F.RoundTrips D) {sid : StreamID} {rt : Runtime K S C E}
    (hrt : F.Runs sid rt) {cmd : C} {cfg : HandleConfig} {loaded : S × ℕ} {evts : List E}
    {p : AppendParams}
    (h : rt.Decided sid cmd cfg loaded evts p) {en : Engine} {i : ℕ} {prev : Bytes} {seq : ℕ}
    {rows : List (EventRow κ)} (hw : Written D H en p i prev seq p.events rows) :
    List.Forall₂ (F.Stores sid) rows evts := by
  obtain ⟨ids, k, k', hok⟩ := h.encoded
  refine (forall₂_comp ?_ (Runtime.encodeEvents_plain hrt.shredder hok) hw.payload).flip
  rintro evt ev r ⟨enc, id, henc, rfl⟩ ⟨htype, hschema, hpayload⟩
  show F.Stores sid r evt
  rw [Fleet.Stores, htype, hschema, hpayload]
  exact hF.event sid evt enc (hrt.codec ▸ henc)

/-! ### The invariant -/

variable [DecidableEq ι] {s s' : Sys ι κ K S C E} {l : Label ι K S C E}

omit [DecidableEq ι] in
/-- A step of a `Handle` call changes no table, or it is an append that commits. -/
theorem Fleet.Handles.writes (hl : F.Handles l) (h : s.Writes D H l s') :
    s.db.SameTables s'.db ∧ s'.commits = s.commits ∨
      ∃ i c evts p en r rows, l = .append i en ∧ s.procs i = .decided c evts p ∧
        s'.procs i = .returned (.ok r) ∧ Appended D H en p s.db s'.db rows ∧
        s'.commits = s.commits ++ [⟨i, c.sid, c.cmd, evts⟩] := by
  cases h with
  | quiet hs _ hc => exact Or.inl ⟨hs, hc⟩
  | append he hp hr ha hc => exact Or.inr ⟨_, _, _, _, _, _, _, he, hp, hr, ha, hc⟩
  -- the other writers are not steps of `Handle`
  | direct he => rw [he] at hl; exact hl.elim
  | wipe he => rw [he] at hl; exact hl.elim
  | upsert he => rw [he] at hl; exact hl.elim

variable (F D) in
/-- The store and its calls agree with the history of the commits. -/
structure Fleet.Faithful (s : Sys ι κ K S C E) : Prop where
  ordered : Ordered s
  /-- Every event belongs to a stream. -/
  streams : ∀ r ∈ s.db.events.rows, ∃ sid, sid.Valid ∧ r.inStream sid = true
  logs : F.Logs (Occ.logOf s.commits) s.db
  caches : F.Caches D (Occ.logOf s.commits) s.db
  procs : ∀ i, (s.procs i).Follows F (Occ.logOf s.commits)
  history : (Occ.serial F.Law).Reachable s.commits
  /-- Who has committed has returned without an error. -/
  returned : ∀ b ∈ s.commits, ∃ r, s.procs b.call = .returned (.ok r)

namespace Fleet.Faithful

omit [DecidableEq ι] in
theorem start (k : K) : F.Faithful D (Sys.start k : Sys ι κ K S C E) where
  ordered := .start k
  streams _ hr := absurd hr List.not_mem_nil
  logs _ _ := .nil
  caches _ hr := absurd hr List.not_mem_nil
  procs _ := trivial
  history := .init rfl
  returned _ hb := absurd hb List.not_mem_nil

theorem stays_returned (h : F.Faithful D s) (hm : Moves D H s l s') {b : Occ.Batch ι StreamID C E}
    (hb : b ∈ s.commits) : ∃ r, s'.procs b.call = .returned (.ok r) := by
  obtain ⟨r, hr⟩ := h.returned b hb
  rcases hm.proc b.call with he | hn
  · exact ⟨r, he.trans hr⟩
  · rw [hr] at hn
    exact hn.not_returned.elim

/-- A step that commits nothing. -/
theorem quiet (h : F.Faithful D s) (hl : F.Handles l) (hm : Moves D H s l s')
    (ho : Ordered s') (hs : s.db.SameTables s'.db) (hc : s'.commits = s.commits) :
    F.Faithful D s' where
  ordered := ho
  streams r hr := h.streams r (hs.1 ▸ hr)
  logs sid hv := by
    rw [hs.stream_eq, hc]
    exact h.logs sid hv
  caches r hr := by
    rw [hc]
    exact h.caches r (hs.2.2.2 ▸ hr)
  procs i := by
    rw [hc]
    rcases hm.proc i with he | hn
    · exact he ▸ h.procs i
    · exact hn.follows hl h.ordered.wf h.logs h.caches (h.ordered.procs i) (h.procs i)
  history := hc ▸ h.history
  returned b hb := h.stays_returned hm (hc ▸ hb)

omit [DecidableEq ι] in
/-- A call whose append commits has decided on the whole log: nothing was committed to the stream
since the call read it. -/
theorem of_decided (h : F.Faithful D s) {i : ι} {c : Call K S C E} {evts : List E}
    {p : AppendParams} {en : Engine} {db' : Db κ} {rows : List (EventRow κ)}
    (hp : s.procs i = .decided c evts p) (ha : Appended D H en p s.db db' rows) :
    p.streamID = c.sid ∧ p.expectedVersion = (s.db.stream c.sid).length ∧
      F.Runs c.sid c.runtime ∧ c.sid.Valid ∧
      c.runtime.Decided c.sid c.cmd c.cfg
        (F.fold c.sid (Occ.logOf s.commits c.sid), (s.db.stream c.sid).length) evts p := by
  have hb := h.ordered.procs i
  have hf := h.procs i
  rw [hp] at hb hf
  obtain ⟨hsid, hle⟩ := hb
  obtain ⟨hrt, hv, st, hst, hd⟩ := hf
  -- an expected version behind the head would have met the primary key of `events`
  have hexp : p.expectedVersion = (s.db.stream c.sid).length := by
    rw [← hsid] at hle ⊢
    exact ha.expected_eq (h.ordered.wf.dense _) hle
  rw [hexp, h.logs.length_eq hv, List.take_length] at hst
  rw [hst, hexp] at hd
  exact ⟨hsid, hexp, hrt, hv, hd⟩

omit [DecidableEq ι] in
theorem logs_commit (hF : F.RoundTrips D) (h : F.Faithful D s) {i : ι} {c : Call K S C E}
    {evts : List E} {p : AppendParams} {en : Engine} {db' : Db κ} {rows : List (EventRow κ)}
    (hp : s.procs i = .decided c evts p) (ha : Appended D H en p s.db db' rows) :
    F.Logs (Occ.logOf (s.commits ++ [⟨i, c.sid, c.cmd, evts⟩])) db' := by
  obtain ⟨hsid, -, hrt, hv, hd⟩ := h.of_decided hp ha
  intro sid hv'
  by_cases hk : sid.key = p.streamID.key
  · obtain rfl := StreamID.eq_of_key_eq hv' hv (hsid ▸ hk)
    rw [ha.stream_key hk, Occ.logOf_concat_self (b := ⟨i, c.sid, c.cmd, evts⟩)]
    exact List.rel_append (h.logs _ hv) (hd.stores hF hrt ha.written)
  · rw [ha.stream_ne hk, Occ.logOf_concat_ne (by rintro rfl; exact hk (by rw [hsid]))]
    exact h.logs sid hv'

omit [DecidableEq ι] in
/-- The row an append writes is the fold of the log and the events decided; the other rows are
folds of the events they were folds of before. -/
theorem caches_commit (hF : F.RoundTrips D) (h : F.Faithful D s) {i : ι} {c : Call K S C E}
    {evts : List E} {p : AppendParams} {en : Engine} {db' : Db κ} {rows : List (EventRow κ)}
    (hp : s.procs i = .decided c evts p) (ha : Appended D H en p s.db db' rows) :
    F.Caches D (Occ.logOf (s.commits ++ [⟨i, c.sid, c.cmd, evts⟩])) db' := by
  obtain ⟨hsid, hexp, hrt, hv, hd⟩ := h.of_decided hp ha
  -- the rows of before: their versions lie in the part of the log that stays
  have hold : F.Caches D (Occ.logOf (s.commits ++ [⟨i, c.sid, c.cmd, evts⟩])) s.db := by
    intro r hr sid hv' hof
    have hle : r.version ≤ (Occ.logOf s.commits sid).length :=
      h.logs.length_eq hv' ▸ h.ordered.wf.cache_le r hr sid hof
    rw [take_eq_take_of_isPrefix Occ.logOf_prefix hle]
    exact h.caches r hr sid hv' hof
  intro r hr sid hv' hof
  rcases ha.stateCache with ⟨hsc, -⟩ | ⟨b, col, hb, hcol, hsc⟩
  · exact hold r (hsc ▸ hr) sid hv' hof
  · rw [hsc] at hr
    rcases Table.mem_upsert.1 hr with rfl | ⟨hr, -⟩
    · have hk := StateCacheRow.ofStream_iff.1 hof
      obtain rfl := StreamID.eq_of_key_eq hv' hv (hsid ▸ hk)
      rcases hd.state with ⟨-, hn⟩ | ⟨sc, hsc', henc, hschema, -⟩
      · rw [hb] at hn
        cases hn
      · -- the row of the append: its version is the length of the new log
        have hlen := (h.logs_commit hF hp ha).length_eq hv
        rw [ha.stream_key hk, List.length_append, ha.written.length_eq, ← hexp] at hlen
        have hver : (stateCacheRow D en p col).version = _ := hlen
        have hcol' : UInt32.ofInt (stateCacheRow D en p col).stateSchemaVersion =
            c.runtime.schema := by
          rw [stateCacheRow, D.ofInt_schemaColumn, hschema, Runtime.schema,
            defaultSchema_defaultSchema]
        rw [hver, List.take_length, hcol', Occ.logOf_concat_self (b := ⟨i, c.sid, c.cmd, evts⟩),
          F.fold_append, ← hrt.decider]
        rw [hrt.stateCodec sc hsc', hb] at henc
        exact hF.state _ _ _ _ _ _ henc hcol
    · exact hold r hr sid hv' hof

/-- A step that commits a batch. -/
theorem commit (hF : F.RoundTrips D) (h : F.Faithful D s) (hl : F.Handles l)
    (hm : Moves D H s l s') (ho : Ordered s') {i : ι} {c : Call K S C E} {evts : List E}
    {p : AppendParams} {en : Engine} {r : AppendResult} {rows : List (EventRow κ)}
    (hp : s.procs i = .decided c evts p) (hr : s'.procs i = .returned (.ok r))
    (ha : Appended D H en p s.db s'.db rows)
    (hc : s'.commits = s.commits ++ [⟨i, c.sid, c.cmd, evts⟩]) : F.Faithful D s' where
  ordered := ho
  streams r hr := by
    rw [ha.events, List.mem_append] at hr
    rcases hr with hr | hr
    · exact h.streams r hr
    · obtain ⟨ht, hs⟩ := ha.written.stream r hr
      exact ⟨p.streamID, ha.valid, EventRow.inStream_iff.2 (by rw [ht, hs]; rfl)⟩
  logs := hc ▸ h.logs_commit hF hp ha
  caches := hc ▸ h.caches_commit hF hp ha
  procs j := by
    rw [hc]
    -- first against the old log, then against the longer one
    have hj : (s'.procs j).Follows F (Occ.logOf s.commits) ∧ (s'.procs j).Behind s.db := by
      rcases hm.proc j with he | hn
      · rw [he]
        exact ⟨h.procs j, h.ordered.procs j⟩
      · exact ⟨hn.follows hl h.ordered.wf h.logs h.caches (h.ordered.procs j) (h.procs j),
          hn.behind h.ordered.wf (h.ordered.procs j)⟩
    exact hj.1.mono hj.2 h.logs fun _ => Occ.logOf_prefix
  history := by
    obtain ⟨-, -, hrt, -, hd⟩ := h.of_decided hp ha
    rw [hc]
    exact .step (l := ⟨i, c.sid, c.cmd, evts⟩) h.history
      ⟨⟨hrt.decider ▸ hd.notTerminal, p.constraints, hrt.decider ▸ hd.decide⟩, rfl⟩
  returned b hb := by
    rw [hc, List.mem_append, List.mem_singleton] at hb
    rcases hb with hb | rfl
    · exact h.stays_returned hm hb
    · exact ⟨r, hr⟩

/-- **Every step of a `Handle` call keeps the store faithful to the history.** -/
theorem step (hF : F.RoundTrips D) (h : F.Faithful D s) (hl : F.Handles l)
    (hm : Moves D H s l s') : F.Faithful D s' := by
  have ho : Ordered s' := h.ordered.step (fun en p he => by rw [he] at hl; exact hl.elim) hm
  rcases hl.writes hm.writes with ⟨hs, hc⟩ | ⟨i, c, evts, p, en, r, rows, -, hp, hr, ha, hc⟩
  · exact h.quiet hl hm ho hs hc
  · exact h.commit hF hl hm ho hp hr ha hc

theorem of_reachable (hF : F.RoundTrips D) (h : (F.system D H).Reachable s) : F.Faithful D s := by
  induction h with
  | init h₀ =>
    obtain ⟨k, rfl⟩ := h₀
    exact start k
  | step _ hstep ih => exact ih.step hF hstep.1 (Sys.moves hstep.2)

end Fleet.Faithful

/-- **Concurrent `Handle` calls serialise.**  In every run of `Handle` calls on one store:

* every stream has the versions `1, ..., n`, and positions increase with them;
* the events of the streams are those of the committed batches, in the order of the commits, and
  there are no others;
* every batch was decided on the fold of exactly the events before it in its stream, which was not
  terminal;
* a call that has returned an error has committed no batch, and the only step that changes a table
  is the append of a call that returns without an error. -/
theorem handle_serializes (hF : F.RoundTrips D) (h : (F.system D H).Reachable s) :
    (∀ sid, (s.db.streamRows sid).map EventRow.version =
          List.range' 1 (s.db.streamRows sid).length ∧
        (s.db.streamRows sid).Pairwise fun a b => a.globalPosition < b.globalPosition) ∧
      (∀ sid, sid.Valid →
        List.Forall₂ (F.Stores sid) (s.db.streamRows sid) (Occ.logOf s.commits sid)) ∧
      (∀ r ∈ s.db.events.rows, ∃ sid, sid.Valid ∧ r ∈ s.db.streamRows sid) ∧
      (∀ pre b post, s.commits = pre ++ b :: post →
        (F.decider b.key).terminal (F.fold b.key (Occ.logOf pre b.key)) = false ∧
          ∃ cs, (F.decider b.key).decide (F.fold b.key (Occ.logOf pre b.key)) b.cmd =
            .ok (b.items, cs)) ∧
      (∀ i e, s.procs i = .returned (.error e) → ∀ b ∈ s.commits, b.call ≠ i) ∧
      ∀ l s', (F.system D H).step s l s' → ¬ s.db.SameTables s'.db →
        ∃ i en r b, l = .append i en ∧ s'.procs i = .returned (.ok r) ∧ b.call = i ∧
          s'.commits = s.commits ++ [b] := by
  have hf := Fleet.Faithful.of_reachable hF h
  have hrows : ∀ sid, s.db.streamRows sid = s.db.stream sid := fun sid =>
    (hf.ordered.wf.dense sid).streamRows_eq
  refine ⟨fun sid => ?_, fun sid hv => ?_, fun r hr => ?_, Occ.serial_reachable_iff.1 hf.history,
    fun i e hi b hb he => ?_, fun l s' hstep hne => ?_⟩
  · rw [hrows]
    exact ⟨hf.ordered.wf.dense sid, s.db.pairwise_globalPosition_stream sid⟩
  · rw [hrows]
    exact hf.logs sid hv
  · obtain ⟨sid, hv, hin⟩ := hf.streams r hr
    exact ⟨sid, hv, hrows sid ▸ List.mem_filter.2 ⟨hr, hin⟩⟩
  · obtain ⟨r, hr⟩ := hf.returned b hb
    rw [he, hi] at hr
    cases hr
  · obtain ⟨hl, hstep⟩ := hstep
    rcases hl.writes (Sys.moves hstep).writes with
      ⟨hs, -⟩ | ⟨i, c, evts, p, en, r, rows, he, -, hr, -, hc⟩
    · exact absurd hs hne
    · exact ⟨i, en, r, _, he, hr, rfl, hc⟩

/-! ### Two calls race -/

/-- Journals in all streams. -/
def Fleet.journal : Fleet (List UInt8) (List UInt8) UInt8 where
  decider _ := Journal.decider
  codec _ := Journal.codec
  stateCodec _ := Journal.stateCodec

theorem Fleet.journal_runs (cached : Bool) (v : UInt32) (sid : StreamID) :
    Fleet.journal.Runs sid (Journal.runtime K cached v) where
  decider := rfl
  codec := rfl
  stateCodec sc h := by
    cases cached with
    | false => cases h
    | true => exact (Option.some.inj h).symm
  shredder := rfl

theorem Fleet.journal_roundTrips : Fleet.journal.RoundTrips (Sqlite.dialect .small) where
  event _ _ _ h := by
    obtain rfl := Except.ok.inj h
    rfl
  state _ v s b url col henc hcol := by
    obtain rfl := Option.some.inj (Prod.mk.inj (Except.ok.inj henc)).1
    obtain rfl := Except.ok.inj hcol
    exact if_pos rfl

/-- Journals in an SQLite store, and calls numbered by `ℕ`. -/
abbrev Journal.Store : Type := Sys ℕ (Sqlite.columns Bytes) Unit (List UInt8) (List UInt8) UInt8

/-- The steps of journals. -/
abbrev Journal.Step : Type := Label ℕ Unit (List UInt8) (List UInt8) UInt8

/-- A call that adds notes to the journal `acme/journal:1`. -/
def Journal.call (K : Type) (cached : Bool) (v : UInt32) (notes : List UInt8) :
    Call K (List UInt8) (List UInt8) UInt8 :=
  ⟨runtime K cached v, ⟨"acme", "journal", "1"⟩, notes, ⟨⟨"c"⟩, ⟨"c"⟩, ⟨"c"⟩, 0, Actor.zero⟩⟩

/-- The steps of one call up to its append; the events get ids that start with the given text. -/
def Journal.upToAppend {K : Type} (i : ℕ) (c : Call K (List UInt8) (List UInt8) UInt8)
    (id : String) : List (Label ℕ K (List UInt8) (List UInt8) UInt8) :=
  [.begin i c, .getState i none, .readStream i none, .decide i fun n => ⟨id ++ toString n⟩]

/-- The steps of one call. -/
def Journal.handle {K : Type} (i : ℕ) (c : Call K (List UInt8) (List UInt8) UInt8) (id : String) :
    List (Label ℕ K (List UInt8) (List UInt8) UInt8) :=
  upToAppend i c id ++ [.append i .calm]

/-- Two calls load the empty journal, and both append; then a third closes the journal and a
fourth comes too late. -/
def Journal.race : List Journal.Step :=
  upToAppend 0 (call Unit true 1 [5, 6]) "a" ++ upToAppend 1 (call Unit false 0 [7]) "b" ++
    [.append 0 .calm, .append 1 .calm] ++
    upToAppend 2 (call Unit true 2 [0]) "d" ++ [.append 2 .calm] ++
    upToAppend 3 (call Unit true 2 [8]) "e"

theorem Journal.handles_race : ∀ l ∈ race, Fleet.journal.Handles l := by
  simp [race, upToAppend, Fleet.Handles, call, Fleet.journal_runs]

theorem handle_serializes_race : ∃ s : Journal.Store,
    (Fleet.journal.system (Sqlite.dialect .small) .small).Reachable s ∧
      s.commits.map (fun b => (b.call, b.items)) = [(0, [5, 6]), (2, [0])] ∧
      List.Forall₂ (Fleet.journal.Stores ⟨"acme", "journal", "1"⟩)
        (s.db.streamRows ⟨"acme", "journal", "1"⟩) [5, 6, 0] := by
  let s? := TS.exec (Sys.step (Sqlite.dialect .small) .small) (Sys.start (ι := ℕ) ()) Journal.race
  have hend : s?.map (fun s => (s.commits.map (fun b => (b.call, b.items)),
      Occ.logOf s.commits ⟨"acme", "journal", "1"⟩)) =
        some ([(0, [5, 6]), (2, [0])], [5, 6, 0]) := by decide +kernel
  obtain ⟨s, hs, he⟩ := Option.map_eq_some_iff.1 hend
  obtain ⟨hcommits, hlog⟩ := Prod.mk.inj he
  have hr : (Fleet.journal.system (Sqlite.dialect .small) .small).Reachable s :=
    TS.Reachable.exec (.init ⟨(), rfl⟩) (fun l hl _ _ h => ⟨Journal.handles_race l hl, h⟩) hs
  have h := (handle_serializes Fleet.journal_roundTrips hr).2.1 ⟨"acme", "journal", "1"⟩ (by decide)
  exact ⟨s, hr, hcommits, hlog ▸ h⟩

end EventStore
