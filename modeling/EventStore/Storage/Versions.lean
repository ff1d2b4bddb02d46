import EventStore.Es.StreamID
import EventStore.LTS.Basic
import EventStore.Storage.Append

/-!
# Versions of a stream

The adapters do not compare `ExpectedVersion` with the stream: the events of a batch are inserted
with the versions `ExpectedVersion + 1, ...`, and the unique key `(tenant_id, stream_id, version)`
refuses an insert whose version is taken.  So what an append does depends on what the stream holds.

* `Db.Dense db sid` : the versions of the stream are `1, ..., n`, in insertion order.
* `Appended.expected_eq` : **on a dense stream, an append that is not ahead of the stream commits
  only at its head**, and it keeps the stream dense (`Appended.dense`).
* `append_law` : in every run of direct appends none of which is ahead of its stream, all streams
  are dense, and the next append obeys the law of optimistic concurrency iff it is not ahead.
* `append_ahead_commits` : an append ahead of its stream is accepted.
-/

namespace EventStore

variable {κ : Columns} {D : Dialect κ} {H : Hasher} {E : Engine}

/-! ### The rows of a batch -/

namespace Written

variable {p : AppendParams} {i : ℕ} {prev : Bytes} {seq : ℕ} {evs : List EventToAppend}
  {rows : List (EventRow κ)}

theorem map_version (h : Written D H E p i prev seq evs rows) :
    rows.map EventRow.version = List.range' (p.expectedVersion + i + 1) rows.length := by
  induction h with
  | nil => rfl
  | cons hrow _ ih =>
    obtain ⟨_, _, _, _, -, -, -, -, rfl⟩ := prepareEvent_eq_ok.1 hrow
    rw [List.map_cons, ih]
    rfl

theorem map_eventID (h : Written D H E p i prev seq evs rows) :
    rows.map EventRow.eventID = evs.map EventToAppend.eventID := by
  induction h with
  | nil => rfl
  | cons hrow _ ih =>
    obtain ⟨_, _, _, _, -, -, -, -, rfl⟩ := prepareEvent_eq_ok.1 hrow
    rw [List.map_cons, List.map_cons, ih]
    rfl

theorem length_eq (h : Written D H E p i prev seq evs rows) : rows.length = evs.length := by
  simpa using congrArg List.length h.map_eventID

theorem map_globalPosition (h : Written D H E p i prev seq evs rows) :
    rows.map EventRow.globalPosition = List.range' (seq + 1) rows.length := by
  induction h with
  | nil => rfl
  | cons _ _ ih => rw [List.map_cons, ih]; rfl

theorem seq_lt (h : Written D H E p i prev seq evs rows) : ∀ r ∈ rows, seq < r.globalPosition := by
  intro r hr
  have := List.mem_map_of_mem (f := EventRow.globalPosition) hr
  rw [h.map_globalPosition, List.mem_range'_1] at this
  omega

theorem stream (h : Written D H E p i prev seq evs rows) :
    ∀ r ∈ rows, r.tenantID = p.streamID.tenant ∧ r.streamID = p.streamID.canonical := by
  induction h with
  | nil => simp
  | cons hrow _ ih =>
    obtain ⟨_, _, _, _, -, -, -, -, rfl⟩ := prepareEvent_eq_ok.1 hrow
    exact List.forall_mem_cons.2 ⟨⟨rfl, rfl⟩, ih⟩

/-- Every row of a batch stores a digest. -/
theorem hash_size (h : Written D H E p i prev seq evs rows) :
    ∀ r ∈ rows, ∃ d, r.hash = some d ∧ d.length = 32 := by
  induction h with
  | nil => simp
  | cons hrow _ ih =>
    obtain ⟨_, d, _, _, -, hd, -, -, rfl⟩ := prepareEvent_eq_ok.1 hrow
    exact List.forall_mem_cons.2 ⟨⟨d, rfl, (computeChainHash_size hd).2⟩, ih⟩

/-- The rows hold the events under their types and schema versions. -/
theorem payload (h : Written D H E p i prev seq evs rows) :
    List.Forall₂ (fun ev r => r.typeURL = ev.typeURL ∧
      UInt32.ofInt r.schemaVersion = ev.schemaVersion ∧ r.payload = ev.payload) evs rows := by
  induction h with
  | nil => exact .nil
  | cons hrow _ ih =>
    obtain ⟨_, _, _, _, -, -, -, -, rfl⟩ := prepareEvent_eq_ok.1 hrow
    exact .cons ⟨rfl, D.ofInt_schemaColumn _, rfl⟩ ih

end Written

/-! ### Streams -/

/-- How a stream is named in the tables. -/
def StreamID.key (sid : StreamID) : String × String := (sid.tenant, sid.canonical)

/-- Valid identities with the same key are the same identity. -/
theorem StreamID.eq_of_key_eq {s s' : StreamID} (h : s.Valid) (h' : s'.Valid)
    (hk : s.key = s'.key) : s = s' :=
  StreamID.eq_of_canonical_eq h h' (Prod.mk.inj hk).1 (Prod.mk.inj hk).2

theorem EventRow.inStream_iff {sid : StreamID} {r : EventRow κ} :
    r.inStream sid = true ↔ sid.key = (r.tenantID, r.streamID) := by
  rw [EventRow.inStream, Bool.and_eq_true, beq_iff_eq, beq_iff_eq, StreamID.key, Prod.mk.injEq,
    eq_comm, eq_comm (a := r.streamID)]

namespace Db

variable {db db' : Db κ} {sid sid' : StreamID}

theorem stream_congr (h : sid.key = sid'.key) : db.stream sid = db.stream sid' := by
  unfold stream
  congr 1
  funext r
  rw [Bool.eq_iff_iff, EventRow.inStream_iff, EventRow.inStream_iff, h]

/-- The versions of the stream are `1, ..., n`, in insertion order. -/
def Dense (db : Db κ) (sid : StreamID) : Prop :=
  (db.stream sid).map EventRow.version = List.range' 1 (db.stream sid).length

/-- `CurrentStreamVersion`: `COALESCE(MAX(version), 0)`. -/
def currentStreamVersion (db : Db κ) (sid : StreamID) : ℕ :=
  ((db.stream sid).map EventRow.version).foldl max 0

theorem foldl_max_range' (n m a : ℕ) (h : m ≤ a) :
    (List.range' a n).foldl max m = if n = 0 then m else a + n - 1 := by
  induction n generalizing m a with
  | zero => simp
  | succ n ih =>
    rw [List.range'_succ, List.foldl_cons, Nat.max_eq_right h, ih a (a + 1) (Nat.le_succ a),
      if_neg (Nat.succ_ne_zero n)]
    split_ifs <;> omega

theorem Dense.currentStreamVersion_eq (h : db.Dense sid) :
    db.currentStreamVersion sid = (db.stream sid).length := by
  rw [currentStreamVersion, h, foldl_max_range' _ _ _ (Nat.zero_le 1)]
  split_ifs <;> omega

theorem Dense.version_le (h : db.Dense sid) {r : EventRow κ} (hr : r ∈ db.stream sid) :
    1 ≤ r.version ∧ r.version ≤ (db.stream sid).length := by
  have := List.mem_map_of_mem (f := EventRow.version) hr
  rw [h, List.mem_range'_1] at this
  omega

theorem Dense.exists_version (h : db.Dense sid) {v : ℕ} (h₁ : 1 ≤ v)
    (h₂ : v ≤ (db.stream sid).length) : ∃ r ∈ db.stream sid, r.version = v := by
  have : v ∈ (db.stream sid).map EventRow.version := by
    rw [h, List.mem_range'_1]
    omega
  exact List.mem_map.1 this

/-- On a dense stream the order of the versions is the order of insertion. -/
theorem Dense.streamRows_eq (h : db.Dense sid) : db.streamRows sid = db.stream sid := by
  apply Table.select_eq_filter
  have : (List.range' 1 (db.stream sid).length).Pairwise (· ≤ ·) := List.pairwise_le_range'
  rw [← h, List.pairwise_map] at this
  exact this

/-- On a dense stream the versions are in the order of the positions. -/
theorem Dense.position_lt (h : db.Dense sid) {r r' : EventRow κ} (hr : r ∈ db.stream sid)
    (hr' : r' ∈ db.stream sid) (hlt : r.version < r'.version) :
    r.globalPosition < r'.globalPosition := by
  have hver : (List.range' 1 (db.stream sid).length).Pairwise (· < ·) := List.pairwise_lt_range'
  rw [← h, List.pairwise_map] at hver
  -- of two rows of the stream either may come first
  have hfst : (db.stream sid).Pairwise fun a b =>
      a.version < b.version → a.globalPosition < b.globalPosition :=
    (db.pairwise_globalPosition_stream sid).imp
      fun {a b} (h : a.globalPosition < b.globalPosition) _ => h
  have hsnd : (db.stream sid).Pairwise fun a b =>
      b.version < a.version → b.globalPosition < a.globalPosition :=
    hver.imp fun hv hv' => absurd hv' (Nat.lt_asymm hv)
  exact hfst.forall_of_forall_of_flip (fun _ _ h => absurd h (Nat.lt_irrefl _)) hsnd hr hr' hlt

theorem SameTables.dense (h : db.SameTables db') (hd : db.Dense sid) : db'.Dense sid := by
  rwa [Dense, h.stream_eq]

theorem dense_empty : (empty : Db κ).Dense sid := rfl

end Db

/-! ### The law of optimistic concurrency -/

namespace Appended

variable {p : AppendParams} {db db' : Db κ} {rows : List (EventRow κ)} {sid : StreamID}

/-- The stream of the append gets the new rows. -/
theorem stream_key (h : Appended D H E p db db' rows) (hk : sid.key = p.streamID.key) :
    db'.stream sid = db.stream sid ++ rows := by
  have hall : rows.filter (EventRow.inStream sid) = rows := by
    refine List.filter_eq_self.2 fun r hr => ?_
    obtain ⟨ht, hs⟩ := h.written.stream r hr
    rw [EventRow.inStream_iff, hk, ht, hs]
    rfl
  rw [Db.stream, h.events, List.filter_append, hall]
  rfl

/-- The other streams stay as they are. -/
theorem stream_ne (h : Appended D H E p db db' rows) (hk : sid.key ≠ p.streamID.key) :
    db'.stream sid = db.stream sid := by
  have hnone : rows.filter (EventRow.inStream sid) = [] := by
    refine List.filter_eq_nil_iff.2 fun r hr hin => hk ?_
    obtain ⟨ht, hs⟩ := h.written.stream r hr
    rw [EventRow.inStream_iff.1 hin, ht, hs]
    rfl
  rw [Db.stream, h.events, List.filter_append, hnone, List.append_nil]
  rfl

theorem rows_ne_nil (h : Appended D H E p db db' rows) : rows ≠ [] := by
  intro hr
  have := h.written.length_eq
  rw [hr] at this
  exact h.nonempty (List.length_eq_zero_iff.1 this.symm)

/-- **On a dense stream, an append that is not ahead of the stream commits only at its head.** -/
theorem expected_eq (h : Appended D H E p db db' rows) (hd : db.Dense p.streamID)
    (hle : p.expectedVersion ≤ (db.stream p.streamID).length) :
    p.expectedVersion = (db.stream p.streamID).length := by
  by_contra hne
  -- the first new row has a version that the stream holds already
  obtain ⟨r, hr, hrv⟩ := hd.exists_version (Nat.le_add_left 1 p.expectedVersion) (by omega)
  have hv := h.written.map_version
  have hu := db'.nodup_version_stream p.streamID
  rw [h.stream_key rfl, List.map_append, List.nodup_append] at hu
  refine hu.2.2 _ (List.mem_map_of_mem hr) _ ?_ rfl
  rw [hv, hrv, List.mem_range'_1]
  have := List.length_pos_of_ne_nil h.rows_ne_nil
  omega

/-- An append at the head keeps the stream dense. -/
theorem dense (h : Appended D H E p db db' rows) (hd : ∀ sid, db.Dense sid)
    (hle : p.expectedVersion ≤ (db.stream p.streamID).length) (sid : StreamID) : db'.Dense sid := by
  by_cases hk : sid.key = p.streamID.key
  · have he := h.expected_eq (hd _) hle
    rw [← Db.stream_congr hk] at he
    rw [Db.Dense, h.stream_key hk, List.map_append, hd sid, h.written.map_version,
      List.length_append, ← List.range'_append_1, he, Nat.add_zero, Nat.add_comm 1]
  · rw [Db.Dense, h.stream_ne hk]
    exact hd sid

end Appended

/-! ### What any append does to the log -/

/-- The log after an append that added `rows`. -/
structure Db.Grown (db db' : Db κ) (rows : List (EventRow κ)) : Prop where
  events : db'.events.rows = db.events.rows ++ rows
  seq_le : db.seq ≤ db'.seq
  fresh : ∀ r ∈ rows, db.seq < r.globalPosition

theorem Db.append_grown {p : AppendParams} {db : Db κ} :
    ∃ rows, db.Grown (append D H E p db).2 rows := by
  rcases hres : append D H E p db with ⟨e | res, db'⟩
  · refine ⟨[], ?_, append_error_seq hres, fun r hr => absurd hr List.not_mem_nil⟩
    rw [(append_error hres).1, List.append_nil]
  · obtain ⟨rows, ha⟩ := append_ok hres
    refine ⟨rows, ha.events, ?_, ha.written.seq_lt⟩
    rw [ha.seq]
    exact Nat.le_add_right ..

/-! ### Appends that commit -/

section Commits

variable (D H) in
/-- Everything in the call can be brought into its column and into the hash. -/
structure Encodes (p : AppendParams) : Prop where
  actor : ∀ ev ∈ p.events, ∃ a, D.encodeActor ev.actor = .ok a
  payloadJSON : ∀ ev ∈ p.events, ∃ j, D.storeJSON ev.payloadJSON = .ok j
  keyRefs : ∀ ev ∈ p.events, ∃ j, D.storeJSON ev.keyRefs = .ok j
  marshal : ∀ ev ∈ p.events, ∀ v, ∃ b, H.marshal (hashSubset (chainEnv p v ev)) = .ok b
  state : ∀ b, p.newStateBytes = some b → ∃ s, D.storeState (some b) = .ok s

/-- The tables have room for the events `evs` of the batch, the `i`-th of it on. -/
structure Free (p : AppendParams) (i : ℕ) (evs : List EventToAppend) (db : Db κ) : Prop where
  nodup : (evs.map EventToAppend.eventID).Nodup
  eventID : ∀ r ∈ db.events.rows, r.tenantID = p.streamID.tenant →
    r.eventID ∉ evs.map EventToAppend.eventID
  version : ∀ r ∈ db.stream p.streamID, r.version ≤ p.expectedVersion + i
  outbox : ∀ o ∈ db.outbox.rows, o.globalPosition ≤ db.seq

variable {p : AppendParams} {db db' : Db κ} {i : ℕ} {prev : Bytes} {ev : EventToAppend}
  {evs : List EventToAppend} {row : EventRow κ}

theorem statement_sound {α : Type} (hE : E.Sound) (st : Statement)
    (x : Db κ → EStateM.Result DbErr (Db κ) α) : statement E st x db = x db := by
  simp [statement, hE st]

theorem runPreamble_sound (hE : E.Sound) (l : List (Statement × (Err → Err))) :
    runPreamble E l db = .ok () db := by
  induction l with
  | nil => rfl
  | cons x l ih =>
    rw [runPreamble, EStateM.bind_eq_ok]
    exact ⟨(), db, by rw [EStateM.adaptExcept_eq_ok, statement_sound hE], ih⟩

theorem Encodes.prepare (h : Encodes D H p) (hev : ev ∈ p.events) (hp : prev.length = 32) :
    ∃ row, prepareEvent D H E p i prev ev = .ok row := by
  obtain ⟨a, ha⟩ := h.actor ev hev
  obtain ⟨pj, hpj⟩ := h.payloadJSON ev hev
  obtain ⟨kr, hkr⟩ := h.keyRefs ev hev
  obtain ⟨b, hb⟩ := h.marshal ev hev (p.expectedVersion + i + 1)
  exact ⟨_, prepareEvent_eq_ok.2 ⟨a, _, pj, kr, ha,
    (computeChainHash_eq_ok_iff hp).2 ⟨b, hb, rfl⟩, hpj, hkr, rfl⟩⟩

theorem Free.not_clash (h : Free p i (ev :: evs) db)
    (hrow : prepareEvent D H E p i prev ev = .ok row) : ∀ a ∈ db.events.rows, ¬ a.Clash row := by
  obtain ⟨_, _, _, _, -, -, -, -, rfl⟩ := prepareEvent_eq_ok.1 hrow
  rintro a ha ⟨ht, ⟨hs, hv⟩ | hid⟩
  · have := h.version a (Db.mem_stream.2 ⟨ha, ht, hs⟩)
    rw [hv] at this
    exact absurd this (Nat.not_succ_le_self _)
  · refine h.eventID a ha ht ?_
    rw [hid]
    exact List.mem_cons_self

/-- An event with a free version and a free id is inserted. -/
theorem Free.appendEvent (hE : E.Sound) (h : Free p i (ev :: evs) db) {v : LoopVars}
    (hrow : prepareEvent D H E p i v.prevHash ev = .ok row) :
    ∃ v' db', appendEvent D H E p i v ev db = .ok v' db' := by
  obtain ⟨db₁, h₁⟩ : ∃ db₁, db.insertEvent row = some db₁ :=
    Option.ne_none_iff_exists'.1 fun hn => by
      obtain ⟨a, ha, hc⟩ := Db.insertEvent_eq_none_iff.1 hn
      exact h.not_clash hrow a ha hc
  obtain ⟨-, ho, -, -, -⟩ := Db.insertEvent_eq_some h₁
  -- the position is a new one, so no outbox row has it
  obtain ⟨t, ht⟩ : ∃ t, db₁.outbox.insert ⟨p.streamID.tenant, db.seq + 1, ev.eventID⟩ = some t :=
    Option.ne_none_iff_exists'.1 fun hn => by
      obtain ⟨a, ha, -, hc⟩ := Table.insert_eq_none_iff.1 hn
      have := h.outbox a (ho ▸ ha)
      rw [hc] at this
      exact absurd this (Nat.not_succ_le_self _)
  refine ⟨⟨row.hash.getD [], if i = 0 then db.seq + 1 else v.startPos, db.seq + 1,
    D.stamp E.clock i⟩, { db₁ with outbox := t }, ?_⟩
  simp only [EventStore.appendEvent, EStateM.bind_eq_ok, EStateM.ofExcept_eq_ok,
    EStateM.adaptExcept_eq_ok, insertEvent, insertOutbox, statement_sound hE, EStateM.pure_eq_ok]
  exact ⟨row, db, ⟨hrow, rfl⟩, db.seq + 1, db₁, by rw [h₁], (), _, by rw [ht], rfl, rfl⟩

/-- The rest of the batch still finds room. -/
theorem Free.next {v v' : LoopVars} (h : Free p i (ev :: evs) db)
    (ha : EventStore.appendEvent D H E p i v ev db = .ok v' db') : Free p (i + 1) evs db' := by
  obtain ⟨row, hrow, -, he, ho, -, -, hq⟩ := appendEvent_ok ha
  obtain ⟨_, _, _, _, -, -, -, -, rfl⟩ := prepareEvent_eq_ok.1 hrow
  obtain ⟨hnot, hnodup⟩ := List.nodup_cons.1 h.nodup
  -- in each table the rows are those of before and the new one
  refine ⟨hnodup, fun r hr ht => ?_, fun r hr => ?_, fun o ho' => ?_⟩
  · rw [he, List.mem_append, List.mem_singleton] at hr
    rcases hr with hr | rfl
    · exact fun hin => h.eventID r hr ht (List.mem_cons_of_mem _ hin)
    · exact hnot
  · obtain ⟨hr, hs⟩ := Db.mem_stream.1 hr
    rw [he, List.mem_append, List.mem_singleton] at hr
    rcases hr with hr | rfl
    · have := h.version r (Db.mem_stream.2 ⟨hr, hs⟩)
      omega
    · exact le_refl _
  · rw [ho, List.mem_append, List.mem_singleton] at ho'
    rcases ho' with ho' | rfl
    · have := h.outbox o ho'
      omega
    · exact hq.ge

theorem Free.appendEvents (hE : E.Sound) (henc : Encodes D H p) {v : LoopVars}
    (hsub : evs ⊆ p.events) (h : Free p i evs db) (hv : v.prevHash.length = 32) :
    ∃ v' db', appendEvents D H E p i v evs db = .ok v' db' := by
  induction evs generalizing i v db with
  | nil => exact ⟨v, db, rfl⟩
  | cons ev evs ih =>
    obtain ⟨hev, hsub⟩ := List.cons_subset.1 hsub
    obtain ⟨row, hrow⟩ := henc.prepare hev hv
    obtain ⟨v₁, db₁, h₁⟩ := h.appendEvent hE hrow
    -- the next event is linked to a digest
    have hv₁ : v₁.prevHash.length = 32 := by
      obtain ⟨row', hrow', hv₁, -⟩ := appendEvent_ok h₁
      obtain ⟨_, d, _, _, -, hd, -, -, rfl⟩ := prepareEvent_eq_ok.1 hrow'
      rw [hv₁]
      exact (computeChainHash_size hd).2
    obtain ⟨v₂, db₂, h₂⟩ := ih hsub (h.next h₁) hv₁
    exact ⟨v₂, db₂, EStateM.bind_eq_ok.2 ⟨v₁, db₁, h₁, h₂⟩⟩

/-- Without constraint operations and without engine faults, the body is the loop over the events
and the state. -/
theorem appendBody_eq (hE : E.Sound) (hc : p.constraints = []) :
    appendBody D H E p db =
      (do
        let v ← EventStore.appendEvents D H E p 0 ⟨db.predecessorHash p.streamID, 0, 0, 0⟩ p.events
        cacheState D E p
        return appendResult p v : Tx κ AppendResult) db := by
  simp only [appendBody, hc, applyConstraints, bind, EStateM.bind, runPreamble_sound hE, pure,
    EStateM.pure, EStateM.adaptExcept, statement_sound hE]

theorem append_eq_withTx (hv : p.streamID.Valid) (hne : p.events ≠ []) :
    append D H E p db = withTx D E (appendBody D H E p) db := by
  have hv' : p.streamID.validate = .ok () := hv
  simp [append, hv', hne]

theorem cacheState_commits (hE : E.Sound) (henc : Encodes D H p) :
    ∃ db', cacheState D E p db = .ok () db' := by
  cases hb : p.newStateBytes with
  | none => exact ⟨db, by simp [cacheState, hb]⟩
  | some b =>
    obtain ⟨s, hs⟩ := henc.state b hb
    refine ⟨{ db with stateCache := db.stateCache.upsert (stateCacheRow D E p s) }, ?_⟩
    simp only [cacheState, hb, EStateM.adaptExcept_eq_ok, upsertStateCache, statement_sound hE, hs]

/-- **An append that finds room commits.** -/
theorem append_commits (hE : E.Sound) (hv : p.streamID.Valid) (hne : p.events ≠ [])
    (hc : p.constraints = []) (henc : Encodes D H p) (h : Free p 0 p.events db)
    (hp : (db.predecessorHash p.streamID).length = 32) :
    ∃ r db', append D H E p db = (.ok r, db') := by
  obtain ⟨v, db₁, h₁⟩ : ∃ v db₁, EventStore.appendEvents D H E p 0
      ⟨db.predecessorHash p.streamID, 0, 0, 0⟩ p.events db = .ok v db₁ :=
    h.appendEvents hE henc (List.Subset.refl _) hp
  obtain ⟨db₂, h₂⟩ : ∃ db₂, cacheState D E p db₁ = .ok () db₂ := cacheState_commits hE henc
  refine ⟨appendResult p v, db₂, ?_⟩
  rw [append_eq_withTx hv hne, withTx, appendBody_eq hE hc]
  simp only [bind, EStateM.bind, h₁, h₂, pure, EStateM.pure, hE .commit]

/-- **An append whose first version is taken is a conflict.** -/
theorem append_conflict (hE : E.Sound) (hv : p.streamID.Valid) (hne : p.events ≠ [])
    (hc : p.constraints = []) (henc : Encodes D H p)
    (hp : (db.predecessorHash p.streamID).length = 32) {a : EventRow κ}
    (ha : a ∈ db.stream p.streamID) (hav : a.version = p.expectedVersion + 1) :
    (append D H E p db).1 = .error (.sentinel .conflict) := by
  obtain ⟨ev, evs, hev⟩ := List.exists_cons_of_ne_nil hne
  obtain ⟨row, hrow⟩ := henc.prepare (E := E) (i := 0) (hev ▸ List.mem_cons_self) hp
  -- the first event of the batch meets the primary key
  have hnone : db.insertEvent row = none := by
    obtain ⟨ha, ht, hs⟩ := Db.mem_stream.1 ha
    obtain ⟨_, _, _, _, -, -, -, -, rfl⟩ := prepareEvent_eq_ok.1 hrow
    exact Db.insertEvent_eq_none_iff.2 ⟨a, ha, ht, Or.inl ⟨hs, hav⟩⟩
  rw [append_eq_withTx hv hne, withTx, appendBody_eq hE hc]
  simp only [hev, EventStore.appendEvents, EventStore.appendEvent, bind, EStateM.bind,
    EStateM.ofExcept, hrow, EStateM.adaptExcept, insertEvent, statement_sound hE, hnone, mapErr]

end Commits

/-! ### Stores that appends have filled -/

/-- What holds of a store whose appends were never ahead of their stream. -/
structure Db.Wf (db : Db κ) : Prop where
  /-- The versions of every stream are `1, ..., n`. -/
  dense : ∀ sid, db.Dense sid
  /-- Every event stores a digest. -/
  hash_size : ∀ r ∈ db.events.rows, ∃ d, r.hash = some d ∧ d.length = 32
  /-- Positions are drawn from 1 on. -/
  position_pos : ∀ r ∈ db.events.rows, 0 < r.globalPosition
  /-- Outbox rows are of positions that have been drawn. -/
  outbox_le : ∀ o ∈ db.outbox.rows, o.globalPosition ≤ db.seq
  /-- A cached state is not ahead of its stream. -/
  cache_le : ∀ r ∈ db.stateCache.rows, ∀ sid, r.ofStream sid = true →
    r.version ≤ (db.stream sid).length

theorem StateCacheRow.ofStream_iff {sid : StreamID} {r : StateCacheRow κ} :
    r.ofStream sid = true ↔ sid.key = (r.tenantID, r.streamID) := by
  rw [StateCacheRow.ofStream, Bool.and_eq_true, beq_iff_eq, beq_iff_eq, StreamID.key,
    Prod.mk.injEq, eq_comm, eq_comm (a := r.streamID)]

namespace Db.Wf

variable {p : AppendParams} {db db' : Db κ} {rows : List (EventRow κ)} {sid : StreamID}

theorem empty : (Db.empty : Db κ).Wf :=
  ⟨fun _ => Db.dense_empty, by simp [Db.empty], by simp [Db.empty], by simp [Db.empty],
    by simp [Db.empty]⟩

theorem sameTables (h : db.Wf) (hs : db.SameTables db') (hq : db.seq ≤ db'.seq) : db'.Wf where
  dense sid := hs.dense (h.dense sid)
  hash_size r hr := h.hash_size r (hs.1 ▸ hr)
  position_pos r hr := h.position_pos r (hs.1 ▸ hr)
  outbox_le o ho := (h.outbox_le o (hs.2.1 ▸ ho)).trans hq
  cache_le r hr sid hk := by
    rw [hs.stream_eq]
    exact h.cache_le r (hs.2.2.2 ▸ hr) sid hk

/-- Streams only grow. -/
theorem length_stream_le (ha : Appended D H E p db db' rows) :
    (db.stream sid).length ≤ (db'.stream sid).length := by
  by_cases hk : sid.key = p.streamID.key
  · simp [ha.stream_key hk]
  · rw [ha.stream_ne hk]

theorem appended (h : db.Wf) (hle : p.expectedVersion ≤ (db.stream p.streamID).length)
    (ha : Appended D H E p db db' rows) : db'.Wf where
  dense := ha.dense h.dense hle
  hash_size r hr := by
    rw [ha.events, List.mem_append] at hr
    exact hr.elim (h.hash_size r) (ha.written.hash_size r)
  position_pos r hr := by
    rw [ha.events, List.mem_append] at hr
    exact hr.elim (h.position_pos r) fun hr => Nat.zero_lt_of_lt (ha.written.seq_lt r hr)
  outbox_le o ho := by
    rw [ha.outbox, List.mem_append, List.mem_map] at ho
    rcases ho with ho | ⟨r, hr, rfl⟩
    · exact (h.outbox_le o ho).trans (by rw [ha.seq]; omega)
    · exact Db.position_le_seq (ha.events ▸ List.mem_append_right _ hr)
  cache_le r hr sid hk := by
    rcases ha.stateCache with ⟨hc, -⟩ | ⟨b, s, -, -, hc⟩
    · exact (h.cache_le r (hc ▸ hr) sid hk).trans (length_stream_le ha)
    · rw [hc, Table.mem_upsert] at hr
      rcases hr with rfl | ⟨hr, -⟩
      · -- the new row is at the new head
        have hkey : sid.key = p.streamID.key := StateCacheRow.ofStream_iff.1 hk
        have he := ha.expected_eq (h.dense _) hle
        rw [ha.stream_key hkey, Db.stream_congr hkey, List.length_append, ha.written.length_eq,
          ← he]
        exact le_refl _
      · exact (h.cache_le r hr sid hk).trans (length_stream_le ha)

theorem append (h : db.Wf) (hle : p.expectedVersion ≤ (db.stream p.streamID).length) :
    (append D H E p db).2.Wf := by
  rcases hres : EventStore.append D H E p db with ⟨r | r, db'⟩
  · exact h.sameTables (append_error hres) (append_error_seq hres)
  · obtain ⟨rows, ha⟩ := append_ok hres
    exact h.appended hle ha

theorem predecessorHash_size (h : db.Wf) : (db.predecessorHash sid).length = 32 := by
  unfold Db.predecessorHash
  dsimp only
  split_ifs with h0
  · exact length_zeroHash
  · rw [Db.lastStreamHash, (h.dense sid).streamRows_eq] at h0 ⊢
    cases hl : (db.stream sid).getLast? with
    | none => simp [hl] at h0
    | some r =>
      obtain ⟨d, hd, hlen⟩ := h.hash_size r (Db.mem_stream.1 (List.mem_of_getLast? hl)).1
      simp [hd, hlen]

/-- A batch of fresh events at the head of its stream, or ahead of it, finds room. -/
theorem free (h : db.Wf) (hnodup : (p.events.map EventToAppend.eventID).Nodup)
    (hfresh : ∀ r ∈ db.events.rows, r.tenantID = p.streamID.tenant →
      r.eventID ∉ p.events.map EventToAppend.eventID)
    (hge : (db.stream p.streamID).length ≤ p.expectedVersion) : Free p 0 p.events db :=
  ⟨hnodup, hfresh, fun _ hr => ((h.dense _).version_le hr).2.trans hge, h.outbox_le⟩

end Db.Wf

/-! ### Runs of direct appends -/

variable (D H) in
/-- Calls of `Append` one after the other, from the database the migrations leave. -/
def appendSystem : TS (Db κ) (Engine × AppendParams) where
  init db := db = Db.empty
  step db c db' := db' = (append D H c.1 c.2 db).2

variable (D H) in
/-- A direct call: a non-empty batch of fresh event ids without constraint operations, which
encodes, on an engine that does its work. -/
structure DirectCall (db : Db κ) (E : Engine) (p : AppendParams) : Prop where
  sound : E.Sound
  valid : p.streamID.Valid
  expectedVersion_lt : p.expectedVersion < 2 ^ 62
  nonempty : p.events ≠ []
  constraints : p.constraints = []
  nodup : (p.events.map EventToAppend.eventID).Nodup
  fresh : ∀ r ∈ db.events.rows, r.tenantID = p.streamID.tenant →
    r.eventID ∉ p.events.map EventToAppend.eventID
  encodes : Encodes D H p

variable (D H) in
/-- The law of optimistic concurrency for one call: it commits iff `ExpectedVersion` is the current
version of the stream, and otherwise it returns `ErrConflict` and changes nothing. -/
def OccLaw (E : Engine) (p : AppendParams) (db : Db κ) : Prop :=
  ((∃ r, (append D H E p db).1 = .ok r) ↔
      p.expectedVersion = db.currentStreamVersion p.streamID) ∧
    (p.expectedVersion ≠ db.currentStreamVersion p.streamID →
      (append D H E p db).1 = .error (.sentinel .conflict) ∧
        db.SameTables (append D H E p db).2)

section Law

variable {p : AppendParams} {db : Db κ}

/-- At the head, and ahead of it, the call commits. -/
theorem DirectCall.commits (hc : DirectCall D H db E p) (h : db.Wf)
    (hge : db.currentStreamVersion p.streamID ≤ p.expectedVersion) :
    ∃ r, (append D H E p db).1 = .ok r := by
  rw [(h.dense _).currentStreamVersion_eq] at hge
  obtain ⟨r, db', hr⟩ := append_commits hc.sound hc.valid hc.nonempty hc.constraints hc.encodes
    (h.free hc.nodup hc.fresh hge) h.predecessorHash_size
  exact ⟨r, by rw [hr]⟩

/-- Behind the head the call is a conflict. -/
theorem DirectCall.conflicts (hc : DirectCall D H db E p) (h : db.Wf)
    (hlt : p.expectedVersion < db.currentStreamVersion p.streamID) :
    (append D H E p db).1 = .error (.sentinel .conflict) := by
  rw [(h.dense _).currentStreamVersion_eq] at hlt
  obtain ⟨a, ha, hav⟩ := (h.dense _).exists_version (Nat.le_add_left 1 p.expectedVersion) hlt
  exact append_conflict hc.sound hc.valid hc.nonempty hc.constraints hc.encodes
    h.predecessorHash_size ha hav

/-- The law holds of exactly the calls that are not ahead of their stream. -/
theorem DirectCall.occLaw_iff (hc : DirectCall D H db E p) (h : db.Wf) :
    OccLaw D H E p db ↔ p.expectedVersion ≤ db.currentStreamVersion p.streamID := by
  constructor
  · -- a call ahead of the stream commits all the same
    intro hlaw
    by_contra hlt
    exact hlt (hlaw.1.1 (hc.commits h (Nat.le_of_not_le hlt))).le
  · intro hle
    rcases Nat.lt_or_eq_of_le hle with hlt | heq
    · have hconf := hc.conflicts h hlt
      refine ⟨⟨fun ⟨r, hr⟩ => ?_, fun he => absurd he hlt.ne⟩, fun _ => ⟨hconf, ?_⟩⟩
      · rw [hconf] at hr
        cases hr
      · exact append_error (Prod.ext hconf rfl)
    · exact ⟨⟨fun _ => heq, fun _ => hc.commits h heq.ge⟩, fun hne => absurd heq hne⟩

variable (D H) in
/-- The call is one of the direct calls, and it is not ahead of its stream. -/
def NotAhead (db : Db κ) (c : Engine × AppendParams) : Prop :=
  DirectCall D H db c.1 c.2 ∧ c.2.expectedVersion ≤ db.currentStreamVersion c.2.streamID

theorem wf_of_notAhead (h : ((appendSystem D H).restrict (NotAhead D H)).Reachable db) : db.Wf := by
  refine h.invariant (fun db h₀ => ?_) fun db c db' _ hwf hstep => ?_
  · exact h₀ ▸ Db.Wf.empty
  · obtain ⟨⟨-, hle⟩, rfl⟩ := hstep
    rw [(hwf.dense _).currentStreamVersion_eq] at hle
    exact hwf.append hle

/-- **Optimistic concurrency of direct appends.**  In every run of direct calls none of which is
ahead of its stream, every stream has the versions `1, ..., n`, the order of the versions is the
order of the positions, and the next call obeys the law iff it is not ahead either. -/
theorem append_law (h : ((appendSystem D H).restrict (NotAhead D H)).Reachable db) :
    (∀ sid, (db.streamRows sid).map EventRow.version =
          List.range' 1 (db.currentStreamVersion sid) ∧
        (db.streamRows sid).Pairwise fun a b => a.globalPosition < b.globalPosition) ∧
      ∀ E p, DirectCall D H db E p →
        (OccLaw D H E p db ↔ p.expectedVersion ≤ db.currentStreamVersion p.streamID) := by
  have hwf := wf_of_notAhead h
  refine ⟨fun sid => ?_, fun E p hc => hc.occLaw_iff hwf⟩
  have hd := hwf.dense sid
  rw [hd.streamRows_eq, hd.currentStreamVersion_eq]
  exact ⟨hd, db.pairwise_globalPosition_stream sid⟩

/-- An event with nothing but an id. -/
def EventToAppend.bare (id : String) : EventToAppend where
  eventID := ⟨id⟩
  typeURL := ""
  schemaVersion := 1
  occurredAt := 0
  correlationID := ⟨""⟩
  causationID := ⟨""⟩
  commandID := ⟨""⟩
  actor := .zero
  payload := []
  payloadJSON := none
  keyRefs := none

/-- A batch of one bare event for the stream `order:1`. -/
def AppendParams.bare (expectedVersion : ℕ) (id : String) : AppendParams where
  streamID := ⟨"acme", "order", "1"⟩
  expectedVersion := expectedVersion
  events := [.bare id]
  constraints := []
  newStateBytes := none
  stateTypeURL := ""
  stateSchemaVersion := 0
  terminal := false

theorem encodes_bare (v : ℕ) (id : String) :
    Encodes (Sqlite.dialect .small) .small (.bare v id) := by
  constructor <;> simp [AppendParams.bare, EventToAppend.bare, Sqlite.dialect, Sqlite.encodeActor,
    Sqlite.Library.small, Hasher.small, Except.mapError]

theorem directCall_bare {db : Db (Sqlite.columns Bytes)} {v : ℕ} {id : String} (hv : v < 2 ^ 62)
    (hid : ∀ r ∈ db.events.rows, r.eventID ≠ ⟨id⟩) :
    DirectCall (Sqlite.dialect .small) .small db .calm (.bare v id) where
  sound _ := rfl
  valid := show StreamID.Valid ⟨"acme", "order", "1"⟩ by decide
  expectedVersion_lt := hv
  nonempty := by simp [AppendParams.bare]
  constraints := rfl
  nodup := by simp [AppendParams.bare]
  fresh r hr _ := by simpa [AppendParams.bare, EventToAppend.bare] using hid r hr
  encodes := encodes_bare v id

/-- A first append at the head, and what the law says after it. -/
theorem append_law_one :
    let D := Sqlite.dialect .small
    let db := (append D .small .calm (.bare 0 "a") Db.empty).2
    (db.streamRows ⟨"acme", "order", "1"⟩).map EventRow.version = [1] ∧
      OccLaw D .small .calm (.bare 1 "b") db ∧ ¬ OccLaw D .small .calm (.bare 2 "b") db := by
  intro D db
  have h₀ : DirectCall D .small Db.empty .calm (.bare 0 "a") :=
    directCall_bare (by decide) (by simp [Db.empty])
  have hrow : ∀ r ∈ db.events.rows, r.eventID = ⟨"a"⟩ := by decide +kernel
  have hb : ∀ v, v < 2 ^ 62 → DirectCall D .small db .calm (.bare v "b") := fun v hv =>
    directCall_bare hv fun r hr => by rw [hrow r hr]; decide
  have hr : ((appendSystem D .small).restrict (NotAhead D .small)).Reachable db :=
    .step (l := (.calm, .bare 0 "a")) (.init rfl) ⟨⟨h₀, by decide⟩, rfl⟩
  have h := append_law hr
  have hv : db.currentStreamVersion ⟨"acme", "order", "1"⟩ = 1 := by decide +kernel
  refine ⟨hv ▸ (h.1 _).1, (h.2 _ _ (hb 1 (by decide))).2 hv.ge, fun hn => ?_⟩
  have : 2 ≤ 1 := hv ▸ (h.2 _ _ (hb 2 (by decide))).1 hn
  omega

/-- **An append ahead of its stream is accepted.**  A direct call that expects version 1 of an
empty stream commits its event as version 2; a call that expects the empty stream commits as well,
and the event it adds has the lower version and the higher position. -/
theorem append_ahead_commits :
    let D := Sqlite.dialect .small
    let db₁ := (append D .small .calm (.bare 1 "a") Db.empty).2
    let db₂ := (append D .small .calm (.bare 0 "b") db₁).2
    DirectCall D .small Db.empty .calm (.bare 1 "a") ∧
      (append D .small .calm (.bare 1 "a") Db.empty).1 = .ok ⟨2, 2, 1, 1, 0⟩ ∧
      DirectCall D .small db₁ .calm (.bare 0 "b") ∧
      (append D .small .calm (.bare 0 "b") db₁).1 = .ok ⟨1, 1, 2, 2, 0⟩ ∧
      (db₂.streamRows ⟨"acme", "order", "1"⟩).map (fun r => (r.version, r.globalPosition)) =
        [(1, 2), (2, 1)] := by
  intro D db₁ db₂
  have hrow : ∀ r ∈ db₁.events.rows, r.eventID = ⟨"a"⟩ := by decide +kernel
  exact ⟨directCall_bare (by decide) (by simp [Db.empty]), by decide +kernel,
    directCall_bare (by decide) fun r hr => by rw [hrow r hr]; decide, by decide +kernel,
    by decide +kernel⟩

end Law

end EventStore
