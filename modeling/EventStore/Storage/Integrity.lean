import EventStore.Storage.Read

/-!
# The chain of a stored stream

The digest of an event is computed from the event in memory before it is stored, and checked from
the row that is read back.  Verification of a stream succeeds when every hash-covered field
survives its column (`ReadsBack`) and the links of the rows follow the order of the versions.

* `Linked` : each row stores the digest of the row before it.
* `Db.Chained` : every stream reads back as a chain that verifies, and its rows are linked.
* `Db.Chained.append` : **an append keeps the chains**, if it is not ahead of its stream and its
  events read back.
* `Sqlite.chain_verifies` : on SQLite, in every run of appends at the current version.
-/

namespace EventStore

variable {κ : Columns} (D : Dialect κ) (H : Hasher)

/-- The rows are linked: each stores the digest the one before it stores, the first one `prev`. -/
def Linked : Bytes → List (EventRow κ) → Prop
  | _, [] => True
  | prev, r :: rs => r.prevHash = some prev ∧ ∃ d, r.hash = some d ∧ Linked d rs

/-- The hash-covered fields of an event survive their columns, and its row can be read. -/
structure ReadsBack (E : Engine) (i : ℕ) (ev : EventToAppend) : Prop where
  actor : ∀ a, D.encodeActor ev.actor = .ok a → D.decodeActor a = .ok ev.actor
  occurredAt : D.parseTime (D.formatTime ev.occurredAt) = .ok ev.occurredAt
  recordedAt : ∃ t, D.parseTime (D.formatTime (D.stamp E.clock i)) = .ok t
  keyRefs : ∀ j, D.storeJSON ev.keyRefs = .ok j → (D.loadJSON j).getD [] = ev.keyRefs.getD []

/-- Every event of the call reads back. -/
def AppendParams.ReadBack (p : AppendParams) (E : Engine) : Prop :=
  ∀ ev ∈ p.events, ∀ i, ReadsBack D E i ev

/-- Every stream reads back as a chain that verifies, and its rows are linked. -/
def Db.Chained (db : Db κ) : Prop :=
  ∀ sid, sid.Valid → Linked zeroHash (db.stream sid) ∧
    ∃ envs, List.Forall₂ (fun r e => rowToEnvelope D r = .ok e) (db.stream sid) envs ∧
      verifyFrom H zeroHash envs = .ok ()

variable {D H} {E : Engine}

/-! ### Appending to a chain -/

/-- The digest the next row is linked to. -/
def lastHash (prev : Bytes) (rows : List (EventRow κ)) : Bytes :=
  (rows.getLast?.map fun r => r.hash.getD []).getD prev

theorem lastHash_cons (prev : Bytes) (r : EventRow κ) (rows : List (EventRow κ)) :
    lastHash prev (r :: rows) = lastHash (r.hash.getD []) rows := by
  cases rows with
  | nil => rfl
  | cons a as => rw [lastHash, lastHash, List.getLast?_cons_cons, List.getLast?_cons]; rfl

theorem Linked.append {prev : Bytes} {L M : List (EventRow κ)} (hL : Linked prev L)
    (hM : Linked (lastHash prev L) M) : Linked prev (L ++ M) := by
  induction L generalizing prev with
  | nil => exact hM
  | cons r L ih =>
    obtain ⟨hp, d, hd, hL⟩ := hL
    rw [lastHash_cons, hd] at hM
    exact ⟨hp, d, hd, ih hL hM⟩

/-- The envelope holds the digest of its row. -/
theorem hash_of_rowToEnvelope {r : EventRow κ} {e : Envelope} (h : rowToEnvelope D r = .ok e) :
    e.hash = r.hash.getD [] := by
  obtain ⟨_, _, _, _, -, -, -, -, rfl⟩ := rowToEnvelope_eq_ok.1 h
  rfl

theorem verifyFrom_append {prev : Bytes} {L : List (EventRow κ)} {envs envs' : List Envelope}
    (hL : List.Forall₂ (fun r e => rowToEnvelope D r = .ok e) L envs)
    (h : verifyFrom H prev envs = .ok ()) (h' : verifyFrom H (lastHash prev L) envs' = .ok ()) :
    verifyFrom H prev (envs ++ envs') = .ok () := by
  induction hL generalizing prev with
  | nil => exact h'
  | @cons r e L envs hr _ ih =>
    obtain ⟨hc, hes⟩ := verifyFrom_cons_eq_ok_iff.1 h
    rw [lastHash_cons, ← hash_of_rowToEnvelope hr] at h'
    exact verifyFrom_cons_eq_ok_iff.2 ⟨hc, ih hes h'⟩

/-- **What a row reads back as has the hash-covered fields of the event it was written from.** -/
theorem ReadsBack.rowToEnvelope {p : AppendParams} {i : ℕ} {prev : Bytes} {ev : EventToAppend}
    {row : EventRow κ} (hrb : ReadsBack D E i ev) (hv : p.streamID.Valid)
    (hrow : prepareEvent D H E p i prev ev = .ok row) (gp : ℕ) :
    ∃ e, rowToEnvelope D { row with globalPosition := gp } = .ok e ∧ row.hash = some e.hash ∧
      row.prevHash = some prev ∧ computeChainHash H prev e = .ok e.hash := by
  obtain ⟨a, d, pj, kr, ha, hd, -, hkr, rfl⟩ := prepareEvent_eq_ok.1 hrow
  obtain ⟨t, ht⟩ := hrb.recordedAt
  refine ⟨_, rowToEnvelope_eq_ok.2 ⟨p.streamID, ev.actor, ev.occurredAt, t,
    parseCanonical_canonical hv, hrb.actor a ha, hrb.occurredAt, ht, rfl⟩, rfl, rfl, ?_⟩
  -- the digest covers only the fields that survive
  refine (computeChainHash_congr ?_).trans hd
  simp [hashSubset, chainEnv, eventRow, D.ofInt_schemaColumn, hrb.keyRefs kr hkr]

/-- The rows of a batch are linked, and read back as envelopes that verify. -/
theorem Written.chained {p : AppendParams} {i : ℕ} {prev : Bytes} {seq : ℕ}
    {evs : List EventToAppend} {rows : List (EventRow κ)} (h : Written D H E p i prev seq evs rows)
    (hv : p.streamID.Valid) (hrb : ∀ ev ∈ evs, ∀ i, ReadsBack D E i ev) :
    Linked prev rows ∧ ∃ envs, List.Forall₂ (fun r e => rowToEnvelope D r = .ok e) rows envs ∧
      verifyFrom H prev envs = .ok () := by
  induction h with
  | nil => exact ⟨trivial, [], .nil, rfl⟩
  | @cons i prev seq ev evs row rows hrow _ ih =>
    obtain ⟨hev, hevs⟩ := List.forall_mem_cons.1 hrb
    obtain ⟨e, he, hhash, hprev, hc⟩ := (hev i).rowToEnvelope hv hrow (seq + 1)
    obtain ⟨hlink, envs, henvs, hver⟩ := ih hevs
    rw [hhash, Option.getD_some] at hlink hver
    exact ⟨⟨hprev, e.hash, hhash, hlink⟩, e :: envs, .cons he henvs,
      verifyFrom_cons_eq_ok_iff.2 ⟨hc, hver⟩⟩

namespace Db

variable {db db' : Db κ} {p : AppendParams} {rows : List (EventRow κ)} {sid : StreamID}

/-- The first event of a batch is linked to the last row of the stream, if that one has a
digest. -/
theorem Dense.predecessorHash_eq (h : db.Dense sid)
    (hsize : ∀ r ∈ (db.stream sid).getLast?, ∃ d, r.hash = some d ∧ d.length = 32) :
    db.predecessorHash sid = lastHash zeroHash (db.stream sid) := by
  unfold predecessorHash lastStreamHash lastHash
  rw [h.streamRows_eq]
  cases hl : (db.stream sid).getLast? with
  | none => simp
  | some r =>
    obtain ⟨d, hd, hlen⟩ := hsize r hl
    simp [hd, hlen]

theorem Wf.predecessorHash_eq (h : db.Wf) :
    db.predecessorHash sid = lastHash zeroHash (db.stream sid) :=
  (h.dense sid).predecessorHash_eq fun r hr =>
    h.hash_size r (mem_stream.1 (List.mem_of_getLast? hr)).1

theorem chained_empty : (empty : Db κ).Chained D H :=
  fun _ _ => ⟨trivial, [], .nil, rfl⟩

theorem Chained.of_events_eq (hc : db.Chained D H) (he : db'.events = db.events) :
    db'.Chained D H := by
  intro sid hsid
  rw [Db.stream, he]
  exact hc sid hsid

theorem Chained.appended (hc : db.Chained D H) (h : db.Wf) (ha : Appended D H E p db db' rows)
    (hrb : p.ReadBack D E) : db'.Chained D H := by
  intro sid hsid
  obtain ⟨hlink, envs, henvs, hver⟩ := hc sid hsid
  by_cases hk : sid.key = p.streamID.key
  · have heq := StreamID.eq_of_key_eq hsid ha.valid hk
    subst heq
    obtain ⟨hlink', envs', henvs', hver'⟩ := ha.written.chained ha.valid hrb
    -- the batch is linked to the last row of the stream, so the two chains join
    rw [h.predecessorHash_eq] at hlink' hver'
    rw [ha.stream_key rfl]
    exact ⟨hlink.append hlink', envs ++ envs', List.rel_append henvs henvs',
      verifyFrom_append henvs hver hver'⟩
  · rw [ha.stream_ne hk]
    exact ⟨hlink, envs, henvs, hver⟩

/-- **An append keeps the chains.** -/
theorem Chained.append (hc : db.Chained D H) (h : db.Wf) (hrb : p.ReadBack D E) :
    (EventStore.append D H E p db).2.Chained D H := by
  rcases hres : EventStore.append D H E p db with ⟨e | r, db'⟩
  · exact hc.of_events_eq (append_error hres).1
  · obtain ⟨rows, ha⟩ := append_ok hres
    exact hc.appended h ha hrb

/-- The chain of a stored stream verifies. -/
theorem Chained.verifyStreamChain (hc : db.Chained D H) (h : db.Wf) (hsid : sid.Valid) :
    verifyStreamChain H (readStream D db) sid = .ok () := by
  obtain ⟨-, envs, henvs, hver⟩ := hc sid hsid
  exact Except.bind_eq_ok.2 ⟨envs, (readStream_eq_ok (h.dense sid)).2 ⟨hsid, henvs⟩, hver⟩

end Db

/-! ### SQLite -/

namespace Sqlite

/-- The times of the years 0001 to 9999, which RFC 3339 can write. -/
def ValidTime (t : Time) : Prop :=
  -62135596800 * 10 ^ 9 ≤ t ∧ t < 253402300800 * 10 ^ 9

instance (t : Time) : Decidable (ValidTime t) :=
  inferInstanceAs (Decidable (-62135596800 * 10 ^ 9 ≤ t ∧ t < 253402300800 * 10 ^ 9))

/-- Encoding and decoding loses nothing. -/
structure Library.Lossless {J : Type} (L : Library J) : Prop where
  time : ∀ t, ValidTime t → L.parse .rfc3339Nano (L.format t) = some t
  actor : ∀ a s, L.marshalActor a = .ok s → s ≠ "" ∧ L.unmarshalActor s = .ok a

/-- An append at the current version, with times of the years 0001 to 9999. -/
structure AtHead (db : Db κ) (c : Engine × AppendParams) : Prop where
  expectedVersion : c.2.expectedVersion = db.currentStreamVersion c.2.streamID
  clock : ValidTime (c.1.clock 0)
  occurredAt : ∀ ev ∈ c.2.events, ValidTime ev.occurredAt

variable {J : Type} {L : Library J}

theorem Library.Lossless.parseTime (hL : L.Lossless) {t : Time} (ht : ValidTime t) :
    parseTime L (L.format t) = .ok t := by
  simp [Sqlite.parseTime, hL.time t ht]

theorem storeJSON_getD (b : Option Bytes) : (storeJSON b).getD [] = b.getD [] := by
  rcases b with _ | _ | _ <;> rfl

theorem Library.Lossless.readsBack (hL : L.Lossless) {E : Engine} {ev : EventToAppend} (i : ℕ)
    (hclock : ValidTime (E.clock 0)) (hocc : ValidTime ev.occurredAt) :
    ReadsBack (dialect L) E i ev where
  actor s hs := by
    obtain ⟨hne, hun⟩ := hL.actor _ _ (Except.mapError_eq_ok.1 hs)
    simp [dialect, decodeActor, hne, hun, Except.mapError]
  occurredAt := hL.parseTime hocc
  recordedAt := ⟨_, hL.parseTime hclock⟩
  keyRefs j hj := by
    rw [← Except.ok.inj hj]
    exact storeJSON_getD ev.keyRefs

/-- **On SQLite the chain of every stream verifies**, in every run of appends at the current
version, and every event stores the digest of the event before it. -/
theorem chain_verifies (hL : L.Lossless) {db : Db (columns J)}
    (h : ((appendSystem (dialect L) H).restrict AtHead).Reachable db) {sid : StreamID}
    (hsid : sid.Valid) :
    verifyStreamChain H (readStream (dialect L) db) sid = .ok () ∧
      Linked zeroHash (db.streamRows sid) := by
  have hinv : db.Wf ∧ db.Chained (dialect L) H := by
    refine h.invariant (I := fun db => db.Wf ∧ db.Chained (dialect L) H) (fun db h₀ => ?_)
      fun db c db' _ ih hstep => ?_
    · rw [show db = Db.empty from h₀]
      exact ⟨.empty, Db.chained_empty⟩
    · obtain ⟨⟨hexp, hclock, hocc⟩, rfl⟩ := hstep
      rw [(ih.1.dense _).currentStreamVersion_eq] at hexp
      exact ⟨ih.1.append hexp.le,
        ih.2.append ih.1 fun ev hev i => hL.readsBack i hclock (hocc ev hev)⟩
  rw [(hinv.1.dense sid).streamRows_eq]
  exact ⟨hinv.2.verifyStreamChain hinv.1 hsid, (hinv.2 sid hsid).1⟩

theorem Library.small_lossless : Library.small.Lossless where
  time t _ := by
    by_cases h : t < 0
    · simp only [small, h, if_true, String.toList_ofList, List.length_replicate, Option.some.injEq]
      rw [Int.ofNat_natAbs_of_nonpos h.le, Int.neg_neg]
    · simp only [small, h, if_false, String.toList_ofList, List.length_replicate, Option.some.injEq]
      exact Int.natAbs_of_nonneg (not_lt.1 h)
  actor a s h := by
    simp only [small] at h ⊢
    split_ifs at h with ha
    rw [← Except.ok.inj h, ha]
    exact ⟨by decide, rfl⟩

/-- Two appends to one stream. -/
theorem chain_verifies_two :
    let D := dialect .small
    let db₁ := (append D .small .calm (.bare 0 "a") Db.empty).2
    let db₂ := (append D .small .calm (.bare 1 "b") db₁).2
    (db₂.streamRows ⟨"acme", "order", "1"⟩).map EventRow.version = [1, 2] ∧
      verifyStreamChain .small (readStream D db₂) ⟨"acme", "order", "1"⟩ = .ok () := by
  intro D db₁ db₂
  have hvalid : ValidTime 0 := by decide
  have h₁ : AtHead (Db.empty : Db (columns Bytes)) (Engine.calm, AppendParams.bare 0 "a") :=
    ⟨rfl, hvalid, by simp [AppendParams.bare, EventToAppend.bare, hvalid]⟩
  have h₂ : AtHead db₁ (Engine.calm, AppendParams.bare 1 "b") :=
    ⟨by decide +kernel, hvalid, by simp [AppendParams.bare, EventToAppend.bare, hvalid]⟩
  have hr : ((appendSystem D .small).restrict AtHead).Reachable db₂ :=
    .step (.step (.init rfl) ⟨h₁, rfl⟩) ⟨h₂, rfl⟩
  exact ⟨by decide +kernel, (chain_verifies Library.small_lossless hr (by decide)).1⟩

end Sqlite

end EventStore
