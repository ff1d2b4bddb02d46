import EventStore.Storage.Integrity
import Mathlib.Logic.Function.Basic

/-!
# Chaining the events that are older than the chain

`es.RebuildStreamChain` with the `BackfillEventHash` statement of the adapters: it reads a stream
whose older rows have no digest, and then fills in the missing digests row by row, each in a
statement of its own, checking the digests that are there.

A rebuild is not a transaction.  It can be interrupted between two rows and started again, and
appends commit between its rows, so the model is a transition system (`backfillSystem`): one rebuild
per stream, stepping row by row.

The append path links a new event to the digest of the last row, and to `zeroHash` when that row
has none.  So an append to a stream whose last row is not filled in yet starts a second chain in the
middle of the stream, and the rebuild reports it as broken (`rebuild_breaks`).

* `Sealed` : rows that carry a chain, linked to a given digest.
* `Awaits` : a row that is older than the chain.
* `Backfill.Inv` : every stream is a sealed part followed by rows that await their digest.
* `rebuild_backfills` : **when no append finds a last row without a digest**, every rebuild succeeds
  and leaves a stream that verifies.
-/

namespace EventStore

variable {κ : Columns} (D : Dialect κ) (H : Hasher)

/-! ### The rebuild -/

/-- `es.RebuildResult`. -/
structure RebuildResult where
  backfilledCount : ℕ
  verifiedCount : ℕ
  deriving DecidableEq, Repr

/-- The rows `BackfillEventHash` updates: `tenant_id = ? AND event_id = ? AND hash IS NULL`. -/
def EventRow.awaits (tenantID : String) (eventID : UUID) (r : EventRow κ) : Bool :=
  r.tenantID == tenantID && r.eventID == eventID && r.hash.isNone

/-- The row with its digests set, if it is one of those. -/
def EventRow.backfill (tenantID : String) (eventID : UUID) (hash prevHash : Bytes)
    (r : EventRow κ) : EventRow κ :=
  if r.awaits tenantID eventID then { r with hash := some hash, prevHash := some prevHash } else r

theorem EventRow.backfill_keys (tenantID : String) (eventID : UUID) (hash prevHash : Bytes)
    (r : EventRow κ) : (r.backfill tenantID eventID hash prevHash).tenantID = r.tenantID ∧
      (r.backfill tenantID eventID hash prevHash).streamID = r.streamID ∧
      (r.backfill tenantID eventID hash prevHash).version = r.version ∧
      (r.backfill tenantID eventID hash prevHash).eventID = r.eventID ∧
      (r.backfill tenantID eventID hash prevHash).globalPosition = r.globalPosition := by
  unfold EventRow.backfill
  split_ifs
  · exact ⟨rfl, rfl, rfl, rfl, rfl⟩
  · exact ⟨rfl, rfl, rfl, rfl, rfl⟩

/-- The `BackfillEventHash` statement. -/
def Db.backfill (db : Db κ) (tenantID : String) (eventID : UUID) (hash prevHash : Bytes) : Db κ :=
  { db with
    events := db.events.update (EventRow.backfill tenantID eventID hash prevHash) (by
      intro a b h
      obtain ⟨hat, has, hav, hai, -⟩ := a.backfill_keys tenantID eventID hash prevHash
      obtain ⟨hbt, hbs, hbv, hbi, -⟩ := b.backfill_keys tenantID eventID hash prevHash
      rwa [EventRow.Clash, hat, has, hav, hai, hbt, hbs, hbv, hbi] at h)
    ordered := by
      have hpos : EventRow.globalPosition ∘ EventRow.backfill (κ := κ) tenantID eventID hash
          prevHash = EventRow.globalPosition :=
        funext fun r => (r.backfill_keys tenantID eventID hash prevHash).2.2.2.2
      rw [Table.rows_update, List.map_map, hpos]
      exact db.ordered }

/-- `Adapter.BackfillEventHash`: no row updated is an error. -/
def backfillEventHash (tenantID : String) (eventID : UUID) (hash prevHash : Bytes) (db : Db κ) :
    Except Err (Db κ) :=
  if db.events.rows.any (EventRow.awaits tenantID eventID) then
    .ok (db.backfill tenantID eventID hash prevHash)
  else
    let name := D.name
    let event := eventID.string
    .error (.text (s!"{name}: backfill event hash: row tenant={tenantID} event={event} " ++
      "already has a hash or does not exist"))

/-- The variables of the loop of `RebuildStreamChain`. -/
structure RebuildVars where
  prev : Bytes
  res : RebuildResult

/-- The variables the loop starts with. -/
def RebuildVars.start : RebuildVars := ⟨zeroHash, ⟨0, 0⟩⟩

/-- One round of the loop: the variables after it, and the database. -/
def rebuildRow (v : RebuildVars) (e : Envelope) (db : Db κ) : Except Err (RebuildVars × Db κ) := do
  let n := e.version
  let expected ← (computeChainHash H v.prev e).mapError (.wrap s!"recompute hash at version {n}")
  if e.hash.length = 0 then
    let db' ← (backfillEventHash D e.tenantID e.eventID expected v.prev db).mapError
      (.wrap s!"backfill version {n}")
    return (⟨expected, { v.res with backfilledCount := v.res.backfilledCount + 1 }⟩, db')
  else if equalHash expected e.hash then
    return (⟨expected, { v.res with verifiedCount := v.res.verifiedCount + 1 }⟩, db)
  else
    .error (.wrap (s!"version {n} (stored hash differs from recompute — " ++
      "tampering or chain corruption)") (.sentinel .chainBroken))

/-- The loop.  The counts are returned with the error. -/
def rebuildFrom (v : RebuildVars) : List Envelope → Db κ → RebuildResult × Option Err × Db κ
  | [], db => (v.res, none, db)
  | e :: es, db =>
    match rebuildRow D H v e db with
    | .error err => (v.res, some err, db)
    | .ok (v', db') => rebuildFrom v' es db'

/-- `es.RebuildStreamChain`, with nothing in between its statements. -/
def rebuildStreamChain (sid : StreamID) (db : Db κ) : RebuildResult × Option Err × Db κ :=
  match readStream D db sid 0 with
  | .error err => (⟨0, 0⟩, some err, db)
  | .ok envs => rebuildFrom D H .start envs db

/-! ### Rebuilds among appends -/

/-- A rebuild in progress. -/
structure Job where
  /-- The envelopes not looked at yet. -/
  rest : List Envelope
  vars : RebuildVars
  /-- How many rows of the stream had been filled in when the stream was read. -/
  before : ℕ
  /-- How many envelopes were read. -/
  read : ℕ

/-- A rebuild that has returned. -/
structure Finished where
  sid : StreamID
  /-- How many rows of the stream had been filled in when the stream was read. -/
  before : ℕ
  /-- How many envelopes were read. -/
  read : ℕ
  res : RebuildResult
  err : Option Err

/-- The database, the rebuilds in progress, and two histories: the stream of every row filled in,
and the rebuilds that have returned. -/
structure Backfill (κ : Columns) where
  db : Db κ
  job : StreamID → Option Job
  filled : List StreamID
  finished : List Finished

/-- What can happen. -/
inductive BackfillStep where
  /-- A call of `Append`. -/
  | append (E : Engine) (p : AppendParams)
  /-- A rebuild of the stream reads it. -/
  | start (sid : StreamID)
  /-- The next round of the rebuild of the stream, or its return. -/
  | round (sid : StreamID)
  /-- The rebuild of the stream is interrupted: it crashes, or the engine fails a statement. -/
  | interrupt (sid : StreamID)

/-- The rebuild of `sid` set to `o`. -/
def Backfill.setJob (s : Backfill κ) (sid : StreamID) (o : Option Job) : Backfill κ :=
  { s with job := Function.update s.job sid o }

/-- The rebuild of `sid` returns. -/
def Backfill.finish (s : Backfill κ) (sid : StreamID) (j : Job) (err : Option Err) : Backfill κ :=
  { s.setJob sid none with
    finished := s.finished ++ [⟨sid, j.before, j.read, j.vars.res, err⟩] }

/-- The state after one step. -/
def Backfill.next (s : Backfill κ) : BackfillStep → Option (Backfill κ)
  | .append E p => some { s with db := (append D H E p s.db).2 }
  | .start sid =>
    match s.job sid, readStream D s.db sid 0 with
    | some _, _ => none
    | none, .error err => some (s.finish sid ⟨[], .start, s.filled.count sid, 0⟩ (some err))
    | none, .ok envs =>
      some (s.setJob sid (some ⟨envs, .start, s.filled.count sid, envs.length⟩))
  | .round sid =>
    match s.job sid with
    | none => none
    | some ⟨[], v, before, n⟩ => some (s.finish sid ⟨[], v, before, n⟩ none)
    | some ⟨e :: es, v, before, n⟩ =>
      match rebuildRow D H v e s.db with
      | .error err => some (s.finish sid ⟨e :: es, v, before, n⟩ (some err))
      | .ok (v', db') => some
        { s.setJob sid (some ⟨es, v', before, n⟩) with
          db := db'
          filled := if e.hash.length = 0 then sid :: s.filled else s.filled }
  | .interrupt sid => some (s.setJob sid none)

/-- Nothing is in progress. -/
def Backfill.idle (db : Db κ) : Backfill κ := ⟨db, fun _ => none, [], []⟩

/-- A row that is older than the chain, and that can be read and serialised. -/
structure Awaits (r : EventRow κ) : Prop where
  hash : r.hash = none
  prevHash : r.prevHash = none
  reads : ∃ e, rowToEnvelope D r = .ok e ∧ ∃ b, H.marshal (hashSubset e) = .ok b

/-- A store at the migration that introduced the chain. -/
structure Db.Legacy (db : Db κ) : Prop where
  dense : ∀ sid, db.Dense sid
  awaits : ∀ r ∈ db.events.rows, Awaits D H r

/-- Rebuilds and appends on a store whose events are older than the chain. -/
def backfillSystem : TS (Backfill κ) BackfillStep where
  init s := ∃ db : Db κ, db.Legacy D H ∧ s = .idle db
  step s l s' := s.next D H l = some s'

/-- An append is not ahead of its stream, its events read back, and the last row of the stream has
a digest; a rebuild is of a stream. -/
def Orderly (s : Backfill κ) : BackfillStep → Prop
  | .append E p =>
    p.expectedVersion ≤ s.db.currentStreamVersion p.streamID ∧ p.ReadBack D E ∧
      ∀ r ∈ (s.db.streamRows p.streamID).getLast?, r.hash ≠ none
  | .start sid => sid.Valid
  | .round _ => True
  | .interrupt _ => True

/-! ### Streams that are sealed in part -/

/-- The rows carry a chain: each reads back as an envelope that it stores the digest of, the first
one linked to `prev`. -/
def Sealed : Bytes → List (EventRow κ) → Prop
  | _, [] => True
  | prev, r :: rs => ∃ e, rowToEnvelope D r = .ok e ∧ r.hash = some e.hash ∧
      r.prevHash = some prev ∧ computeChainHash H prev e = .ok e.hash ∧ Sealed e.hash rs

/-- A sealed part, and after it rows that are older than the chain. -/
def HalfSealed : Bytes → List (EventRow κ) → Prop
  | _, [] => True
  | prev, r :: rs => (∃ e, rowToEnvelope D r = .ok e ∧ r.hash = some e.hash ∧
      r.prevHash = some prev ∧ computeChainHash H prev e = .ok e.hash ∧ HalfSealed e.hash rs) ∨
      ∀ x ∈ r :: rs, Awaits D H x

variable {D H} {E : Engine}

section Rows

variable {prev : Bytes} {r : EventRow κ} {L M : List (EventRow κ)} {e : Envelope}

theorem Sealed.hash_size (h : Sealed D H prev L) :
    ∀ r ∈ L, ∃ d, r.hash = some d ∧ d.length = 32 := by
  induction L generalizing prev with
  | nil => simp
  | cons r L ih =>
    obtain ⟨e, -, hh, -, hc, hL⟩ := h
    exact List.forall_mem_cons.2 ⟨⟨e.hash, hh, (computeChainHash_size hc).2⟩, ih hL⟩

theorem Sealed.hash_ne_none (h : Sealed D H prev L) : ∀ r ∈ L, r.hash ≠ none := by
  intro r hr
  obtain ⟨d, hd, -⟩ := h.hash_size r hr
  rw [hd]
  exact Option.some_ne_none d

theorem Sealed.lastHash_size (h : Sealed D H prev L) (hp : prev.length = 32) :
    (lastHash prev L).length = 32 := by
  unfold lastHash
  cases hl : L.getLast? with
  | none => exact hp
  | some r =>
    obtain ⟨d, hd, hlen⟩ := h.hash_size r (List.mem_of_getLast? hl)
    simpa [hd] using hlen

theorem Sealed.append (hL : Sealed D H prev L) (hM : Sealed D H (lastHash prev L) M) :
    Sealed D H prev (L ++ M) := by
  induction L generalizing prev with
  | nil => exact hM
  | cons r L ih =>
    obtain ⟨e, he, hh, hp, hc, hL⟩ := hL
    rw [lastHash_cons, hh] at hM
    exact ⟨e, he, hh, hp, hc, ih hL hM⟩

theorem HalfSealed.append (hL : Sealed D H prev L) (hM : HalfSealed D H (lastHash prev L) M) :
    HalfSealed D H prev (L ++ M) := by
  induction L generalizing prev with
  | nil => exact hM
  | cons r L ih =>
    obtain ⟨e, he, hh, hp, hc, hL⟩ := hL
    rw [lastHash_cons, hh] at hM
    exact Or.inl ⟨e, he, hh, hp, hc, ih hL hM⟩

theorem Sealed.half (h : Sealed D H prev L) : HalfSealed D H prev L := by
  rw [← List.append_nil L]
  exact .append h trivial

theorem HalfSealed.of_awaits (h : ∀ x ∈ L, Awaits D H x) : HalfSealed D H prev L := by
  cases L with
  | nil => trivial
  | cons r L => exact Or.inr h

/-- A part of the rows that have digests is sealed. -/
theorem HalfSealed.split (h : HalfSealed D H prev (L ++ M)) (hL : ∀ r ∈ L, r.hash ≠ none) :
    Sealed D H prev L ∧ HalfSealed D H (lastHash prev L) M := by
  induction L generalizing prev with
  | nil => exact ⟨trivial, h⟩
  | cons r L ih =>
    obtain ⟨hr, hL⟩ := List.forall_mem_cons.1 hL
    rcases h with ⟨e, he, hh, hp, hc, hrest⟩ | hall
    · obtain ⟨hs, hm⟩ := ih hrest hL
      rw [lastHash_cons, hh]
      exact ⟨⟨e, he, hh, hp, hc, hs⟩, hm⟩
    · exact absurd (hall r List.mem_cons_self).hash hr

/-- When the last row has a digest, all have. -/
theorem HalfSealed.sealed (h : HalfSealed D H prev L) (hl : ∀ r ∈ L.getLast?, r.hash ≠ none) :
    Sealed D H prev L := by
  induction L generalizing prev with
  | nil => trivial
  | cons r L ih =>
    rcases h with ⟨e, he, hh, hp, hc, hrest⟩ | hall
    · refine ⟨e, he, hh, hp, hc, ih hrest fun x hx => hl x ?_⟩
      cases L with
      | nil => simp at hx
      | cons a L => rwa [List.getLast?_cons_cons]
    · have hlast := List.getLast?_eq_getLast_of_ne_nil (List.cons_ne_nil r L)
      exact absurd (hall _ (List.getLast_mem _)).hash (hl _ hlast)

/-- Sealed rows read back as envelopes that verify, and the other way round. -/
theorem sealed_iff : Sealed D H prev L ↔ Linked prev L ∧ ∃ envs,
    List.Forall₂ (fun r e => rowToEnvelope D r = .ok e) L envs ∧
      verifyFrom H prev envs = .ok () := by
  induction L generalizing prev with
  | nil => exact ⟨fun _ => ⟨trivial, [], .nil, rfl⟩, fun _ => trivial⟩
  | cons r L ih =>
    constructor
    · rintro ⟨e, he, hh, hp, hc, hL⟩
      obtain ⟨hlink, envs, henvs, hver⟩ := ih.1 hL
      exact ⟨⟨hp, e.hash, hh, hlink⟩, e :: envs, .cons he henvs,
        verifyFrom_cons_eq_ok_iff.2 ⟨hc, hver⟩⟩
    · rintro ⟨⟨hp, d, hd, hlink⟩, _, henvs, hver⟩
      obtain ⟨e, envs, he, htail, rfl⟩ := List.forall₂_cons_left_iff.1 henvs
      obtain ⟨hc, hver⟩ := verifyFrom_cons_eq_ok_iff.1 hver
      obtain rfl : e.hash = d := by rw [hash_of_rowToEnvelope he, hd, Option.getD_some]
      exact ⟨e, he, hd, hp, hc, ih.2 ⟨hlink, envs, htail, hver⟩⟩

end Rows

/-! ### Filling in a row -/

section Fill

variable {db : Db κ} {sid : StreamID} {r : EventRow κ} {P S : List (EventRow κ)}
  {hash prevHash : Bytes} {e : Envelope} {v : RebuildVars}

/-- The update meets no other row. -/
theorem Db.backfill_eq_self {a : EventRow κ} (hr : r ∈ db.events.rows) (ha : a ∈ db.events.rows)
    (hne : a ≠ r) : a.backfill r.tenantID r.eventID hash prevHash = a := by
  refine if_neg fun h => hne ?_
  simp only [EventRow.awaits, Bool.and_eq_true, beq_iff_eq] at h
  exact Table.eq_of_clash EventRow.Clash.symm ha hr ⟨h.1.1, Or.inr h.1.2⟩

theorem Db.stream_backfill (tenantID : String) (eventID : UUID) :
    (db.backfill tenantID eventID hash prevHash).stream sid =
      (db.stream sid).map (EventRow.backfill tenantID eventID hash prevHash) := by
  have hrows : (db.backfill tenantID eventID hash prevHash).events.rows =
      db.events.rows.map (EventRow.backfill tenantID eventID hash prevHash) := rfl
  rw [Db.stream, Db.stream, hrows, List.filter_map]
  refine congrArg (List.map _) (List.filter_congr fun r _ => ?_)
  obtain ⟨ht, hs, -⟩ := r.backfill_keys tenantID eventID hash prevHash
  rw [Function.comp_apply, EventRow.inStream, ht, hs]
  rfl

/-- The stream of the row gets it with its digests. -/
theorem Db.stream_backfill_mem (hs : db.stream sid = P ++ r :: S) (hr : r.hash = none) :
    (db.backfill r.tenantID r.eventID hash prevHash).stream sid =
      P ++ { r with hash := some hash, prevHash := some prevHash } :: S := by
  have hmem : ∀ a ∈ P ++ r :: S, a ∈ db.events.rows := fun a ha => (mem_stream.1 (hs ▸ ha)).1
  have hmr : r ∈ db.events.rows := hmem r (by simp)
  -- positions increase along the stream, so the other rows are other rows
  have hpos := db.pairwise_globalPosition_stream sid
  rw [hs, List.pairwise_append, List.pairwise_cons] at hpos
  have hP : ∀ a ∈ P, a.backfill r.tenantID r.eventID hash prevHash = a := fun a ha =>
    backfill_eq_self hmr (hmem a (List.mem_append_left _ ha)) fun h =>
      (hpos.2.2 a ha r List.mem_cons_self).ne (congrArg EventRow.globalPosition h)
  have hS : ∀ a ∈ S, a.backfill r.tenantID r.eventID hash prevHash = a := fun a ha =>
    backfill_eq_self hmr (hmem a (by simp [ha])) fun h =>
      (hpos.2.1.1 a ha).ne (congrArg EventRow.globalPosition h).symm
  have hrow : r.backfill r.tenantID r.eventID hash prevHash =
      { r with hash := some hash, prevHash := some prevHash } :=
    if_pos (by simp [EventRow.awaits, hr])
  rw [stream_backfill, hs, List.map_append, List.map_cons, hrow, List.map_congr_left hP,
    List.map_congr_left hS, List.map_id', List.map_id']

/-- The other streams stay as they are. -/
theorem Db.stream_backfill_ne {sid' : StreamID} (hr : r ∈ db.stream sid)
    (hk : sid'.key ≠ sid.key) :
    (db.backfill r.tenantID r.eventID hash prevHash).stream sid' = db.stream sid' := by
  obtain ⟨hmr, ht, hs⟩ := mem_stream.1 hr
  rw [stream_backfill]
  refine (List.map_congr_left fun a ha => ?_).trans (List.map_id' _)
  obtain ⟨hma, hta, hsa⟩ := mem_stream.1 ha
  refine backfill_eq_self hmr hma fun h => hk ?_
  rw [StreamID.key, StreamID.key, ← hta, ← hsa, ← ht, ← hs, h]

/-- Digests that are there are kept. -/
theorem Db.mem_backfill (tenantID : String) (eventID : UUID) (hr : r ∈ db.events.rows)
    (hh : r.hash ≠ none) : r ∈ (db.backfill tenantID eventID hash prevHash).events.rows := by
  have hself : r.backfill tenantID eventID hash prevHash = r := by
    refine if_neg fun h => hh ?_
    rw [EventRow.awaits, Bool.and_eq_true, Option.isNone_iff_eq_none] at h
    exact h.2
  exact List.mem_map.2 ⟨r, hr, hself⟩

/-- A row that has been filled in is sealed. -/
theorem sealed_backfilled (he : rowToEnvelope D r = .ok e)
    (hc : computeChainHash H prevHash e = .ok hash) :
    Sealed D H prevHash [{ r with hash := some hash, prevHash := some prevHash }] := by
  obtain ⟨sid, actor, occ, rec, hsid, hactor, hocc, hrec, rfl⟩ := rowToEnvelope_eq_ok.1 he
  exact ⟨_, rowToEnvelope_eq_ok.2 ⟨sid, actor, occ, rec, hsid, hactor, hocc, hrec, rfl⟩, rfl, rfl,
    hc, trivial⟩

/-- The round for a row without a digest. -/
theorem Awaits.rebuildRow (ha : Awaits D H r) (he : rowToEnvelope D r = .ok e)
    (hr : r ∈ db.events.rows) (hv : v.prev.length = 32) :
    ∃ d, computeChainHash H v.prev e = .ok d ∧ e.hash.length = 0 ∧
      rebuildRow D H v e db =
        .ok (⟨d, { v.res with backfilledCount := v.res.backfilledCount + 1 }⟩,
          db.backfill r.tenantID r.eventID d v.prev) := by
  obtain ⟨e', he', b, hb⟩ := ha.reads
  obtain rfl : e' = e := Except.ok.inj (he'.symm.trans he)
  have hc := (computeChainHash_eq_ok_iff hv).2 ⟨b, hb, rfl⟩
  have hlen : e'.hash.length = 0 := by rw [hash_of_rowToEnvelope he, ha.hash]; rfl
  obtain ⟨ht, hi⟩ : e'.tenantID = r.tenantID ∧ e'.eventID = r.eventID := by
    obtain ⟨_, _, _, _, -, -, -, -, rfl⟩ := rowToEnvelope_eq_ok.1 he
    exact ⟨rfl, rfl⟩
  have hany : db.events.rows.any (EventRow.awaits r.tenantID r.eventID) = true :=
    List.any_eq_true.2 ⟨r, hr, by simp [EventRow.awaits, ha.hash]⟩
  refine ⟨_, hc, hlen, ?_⟩
  simp only [EventStore.rebuildRow, hc, Except.mapError, Except.ok_bind, hlen, if_true,
    backfillEventHash, ht, hi, hany]
  rfl

/-- The round for a row with its digest. -/
theorem rebuildRow_sealed (hc : computeChainHash H v.prev e = .ok e.hash) :
    e.hash.length ≠ 0 ∧ EventStore.rebuildRow D H v e db =
      .ok (⟨e.hash, { v.res with verifiedCount := v.res.verifiedCount + 1 }⟩, db) := by
  have hlen : e.hash.length ≠ 0 := by rw [(computeChainHash_size hc).2]; decide
  refine ⟨hlen, ?_⟩
  simp only [EventStore.rebuildRow, hc, Except.mapError, Except.ok_bind, hlen, if_false,
    equalHash_iff.2 rfl, if_true]
  rfl

/-- A round keeps the rows that have a digest. -/
theorem mem_of_rebuildRow {v' : RebuildVars} {db' : Db κ}
    (h : EventStore.rebuildRow D H v e db = .ok (v', db')) (hr : r ∈ db.events.rows)
    (hh : r.hash ≠ none) : r ∈ db'.events.rows := by
  simp only [EventStore.rebuildRow, Except.bind_eq_ok] at h
  obtain ⟨d, -, h⟩ := h
  split_ifs at h
  · obtain ⟨db₁, hb, h⟩ := Except.bind_eq_ok.1 h
    rw [Except.mapError_eq_ok, backfillEventHash] at hb
    split_ifs at hb
    cases h
    cases hb
    exact Db.mem_backfill _ _ hr hh
  · cases h
    exact hr

end Fill

/-! ### The invariant -/

/-- How many rows of the stream have no digest. -/
def Db.awaiting (db : Db κ) (sid : StreamID) : ℕ := (db.stream sid).countP fun r => r.hash.isNone

/-- Where a rebuild of `sid` stands: it has been through the rows `P`, has `Q` ahead of it, and the
rows `R` were appended after it read the stream.  `n` rows have been filled in so far. -/
structure Job.At (D : Dialect κ) (db : Db κ) (sid : StreamID) (n : ℕ) (j : Job)
    (P Q R : List (EventRow κ)) : Prop where
  stream : db.stream sid = P ++ (Q ++ R)
  rest : List.Forall₂ (fun r e => rowToEnvelope D r = .ok e) Q j.rest
  passed : ∀ r ∈ P, r.hash ≠ none
  appended : ∀ r ∈ R, r.hash ≠ none
  prev : j.vars.prev = lastHash zeroHash P
  backfilled : j.vars.res.backfilledCount + j.before = n
  counted : j.vars.res.backfilledCount + j.vars.res.verifiedCount = P.length
  read : P.length + Q.length = j.read

/-- What a rebuild has achieved: `k` rows were older than the chain. -/
structure Finished.Done (f : Finished) (db : Db κ) (k : ℕ) : Prop where
  err : f.err = none
  backfilled : f.res.backfilledCount + f.before = k
  counted : f.res.backfilledCount + f.res.verifiedCount = f.read
  sealed : ∀ r ∈ db.stream f.sid, r.hash ≠ none

variable (D H) in
/-- Every stream is a sealed part followed by rows that await their digest; `k` of its rows were
older than the chain. -/
structure Backfill.Inv (k : StreamID → ℕ) (s : Backfill κ) : Prop where
  dense : ∀ sid, s.db.Dense sid
  half : ∀ sid, sid.Valid → HalfSealed D H zeroHash (s.db.stream sid)
  count : ∀ sid, sid.Valid → s.db.awaiting sid + s.filled.count sid = k sid
  job : ∀ sid j, s.job sid = some j →
    sid.Valid ∧ ∃ P Q R, j.At D s.db sid (s.filled.count sid) P Q R
  finished : ∀ f ∈ s.finished, f.sid.Valid ∧ f.Done s.db (k f.sid)

theorem Job.At.congr {db db' : Db κ} {sid : StreamID} {n n' : ℕ} {j : Job}
    {P Q R : List (EventRow κ)} (h : j.At D db sid n P Q R)
    (hs : db'.stream sid = db.stream sid) (hn : n' = n) : j.At D db' sid n' P Q R :=
  ⟨hs.trans h.stream, h.rest, h.passed, h.appended, h.prev, h.backfilled.trans hn.symm, h.counted,
    h.read⟩

/-- Filling in a row changes no version. -/
theorem Db.Dense.backfill {db : Db κ} {sid : StreamID} (h : db.Dense sid) (tenantID : String)
    (eventID : UUID) {hash prevHash : Bytes} :
    (db.backfill tenantID eventID hash prevHash).Dense sid := by
  have hver : EventRow.version ∘ EventRow.backfill (κ := κ) tenantID eventID hash prevHash =
      EventRow.version := funext fun r => (r.backfill_keys tenantID eventID hash prevHash).2.2.1
  rw [Db.Dense, Db.stream_backfill, List.map_map, hver, List.length_map]
  exact h

namespace Backfill

variable {k : StreamID → ℕ} {s : Backfill κ} {sid : StreamID} {j : Job}

theorem inv_idle {db : Db κ} (h : db.Legacy D H) :
    (idle db).Inv D H fun sid => (db.stream sid).length where
  dense := h.dense
  half sid _ := .of_awaits fun r hr => h.awaits r (Db.mem_stream.1 hr).1
  count sid _ := by
    refine List.countP_eq_length.2 fun r hr => ?_
    rw [(h.awaits r (Db.mem_stream.1 hr).1).hash]
    rfl
  job _ _ hj := by cases hj
  finished _ hf := by cases hf

/-- A rebuild is where its job says. -/
theorem Inv.setJob (h : s.Inv D H k) {o : Option Job} (ho : ∀ j ∈ o, sid.Valid ∧
    ∃ P Q R, j.At D s.db sid (s.filled.count sid) P Q R) : (s.setJob sid o).Inv D H k where
  dense := h.dense
  half := h.half
  count := h.count
  job sid' j hj := by
    rcases eq_or_ne sid' sid with rfl | hne
    · exact ho j (by simpa [Backfill.setJob] using hj)
    · exact h.job sid' j (by simpa [Backfill.setJob, hne] using hj)
  finished := h.finished

/-- Rows that are sealed in part can be read. -/
theorem exists_reads {L : List (EventRow κ)} {prev : Bytes} (h : HalfSealed D H prev L) :
    ∃ envs, List.Forall₂ (fun r e => rowToEnvelope D r = .ok e) L envs := by
  induction L generalizing prev with
  | nil => exact ⟨[], .nil⟩
  | cons r L ih =>
    obtain ⟨e, he, d, hL⟩ : ∃ e, rowToEnvelope D r = .ok e ∧ ∃ d, HalfSealed D H d L := by
      rcases h with ⟨e, he, -, -, -, hL⟩ | hall
      · exact ⟨e, he, e.hash, hL⟩
      · obtain ⟨hr, hL⟩ := List.forall_mem_cons.1 hall
        obtain ⟨e, he, -⟩ := hr.reads
        exact ⟨e, he, prev, .of_awaits hL⟩
    obtain ⟨envs, henvs⟩ := ih hL
    exact ⟨e :: envs, .cons he henvs⟩

/-- A stream is read. -/
theorem Inv.start (h : s.Inv D H k) (hsid : sid.Valid) :
    ∃ envs, readStream D s.db sid 0 = .ok envs ∧ envs.length = (s.db.stream sid).length ∧
      (s.setJob sid (some ⟨envs, .start, s.filled.count sid, envs.length⟩)).Inv D H k := by
  obtain ⟨envs, henvs⟩ := exists_reads (h.half sid hsid)
  refine ⟨envs, (readStream_eq_ok (h.dense sid)).2 ⟨hsid, henvs⟩, henvs.length_eq.symm,
    h.setJob fun j hj => ?_⟩
  obtain rfl := Option.some.inj hj
  exact ⟨hsid, [], s.db.stream sid, [], by simp, henvs, by simp, by simp, rfl,
    by simp [RebuildVars.start], rfl, by simpa using henvs.length_eq⟩

/-- The rebuild has been through the whole stream. -/
theorem Inv.finish (h : s.Inv D H k) (hj : s.job sid = some j) (hrest : j.rest = []) :
    (s.finish sid j none).Inv D H k := by
  obtain ⟨hsid, P, Q, R, hat⟩ := h.job sid j hj
  obtain rfl : Q = [] := List.forall₂_nil_right_iff.1 (hrest ▸ hat.rest)
  have hall : ∀ r ∈ s.db.stream sid, r.hash ≠ none := by
    intro r hr
    rw [hat.stream, List.nil_append, List.mem_append] at hr
    exact hr.elim (hat.passed r) (hat.appended r)
  -- no row awaits a digest, so all that were to be filled in have been
  have hzero : s.db.awaiting sid = 0 := by
    refine List.countP_eq_zero.2 fun r hr hn => hall r hr ?_
    exact Option.isNone_iff_eq_none.1 hn
  have hcount := h.count sid hsid
  rw [hzero, Nat.zero_add, ← hat.backfilled] at hcount
  have h' : (s.setJob sid none).Inv D H k := h.setJob (by simp)
  refine ⟨h'.dense, h'.half, h'.count, h'.job, fun f hf => ?_⟩
  rcases List.mem_append.1 hf with hf | hf
  · exact h'.finished f hf
  · obtain rfl := List.mem_singleton.1 hf
    exact ⟨hsid, rfl, hcount, hat.counted.trans (by simpa using hat.read), hall⟩

/-- The row ahead of a rebuild has its digest, and the rebuild checks it. -/
theorem Inv.verify (h : s.Inv D H k) {e : Envelope} {es : List Envelope} {v : RebuildVars}
    {before n : ℕ} {P Q R : List (EventRow κ)} {r : EventRow κ} (hsid : sid.Valid)
    (hat : Job.At D s.db sid (s.filled.count sid) ⟨e :: es, v, before, n⟩ P (r :: Q) R)
    (hh : r.hash = some e.hash) :
    (s.setJob sid (some ⟨es, ⟨e.hash, { v.res with verifiedCount := v.res.verifiedCount + 1 }⟩,
      before, n⟩)).Inv D H k := by
  refine h.setJob fun j hj => ?_
  obtain rfl := Option.some.inj hj
  obtain ⟨hs, hrest, hP, hR, -, hb, hc, hn⟩ := hat
  refine ⟨hsid, P ++ [r], Q, R, by simp [hs], (List.forall₂_cons.1 hrest).2, ?_, hR, ?_, hb, ?_, ?_⟩
  · rintro x hx
    rcases List.mem_append.1 hx with hx | hx
    · exact hP x hx
    · rw [List.mem_singleton.1 hx, hh]
      exact Option.some_ne_none _
  · simp [lastHash, hh]
  · rw [List.length_append, List.length_singleton, ← hc]
    exact (Nat.add_assoc ..).symm
  · rw [← hn, List.length_append, List.length_singleton, List.length_cons]
    omega

/-- The row ahead of a rebuild awaits its digest, and the rebuild fills it in. -/
theorem Inv.fill (h : s.Inv D H k) {e : Envelope} {es : List Envelope} {v : RebuildVars}
    {before n : ℕ} {P Q R : List (EventRow κ)} {r : EventRow κ} {d : Bytes} (hsid : sid.Valid)
    (hat : Job.At D s.db sid (s.filled.count sid) ⟨e :: es, v, before, n⟩ P (r :: Q) R)
    (hP : Sealed D H zeroHash P) (hall : ∀ x ∈ r :: (Q ++ R), Awaits D H x)
    (hd : computeChainHash H v.prev e = .ok d) :
    ({ s.setJob sid (some ⟨es, ⟨d, { v.res with backfilledCount := v.res.backfilledCount + 1 }⟩,
      before, n⟩) with
      db := s.db.backfill r.tenantID r.eventID d v.prev
      filled := sid :: s.filled } : Backfill κ).Inv D H k := by
  obtain ⟨hr, hrest⟩ := List.forall_mem_cons.1 hall
  have hs' : s.db.stream sid = P ++ r :: (Q ++ R) := hat.stream
  have hmem : r ∈ s.db.stream sid := by simp [hs']
  have hkey : ∀ sid', sid'.Valid → sid' ≠ sid →
      (s.db.backfill r.tenantID r.eventID d v.prev).stream sid' = s.db.stream sid' :=
    fun sid' hv hne => Db.stream_backfill_ne hmem fun hk => hne (StreamID.eq_of_key_eq hv hsid hk)
  have hown : (s.db.backfill r.tenantID r.eventID d v.prev).stream sid =
      P ++ { r with hash := some d, prevHash := some v.prev } :: (Q ++ R) :=
    Db.stream_backfill_mem hs' hr.hash
  have hcount : ∀ sid', sid' ≠ sid → (sid :: s.filled).count sid' = s.filled.count sid' :=
    fun sid' hne => List.count_cons_of_ne hne.symm
  constructor
  case dense => exact fun sid' => (h.dense sid').backfill _ _
  case half =>
    intro sid' hv
    rcases eq_or_ne sid' sid with rfl | hne
    · have hrow := sealed_backfilled (List.forall₂_cons.1 hat.rest).1 hd
      have hhalf : HalfSealed D H v.prev
          ({ r with hash := some d, prevHash := some v.prev } :: (Q ++ R)) :=
        .append (L := [_]) hrow (.of_awaits hrest)
      rw [hown]
      exact .append hP (hat.prev ▸ hhalf)
    · rw [hkey sid' hv hne]
      exact h.half sid' hv
  case count =>
    intro sid' hv
    have hk := h.count sid' hv
    unfold Db.awaiting at hk ⊢
    rcases eq_or_ne sid' sid with rfl | hne
    · -- one row less awaits its digest, one more has been filled in
      rw [hs', List.countP_append, List.countP_cons_of_pos (by rw [hr.hash]; rfl)] at hk
      rw [hown, List.countP_append, List.countP_cons_of_neg (by simp), List.count_cons_self]
      omega
    · rw [hkey sid' hv hne, hcount sid' hne]
      exact hk
  case job =>
    intro sid' j hj
    rcases eq_or_ne sid' sid with rfl | hne
    · obtain rfl : _ = j := by simpa [Backfill.setJob] using hj
      refine ⟨hsid, P ++ [{ r with hash := some d, prevHash := some v.prev }], Q, R, ?_,
        (List.forall₂_cons.1 hat.rest).2, ?_, hat.appended, ?_, ?_, ?_, ?_⟩
      · rw [hown, List.append_assoc]
        rfl
      · intro x hx
        rcases List.mem_append.1 hx with hx | hx
        · exact hat.passed x hx
        · rw [List.mem_singleton.1 hx]
          exact Option.some_ne_none d
      · simp [lastHash]
      · rw [List.count_cons_self, ← hat.backfilled]
        exact Nat.add_right_comm ..
      · rw [List.length_append, List.length_singleton, ← hat.counted]
        exact Nat.add_right_comm ..
      · rw [List.length_append, List.length_singleton, Nat.add_assoc, Nat.add_comm 1]
        exact hat.read
    · obtain ⟨hv, P', Q', R', hat'⟩ := h.job sid' j (by simpa [Backfill.setJob, hne] using hj)
      exact ⟨hv, P', Q', R', hat'.congr (hkey sid' hv hne) (hcount sid' hne)⟩
  case finished =>
    intro f hf
    obtain ⟨hv, hdone⟩ := h.finished f hf
    have hne : f.sid ≠ sid := by
      rintro rfl
      exact hdone.sealed r hmem hr.hash
    exact ⟨hv, hdone.err, hdone.backfilled, hdone.counted, by
      rw [hkey f.sid hv hne]
      exact hdone.sealed⟩

/-- **No round of a rebuild fails.** -/
theorem Inv.round (h : s.Inv D H k) {e : Envelope} {es : List Envelope} {v : RebuildVars}
    {before n : ℕ} (hj : s.job sid = some ⟨e :: es, v, before, n⟩) :
    ∃ v' db', rebuildRow D H v e s.db = .ok (v', db') ∧
      ({ s.setJob sid (some ⟨es, v', before, n⟩) with
        db := db'
        filled := if e.hash.length = 0 then sid :: s.filled else s.filled } :
          Backfill κ).Inv D H k := by
  obtain ⟨hsid, P, _, R, hat⟩ := h.job sid _ hj
  obtain ⟨r, Q, he, -, rfl⟩ := List.forall₂_cons_right_iff.1 hat.rest
  have hhalf := h.half sid hsid
  rw [hat.stream] at hhalf
  -- the part that the rebuild has been through is sealed, and the row follows it
  obtain ⟨hP, hhalf⟩ := hhalf.split hat.passed
  rw [← hat.prev] at hhalf
  rcases hhalf with ⟨e', he', hh, -, hc, -⟩ | hall
  · obtain rfl : e' = e := Except.ok.inj (he'.symm.trans he)
    obtain ⟨hlen, hrow⟩ : e'.hash.length ≠ 0 ∧ EventStore.rebuildRow D H v e' s.db = _ :=
      rebuildRow_sealed hc
    refine ⟨_, _, hrow, ?_⟩
    rw [if_neg hlen]
    exact h.verify hsid hat hh
  · have hr := hall r List.mem_cons_self
    have hmem : r ∈ s.db.stream sid := by simp [hat.stream]
    have hlen : v.prev.length = 32 := by
      rw [hat.prev]
      exact hP.lastHash_size length_zeroHash
    obtain ⟨d, hd, hzero, hrow⟩ := hr.rebuildRow he (Db.mem_stream.1 hmem).1 hlen
    refine ⟨_, _, hrow, ?_⟩
    rw [if_pos hzero]
    exact h.fill hsid hat hP hall hd

/-- An append to a stream whose last row has a digest carries its chain on. -/
theorem Inv.appended (h : s.Inv D H k) {p : AppendParams} {db' : Db κ} {rows : List (EventRow κ)}
    (ha : Appended D H E p s.db db' rows)
    (hle : p.expectedVersion ≤ (s.db.stream p.streamID).length) (hrb : p.ReadBack D E)
    (hlast : ∀ r ∈ (s.db.stream p.streamID).getLast?, r.hash ≠ none) :
    ({ s with db := db' } : Backfill κ).Inv D H k := by
  have hsealed := (h.half p.streamID ha.valid).sealed hlast
  have hpred := (h.dense p.streamID).predecessorHash_eq fun r hr =>
    hsealed.hash_size r (List.mem_of_getLast? hr)
  -- the new rows carry on the chain
  have hrows : Sealed D H (lastHash zeroHash (s.db.stream p.streamID)) rows := by
    rw [← hpred]
    exact sealed_iff.2 (ha.written.chained ha.valid hrb)
  have hstream : ∀ sid, sid.Valid → db'.stream sid = s.db.stream sid ∨
      sid = p.streamID ∧ db'.stream sid = s.db.stream sid ++ rows := by
    intro sid hv
    by_cases hk : sid.key = p.streamID.key
    · exact Or.inr ⟨StreamID.eq_of_key_eq hv ha.valid hk, ha.stream_key hk⟩
    · exact Or.inl (ha.stream_ne hk)
  constructor
  case dense => exact ha.dense h.dense hle
  case half =>
    intro sid hv
    rcases hstream sid hv with hs | ⟨rfl, hs⟩
    · exact hs ▸ h.half sid hv
    · rw [hs]
      exact (hsealed.append hrows).half
  case count =>
    intro sid hv
    rw [← h.count sid hv]
    rcases hstream sid hv with hs | ⟨rfl, hs⟩
    · rw [Db.awaiting, hs]
      rfl
    · have hzero : rows.countP (fun r => r.hash.isNone) = 0 :=
        List.countP_eq_zero.2 fun r hr hn =>
          hrows.hash_ne_none r hr (Option.isNone_iff_eq_none.1 hn)
      rw [Db.awaiting, hs, List.countP_append, hzero]
      rfl
  case job =>
    intro sid j hj
    obtain ⟨hv, P, Q, R, hat⟩ := h.job sid j hj
    rcases hstream sid hv with hs | ⟨rfl, hs⟩
    · exact ⟨hv, P, Q, R, hat.congr hs rfl⟩
    · refine ⟨hv, P, Q, R ++ rows, ?_, hat.rest, hat.passed, fun r hr => ?_, hat.prev,
        hat.backfilled, hat.counted, hat.read⟩
      · rw [hs, hat.stream, List.append_assoc, List.append_assoc]
      · exact (List.mem_append.1 hr).elim (hat.appended r) (hrows.hash_ne_none r)
  case finished =>
    intro f hf
    obtain ⟨hv, hdone⟩ := h.finished f hf
    refine ⟨hv, hdone.err, hdone.backfilled, hdone.counted, fun r hr => ?_⟩
    rcases hstream f.sid hv with hs | ⟨-, hs⟩
    · exact hdone.sealed r (hs ▸ hr)
    · rw [hs] at hr
      exact (List.mem_append.1 hr).elim (hdone.sealed r) (hrows.hash_ne_none r)

/-- An orderly step keeps the invariant. -/
theorem Inv.step (h : s.Inv D H k) {l : BackfillStep} {s' : Backfill κ} (hok : Orderly D s l)
    (hstep : s.next D H l = some s') : s'.Inv D H k := by
  cases l with
  | append E p =>
    obtain ⟨hle, hrb, hlast⟩ := hok
    rw [(h.dense _).currentStreamVersion_eq] at hle
    rw [(h.dense _).streamRows_eq] at hlast
    obtain rfl := Option.some.inj hstep
    rcases hres : EventStore.append D H E p s.db with ⟨e | r, db'⟩
    · have hsame := append_error hres
      exact ⟨fun sid => hsame.dense (h.dense sid),
        fun sid hv => hsame.stream_eq sid ▸ h.half sid hv,
        fun sid hv => by rw [Db.awaiting, hsame.stream_eq]; exact h.count sid hv,
        fun sid j hj => (h.job sid j hj).imp_right fun ⟨P, Q, R, hat⟩ =>
          ⟨P, Q, R, hat.congr (hsame.stream_eq sid) rfl⟩,
        fun f hf => (h.finished f hf).imp_right fun hd =>
          ⟨hd.err, hd.backfilled, hd.counted, hsame.stream_eq f.sid ▸ hd.sealed⟩⟩
    · obtain ⟨rows, ha⟩ := append_ok hres
      exact h.appended ha hle hrb hlast
  | start sid =>
    obtain ⟨envs, henvs, -, hinv⟩ := h.start hok
    simp only [next, henvs] at hstep
    split at hstep
    · cases hstep
    · rename_i heq
      cases heq
    · rename_i heq
      obtain rfl := Except.ok.inj heq
      exact Option.some.inj hstep ▸ hinv
  | round sid =>
    simp only [next] at hstep
    split at hstep
    · cases hstep
    · rename_i hj
      exact Option.some.inj hstep ▸ h.finish hj rfl
    · rename_i hj
      obtain ⟨v', db', hrow, hinv⟩ := h.round hj
      rw [hrow] at hstep
      exact Option.some.inj hstep ▸ hinv
  | interrupt sid => exact Option.some.inj hstep ▸ h.setJob (by simp)

theorem Inv.run {s₀ : Backfill κ} {ls : List BackfillStep} (h : s₀.Inv D H k)
    (hrun : ((backfillSystem D H).restrict (Orderly D)).Run s₀ ls s) : s.Inv D H k :=
  hrun.invariant (I := fun s => s.Inv D H k) h fun _ _ _ hs hstep => hs.step hstep.1 hstep.2

/-- A stream without a missing digest verifies. -/
theorem Inv.verifies (h : s.Inv D H k) (hsid : sid.Valid)
    (hall : ∀ r ∈ s.db.stream sid, r.hash ≠ none) :
    verifyStreamChain H (readStream D s.db) sid = .ok () := by
  have hsealed := (h.half sid hsid).sealed fun r hr => hall r (List.mem_of_getLast? hr)
  obtain ⟨-, envs, henvs, hver⟩ := sealed_iff.1 hsealed
  exact Except.bind_eq_ok.2 ⟨envs, (readStream_eq_ok (h.dense sid)).2 ⟨hsid, henvs⟩, hver⟩

/-- No step takes a digest away or changes it. -/
theorem mem_of_next {l : BackfillStep} {s' : Backfill κ} (hstep : s.next D H l = some s')
    {r : EventRow κ} (hr : r ∈ s.db.events.rows) (hh : r.hash ≠ none) :
    r ∈ s'.db.events.rows := by
  cases l with
  | append E p =>
    obtain rfl := Option.some.inj hstep
    rcases hres : EventStore.append D H E p s.db with ⟨e | a, db'⟩
    · exact (append_error hres).1 ▸ hr
    · obtain ⟨rows, ha⟩ := append_ok hres
      exact ha.events ▸ List.mem_append_left _ hr
  | start sid =>
    simp only [next] at hstep
    split at hstep
    · cases hstep
    · exact Option.some.inj hstep ▸ hr
    · exact Option.some.inj hstep ▸ hr
  | round sid =>
    simp only [next] at hstep
    split at hstep
    · cases hstep
    · exact Option.some.inj hstep ▸ hr
    · rename_i e es v before n hj
      split at hstep
      · exact Option.some.inj hstep ▸ hr
      · rename_i v' db' hrow
        obtain rfl := Option.some.inj hstep
        exact mem_of_rebuildRow hrow hr hh
  | interrupt sid => exact Option.some.inj hstep ▸ hr

theorem step_round {s' : Backfill κ} (h : s.next D H (.round sid) = some s') :
    ((backfillSystem D H).restrict (Orderly D)).step s (.round sid) s' := ⟨trivial, h⟩

/-- The rounds of a rebuild with nothing in between are the loop. -/
theorem run_rebuildFrom {rest : List Envelope} {v : RebuildVars} {before n : ℕ}
    (hj : s.job sid = some ⟨rest, v, before, n⟩) :
    ∃ ls s', ((backfillSystem D H).restrict (Orderly D)).Run s ls s' ∧ s'.job sid = none ∧
      ∃ res err, rebuildFrom D H v rest s.db = (res, err, s'.db) ∧
        ⟨sid, before, n, res, err⟩ ∈ s'.finished := by
  have hnone : ∀ j err, (s.finish sid j err).job sid = none := fun _ _ => Function.update_self ..
  induction rest generalizing s v with
  | nil =>
    have hstep : s.next D H (.round sid) = some (s.finish sid ⟨[], v, before, n⟩ none) := by
      simp only [next, hj]
    exact ⟨_, _, .snoc (.done s) (step_round hstep), hnone _ _, v.res, none, rfl,
      List.mem_append_right _ List.mem_cons_self⟩
  | cons e es ih =>
    cases hrow : rebuildRow D H v e s.db with
    | error err =>
      have hstep : s.next D H (.round sid) =
          some (s.finish sid ⟨e :: es, v, before, n⟩ (some err)) := by
        simp only [next, hj, hrow]
      refine ⟨_, _, .snoc (.done s) (step_round hstep), hnone _ _, v.res, some err,
        ?_, List.mem_append_right _ List.mem_cons_self⟩
      simp only [rebuildFrom, hrow]
      rfl
    | ok p =>
      obtain ⟨v', db'⟩ := p
      have hstep : s.next D H (.round sid) = some
          { s.setJob sid (some ⟨es, v', before, n⟩) with
            db := db'
            filled := if e.hash.length = 0 then sid :: s.filled else s.filled } := by
        simp only [next, hj, hrow]
      obtain ⟨ls, s', hrun, hjob, res, err, hloop, hmem⟩ := ih
        (s := { s.setJob sid (some ⟨es, v', before, n⟩) with
            db := db'
            filled := if e.hash.length = 0 then sid :: s.filled else s.filled })
        (v := v') (Function.update_self ..) fun _ _ => Function.update_self ..
      refine ⟨_, s', .cons (step_round hstep) hrun, hjob, res, err, ?_, hmem⟩
      simp only [rebuildFrom, hrow]
      exact hloop

/-- A rebuild with nothing in between its statements is a run. -/
theorem Inv.run_rebuildStreamChain (h : s.Inv D H k) (hsid : sid.Valid) (hj : s.job sid = none) :
    ∃ ls s', ((backfillSystem D H).restrict (Orderly D)).Run s ls s' ∧ s'.job sid = none ∧
      ∃ res err, rebuildStreamChain D H sid s.db = (res, err, s'.db) ∧
        ⟨sid, s.filled.count sid, (s.db.stream sid).length, res, err⟩ ∈ s'.finished := by
  obtain ⟨envs, henvs, hlen, -⟩ := h.start hsid
  have hstep : ((backfillSystem D H).restrict (Orderly D)).step s (.start sid)
      (s.setJob sid (some ⟨envs, .start, s.filled.count sid, envs.length⟩)) :=
    ⟨hsid, by simp only [backfillSystem, next, hj, henvs]⟩
  obtain ⟨ls, s', hrun, hjob, res, err, hloop, hmem⟩ :=
    run_rebuildFrom (D := D) (H := H) (s := s.setJob sid
      (some ⟨envs, .start, s.filled.count sid, envs.length⟩)) (Function.update_self ..)
  refine ⟨_, s', .cons hstep hrun, hjob, res, err, ?_, hlen ▸ hmem⟩
  rw [rebuildStreamChain, henvs]
  exact hloop

end Backfill

open Backfill in
/-- **Rebuilding the chain of old streams.**  Take any run of appends and rebuilds, row by row and
interrupted anywhere, from a store whose events are older than the chain, in which every append
finds its stream empty or ending in a row with a digest.  Then every rebuild that has returned has
succeeded, has filled in the rows older than the chain that earlier ones had left, and has left a
stream that verifies; a further call of `RebuildStreamChain` does so as well, and one after it
fills in nothing and checks the whole stream; and no step changes a digest. -/
theorem rebuild_backfills {db₀ : Db κ} (h₀ : db₀.Legacy D H) {s : Backfill κ}
    {ls : List BackfillStep}
    (hrun : ((backfillSystem D H).restrict (Orderly D)).Run (.idle db₀) ls s) :
    (∀ f ∈ s.finished, f.err = none ∧
      f.res.backfilledCount + f.before = (db₀.stream f.sid).length ∧
      f.res.backfilledCount + f.res.verifiedCount = f.read ∧
      verifyStreamChain H (readStream D s.db) f.sid = .ok ()) ∧
    (∀ sid, sid.Valid → s.job sid = none → ∃ res db', rebuildStreamChain D H sid s.db =
        (res, none, db') ∧
      res.backfilledCount + s.filled.count sid = (db₀.stream sid).length ∧
      verifyStreamChain H (readStream D db') sid = .ok () ∧
      ∃ db'', rebuildStreamChain D H sid db' = (⟨0, (db'.stream sid).length⟩, none, db'')) ∧
    ∀ l s', s.next D H l = some s' → ∀ r ∈ s.db.events.rows, r.hash ≠ none →
      r ∈ s'.db.events.rows := by
  have hinv := (inv_idle h₀).run hrun
  refine ⟨fun f hf => ?_, fun sid hsid hj => ?_, fun l s' hstep r hr hh => mem_of_next hstep hr hh⟩
  · obtain ⟨hv, hd⟩ := hinv.finished f hf
    exact ⟨hd.err, hd.backfilled, hd.counted, hinv.verifies hv hd.sealed⟩
  · -- the call, and the one after it, are runs of the system
    obtain ⟨ls₁, s₁, hrun₁, hj₁, res₁, err₁, hres₁, hmem₁⟩ := hinv.run_rebuildStreamChain hsid hj
    have hinv₁ := hinv.run hrun₁
    obtain ⟨-, hd₁⟩ := hinv₁.finished _ hmem₁
    obtain ⟨ls₂, s₂, hrun₂, -, res₂, err₂, hres₂, hmem₂⟩ :=
      hinv₁.run_rebuildStreamChain hsid hj₁
    obtain ⟨-, hd₂⟩ := (hinv₁.run hrun₂).finished _ hmem₂
    refine ⟨res₁, s₁.db, ?_, hd₁.backfilled, hinv₁.verifies hsid hd₁.sealed, s₂.db, ?_⟩
    · rw [hres₁, show err₁ = none from hd₁.err]
    · -- nothing was left for the second one
      have hleft : s₁.db.awaiting sid = 0 := List.countP_eq_zero.2 fun r hr hn =>
        hd₁.sealed r hr (Option.isNone_iff_eq_none.1 hn)
      have hcount := hinv₁.count sid hsid
      have hb := hd₂.backfilled
      have hc := hd₂.counted
      rw [hleft, Nat.zero_add] at hcount
      simp only at hb hc
      have hres : res₂ = ⟨0, (s₁.db.stream sid).length⟩ := by
        cases res₂
        simp only [RebuildResult.mk.injEq]
        simp only at hb hc
        omega
      rw [hres₂, hres, show err₂ = none from hd₂.err]

/-! ### An old stream -/

/-- The row as it was written before there was a chain. -/
def EventRow.unchained (r : EventRow κ) : EventRow κ := { r with hash := none, prevHash := none }

theorem EventRow.clash_of_unchained (a b : EventRow κ) (h : a.unchained.Clash b.unchained) :
    a.Clash b := h

/-- The store before the migration that introduced the chain. -/
def Db.unchained (db : Db κ) : Db κ :=
  { db with
    events := db.events.update EventRow.unchained EventRow.clash_of_unchained
    ordered := by
      rw [Table.rows_update, List.map_map]
      exact db.ordered }

theorem Db.Dense.unchained {db : Db κ} {sid : StreamID} (h : db.Dense sid) :
    db.unchained.Dense sid := by
  have hs : db.unchained.stream sid = (db.stream sid).map EventRow.unchained := List.filter_map ..
  rw [Db.Dense, hs, List.map_map, List.length_map]
  exact h

/-- One event of the stream `order:1` that is older than the chain. -/
def oldDb : Db (Sqlite.columns Bytes) :=
  (append (Sqlite.dialect .small) .small .calm (.bare 0 "a") Db.empty).2.unchained

theorem oldDb_legacy : oldDb.Legacy (Sqlite.dialect .small) .small where
  dense sid := by
    refine Db.Dense.unchained ?_
    exact (Db.Wf.empty.append (Nat.zero_le _)).dense sid
  awaits r hr := by
    have hcols : ∀ r ∈ oldDb.events.rows, r.hash = none ∧ r.prevHash = none ∧
        (rowToEnvelope (Sqlite.dialect .small) r).isOk = true := by decide +kernel
    obtain ⟨hh, hp, he⟩ := hcols r hr
    cases hrow : rowToEnvelope (Sqlite.dialect .small) r with
    | error _ => rw [hrow] at he; cases he
    | ok e => exact ⟨hh, hp, e, hrow, _, rfl⟩

/-- An append is at the head of its stream, and the stream ends in a digest, if it has a row. -/
def Backfill.carriesOn (s : Backfill κ) : BackfillStep → Bool
  | .append _ p => decide (p.expectedVersion ≤ s.db.currentStreamVersion p.streamID) &&
      (s.db.streamRows p.streamID).getLast?.all fun r => r.hash.isSome
  | _ => true

theorem Backfill.orderly_append {s : Backfill κ} {p : AppendParams} (hrb : p.ReadBack D E)
    (h : s.carriesOn (.append E p) = true) : Orderly D s (.append E p) := by
  obtain ⟨hle, hlast⟩ := Bool.and_eq_true_iff.1 h
  refine ⟨of_decide_eq_true hle, hrb, fun r hr => Option.isSome_iff_ne_none.1 ?_⟩
  rw [Option.mem_def.1 hr] at hlast
  exact hlast

/-- A rebuild of the old stream is interrupted; the next one fills in the row, and returns after
an append has committed. -/
theorem rebuild_backfills_interrupted :
    let D := Sqlite.dialect .small
    let sid : StreamID := ⟨"acme", "order", "1"⟩
    ∃ s : Backfill (Sqlite.columns Bytes),
      (s.finished.map fun f => (f.sid, f.before, f.res)) = [(sid, 0, ⟨1, 0⟩)] ∧
        s.db.currentStreamVersion sid = 2 ∧
        verifyStreamChain .small (readStream D s.db) sid = .ok () := by
  intro D sid
  let ls : List BackfillStep := [.start sid, .interrupt sid, .start sid, .round sid,
    .append .calm (.bare 1 "b"), .round sid]
  let f := fun (s : Backfill (Sqlite.columns Bytes)) l =>
    if s.carriesOn l then s.next D .small l else none
  have hend : (TS.exec f (.idle oldDb) ls).map (fun s =>
      (s.finished.map fun f => (f.sid, f.before, f.res), s.db.currentStreamVersion sid)) =
        some ([(sid, 0, ⟨1, 0⟩)], 2) := by decide +kernel
  obtain ⟨s, hs, he⟩ := Option.map_eq_some_iff.1 hend
  obtain ⟨hfin, hver⟩ := Prod.mk.inj he
  have hrb : (AppendParams.bare 1 "b").ReadBack D .calm := fun ev hev i => by
    obtain rfl := List.mem_singleton.1 hev
    exact Sqlite.Library.small_lossless.readsBack i (by decide) (by decide)
  have hsid : sid.Valid := by decide
  have hrun : ((backfillSystem D .small).restrict (Orderly D)).Run (.idle oldDb) ls s := by
    refine TS.Run.exec (fun l hl s s' h => ?_) hs
    simp only [f] at h
    split_ifs at h with hc
    refine ⟨?_, h⟩
    simp only [ls, List.mem_cons, List.not_mem_nil, or_false] at hl
    rcases hl with rfl | rfl | rfl | rfl | rfl | rfl
    · exact hsid
    · trivial
    · exact hsid
    · trivial
    · exact Backfill.orderly_append hrb hc
    · trivial
  obtain ⟨fin, hmem, hf⟩ := List.mem_map.1 (hfin ▸ List.mem_singleton.2 rfl)
  obtain ⟨-, -, -, hv⟩ := (rebuild_backfills oldDb_legacy hrun).1 fin hmem
  rw [(Prod.mk.inj hf).1] at hv
  exact ⟨s, hfin, hver, hv⟩

/-- **An append to a stream that awaits its digests breaks the chain.**  The append is linked to
`zeroHash`, because the last row has no digest; the rebuild then reports a broken chain. -/
theorem rebuild_breaks :
    let D := Sqlite.dialect .small
    let sid : StreamID := ⟨"acme", "order", "1"⟩
    let db := (append D .small .calm (.bare 1 "b") oldDb).2
    oldDb.Legacy D .small ∧ (oldDb.stream sid).length = 1 ∧
      (append D .small .calm (.bare 1 "b") oldDb).1 = .ok ⟨2, 2, 2, 2, 0⟩ ∧
      (rebuildStreamChain D .small sid db).1 = ⟨1, 0⟩ ∧
      (rebuildStreamChain D .small sid db).2.1 = some (.wrap
        "version 2 (stored hash differs from recompute — tampering or chain corruption)"
        (.sentinel .chainBroken)) := by
  intro D sid db
  exact ⟨oldDb_legacy, by decide +kernel, by decide +kernel, by decide +kernel, by decide +kernel⟩

end EventStore
