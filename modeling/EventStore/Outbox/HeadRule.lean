import EventStore.Outbox.Store
import EventStore.Shred.Retention
import Mathlib.Data.Char
import Mathlib.Data.List.Dedup

/-!
# The head rule in two dialects

`PendingOutboxWithEnvelope` of the two adapters.  Both select, from the join of `outbox` and
`events`, the rows that are unpublished, below the threshold of attempts, due, and of the lowest
such version of their stream.  SQLite joins with a table of the lowest versions, grouped by stream;
Postgres asks that no lower version exists.  The rows are then put in the order of their positions
and cut at the limit, and an engine may order rows of one position as it likes
(`FirstByPosition`).

* `Sqlite.pendingOutboxWithEnvelope_eq`, `Postgres.pendingOutboxWithEnvelope_eq` : both queries
  select the rows that are live, due and head of their stream, each once, for any tables and any
  notion of being due.
* `Sqlite.heads_eq`, `Postgres.heads_eq` : these are the rows the adapters' pages are made of.
* `headRules_agree_iff` : **the queries agree, up to the way a time is compared.**  SQLite compares
  the texts of `formatTime`, which cuts trailing zeros off; where `next_attempt_at` and the current
  time are of one second and the digits of one are a proper beginning of the other's, the later
  time has the earlier text (`Misread`).
-/

namespace EventStore

/-! ### Texts of instants -/

namespace Shred

/-- The instants are of one second, and the fraction of one is a proper beginning of the fraction
of the other. -/
def Misread (a b : Instant) : Prop := a.sec = b.sec ∧ Decimal.Clipped 9 a.ns b.ns

instance (a b : Instant) : Decidable (Misread a b) := instDecidableAnd

/-- Texts of `formatTime` compare as the instants, unless these are misread. -/
theorem formatTime_lt_formatTime_iff (C : Calendar) (a b : Instant) :
    (C.formatTime a < C.formatTime b ↔ a.nanos < b.nanos) ↔ ¬ Misread a b := by
  refine C.stamp_append_lt_iff a.sec_lt b.sec_lt a.ns_lt b.ns_lt ?_
  have hpoint : '.' < 'Z' := by decide
  by_cases ha : a.ns = 0
  · by_cases hb : b.ns = 0
    · simp [Calendar.fraction, ha, hb, Decimal.clipped_zero_left]
    · obtain ⟨hnot, hne⟩ := Decimal.not_lt_and_ne hpoint
      simp [Calendar.fraction, ha, hb, Decimal.clipped_zero_left, Ne.symm hb,
        List.cons_lt_cons_iff, Nat.pos_of_ne_zero hb, hnot, hne]
  · by_cases hb : b.ns = 0
    · simp [Calendar.fraction, ha, hb, Decimal.clipped_zero_right, List.cons_lt_cons_iff, hpoint]
    · rw [← Decimal.trimmed_lt_trimmed_iff digitChar_lt_Z a.ns_lt b.ns_lt, Calendar.fraction,
        Calendar.fraction, if_neg ha, if_neg hb, List.cons_append, List.cons_append,
        List.cons_lt_cons_iff]
      simp

end Shred

/-! ### The queries -/

variable {κ : Columns}

/-- `outbox JOIN events`. -/
def joinTables (outbox : List (OutboxEntry κ)) (events : List (EventRow κ)) : List (Pending κ) :=
  outbox.flatMap fun o =>
    (events.filter fun e => e.tenantID == o.tenantID && e.eventID == o.eventID).map (Pending.mk o)

/-- `o.next_attempt_at IS NULL OR o.next_attempt_at <= now`. -/
def Pending.ready (le : κ.Time → Bool) (x : Pending κ) : Bool := x.entry.nextAttemptAt.all le

namespace Sqlite

/-- A row of `head_versions`. -/
structure HeadVersion where
  tenantID : String
  streamID : String
  headVersion : ℕ
  deriving DecidableEq

/-- `head_versions`: the live rows grouped by stream, with the lowest version of each group. -/
def headVersions (max : ℕ) (rows : List (Pending κ)) : List HeadVersion :=
  let live := rows.filter (Pending.live max)
  (live.map fun y => (y.event.tenantID, y.event.streamID)).dedup.filterMap fun k =>
    ((live.filter fun y => y.event.tenantID == k.1 && y.event.streamID == k.2).map
      fun y => y.event.version).min?.map (HeadVersion.mk k.1 k.2)

/-- The condition of the join with `head_versions`. -/
def HeadVersion.joins (hv : HeadVersion) (x : Pending κ) : Bool :=
  hv.tenantID == x.event.tenantID && hv.streamID == x.event.streamID &&
    hv.headVersion == x.event.version

/-- `PendingOutboxWithEnvelope`, before rows are ordered and cut. -/
def pendingOutboxWithEnvelope (le : κ.Time → Bool) (max : ℕ) (outbox : List (OutboxEntry κ))
    (events : List (EventRow κ)) : List (Pending κ) :=
  let rows := joinTables outbox events
  (rows.flatMap fun x => ((headVersions max rows).filter (·.joins x)).map fun _ => x).filter
    fun x => x.entry.publishedAt.isNone && x.ready le && decide (x.entry.attempts < max)

end Sqlite

namespace Postgres

/-- `PendingOutboxWithEnvelope`, before rows are ordered and cut. -/
def pendingOutboxWithEnvelope (le : κ.Time → Bool) (max : ℕ) (outbox : List (OutboxEntry κ))
    (events : List (EventRow κ)) : List (Pending κ) :=
  (joinTables outbox events).filter fun x =>
    x.entry.publishedAt.isNone && x.ready le && decide (x.entry.attempts < max) &&
      !(joinTables outbox events).any fun y =>
        y.event.tenantID == x.event.tenantID && y.event.streamID == x.event.streamID &&
          decide (y.event.version < x.event.version) && y.entry.publishedAt.isNone &&
          decide (y.entry.attempts < max)

end Postgres

/-- `ORDER BY o.global_position LIMIT ?`; rows of one position come in any order. -/
def FirstByPosition (limit : ℕ) (rows found : List (Pending κ)) : Prop :=
  ∃ sorted : List (Pending κ), sorted.Perm rows ∧
    sorted.Pairwise (fun x y => x.entry.globalPosition ≤ y.entry.globalPosition) ∧
    found = sorted.take limit

/-! ### What they select -/

/-- The row is live, and of the lowest live version of its stream. -/
def Pending.IsHead (max : ℕ) (rows : List (Pending κ)) (x : Pending κ) : Prop :=
  x.live max = true ∧ ∀ y ∈ rows, y.sameStream x = true → y.live max = true →
    x.event.version ≤ y.event.version

instance (max : ℕ) (rows : List (Pending κ)) : DecidablePred (Pending.IsHead max rows) :=
  fun _ => instDecidableAnd

/-- The heads of their streams that are due. -/
def dueHeads (le : κ.Time → Bool) (max : ℕ) (rows : List (Pending κ)) : List (Pending κ) :=
  rows.filter fun x => decide (x.IsHead max rows) && x.ready le

theorem filter_eq_flatMap {α : Type} (p : α → Bool) (l : List α) :
    l.filter p = l.flatMap fun x => if p x then [x] else [] := by
  induction l with
  | nil => rfl
  | cons x l ih => cases h : p x <;> simp [h, ih]

namespace Sqlite

variable {max : ℕ} {rows : List (Pending κ)} {x : Pending κ}

theorem nodup_headVersions : (headVersions max rows).Nodup := by
  refine (List.nodup_dedup _).filterMap fun k k' hv h h' => ?_
  obtain ⟨v, -, rfl⟩ := Option.map_eq_some_iff.1 h
  obtain ⟨v', -, he⟩ := Option.map_eq_some_iff.1 h'
  obtain ⟨h₁, h₂, -⟩ := HeadVersion.mk.inj he
  exact Prod.ext h₁.symm h₂.symm

/-- A version is in `head_versions` if it is the lowest of the live rows of its stream. -/
theorem mem_headVersions :
    ⟨x.event.tenantID, x.event.streamID, x.event.version⟩ ∈ headVersions max rows ↔
      headVersion rows max x = some x.event.version := by
  have hgroup : (rows.filter (Pending.live max)).filter (fun y => y.event.tenantID ==
      x.event.tenantID && y.event.streamID == x.event.streamID) =
      rows.filter fun y => y.sameStream x && y.live max := List.filter_filter
  rw [headVersions, List.mem_filterMap]
  constructor
  · rintro ⟨k, -, hk⟩
    obtain ⟨v, hv, he⟩ := Option.map_eq_some_iff.1 hk
    obtain ⟨h₁, h₂, rfl⟩ := HeadVersion.mk.inj he
    rw [h₁, h₂, hgroup] at hv
    exact hv
  · intro h
    refine ⟨(x.event.tenantID, x.event.streamID), ?_, ?_⟩
    · -- the group has a row, so it is among the groups
      obtain ⟨hmem, -⟩ := List.min?_eq_some_iff.1 h
      obtain ⟨y, hy, -⟩ := List.mem_map.1 hmem
      obtain ⟨hy, hc⟩ := List.mem_filter.1 hy
      obtain ⟨hs, hl⟩ := Bool.and_eq_true_iff.1 hc
      obtain ⟨ht, hstream⟩ := Bool.and_eq_true_iff.1 hs
      rw [List.mem_dedup, List.mem_map]
      exact ⟨y, List.mem_filter.2 ⟨hy, hl⟩, Prod.ext (eq_of_beq ht) (eq_of_beq hstream)⟩
    · rw [hgroup]
      exact Option.map_eq_some_iff.2 ⟨_, h, rfl⟩

/-- A row joins with one row of `head_versions`, or with none. -/
theorem filter_joins : (headVersions max rows).filter (·.joins x) =
    if headVersion rows max x = some x.event.version then
      [⟨x.event.tenantID, x.event.streamID, x.event.version⟩] else [] := by
  have hjoins : (fun hv : HeadVersion => hv.joins x) =
      (· == ⟨x.event.tenantID, x.event.streamID, x.event.version⟩) := by
    funext hv
    rw [Bool.eq_iff_iff, beq_iff_eq, HeadVersion.joins]
    obtain ⟨t, s, v⟩ := hv
    simp [and_assoc]
  rw [hjoins, List.filter_beq, nodup_headVersions.count]
  simp only [mem_headVersions]
  split_ifs <;> rfl

/-- **The SQLite query selects the heads of their streams that are due.** -/
theorem pendingOutboxWithEnvelope_eq {le : κ.Time → Bool} {outbox : List (OutboxEntry κ)}
    {events : List (EventRow κ)} : pendingOutboxWithEnvelope le max outbox events =
      dueHeads le max (joinTables outbox events) := by
  have hjoin : (joinTables outbox events).flatMap (fun x =>
      ((headVersions max (joinTables outbox events)).filter (·.joins x)).map fun _ => x) =
      (joinTables outbox events).filter fun x =>
        headVersion (joinTables outbox events) max x == some x.event.version := by
    rw [filter_eq_flatMap]
    refine List.flatMap_congr fun x _ => ?_
    rw [filter_joins]
    by_cases h : headVersion (joinTables outbox events) max x = some x.event.version
    · rw [if_pos h, if_pos (beq_iff_eq.2 h)]
      rfl
    · rw [if_neg h, if_neg (mt beq_iff_eq.1 h)]
      rfl
  rw [pendingOutboxWithEnvelope, hjoin, List.filter_filter, dueHeads]
  refine List.filter_congr fun x hx => ?_
  rw [Bool.eq_iff_iff]
  simp only [Bool.and_eq_true, decide_eq_true_iff]
  constructor
  · rintro ⟨⟨⟨hp, hr⟩, ha⟩, hv⟩
    have hl : x.live max = true := Bool.and_eq_true_iff.2 ⟨hp, decide_eq_true ha⟩
    exact ⟨⟨hl, (headVersion_iff hx hl).1 hv⟩, hr⟩
  · rintro ⟨⟨hl, hmin⟩, hr⟩
    obtain ⟨hp, ha⟩ := Bool.and_eq_true_iff.1 hl
    exact ⟨⟨⟨hp, hr⟩, of_decide_eq_true ha⟩, (headVersion_iff hx hl).2 hmin⟩

end Sqlite

/-- **So does the Postgres query.** -/
theorem Postgres.pendingOutboxWithEnvelope_eq {le : κ.Time → Bool} {max : ℕ}
    {outbox : List (OutboxEntry κ)} {events : List (EventRow κ)} :
    pendingOutboxWithEnvelope le max outbox events =
      dueHeads le max (joinTables outbox events) := by
  refine List.filter_congr fun x _ => ?_
  have hhead := @isHead_iff _ (joinTables outbox events) max x
  simp only [isHead, Pending.sameStream, Pending.live, ← Bool.and_assoc] at hhead
  rw [Bool.eq_iff_iff, Bool.and_eq_true, hhead]
  simp only [Bool.and_eq_true, decide_eq_true_iff]
  constructor
  · rintro ⟨⟨⟨hp, hr⟩, ha⟩, hmin⟩
    refine ⟨⟨Bool.and_eq_true_iff.2 ⟨hp, decide_eq_true ha⟩, fun y hy hs hl => ?_⟩, hr⟩
    obtain ⟨hyp, hya⟩ := Bool.and_eq_true_iff.1 hl
    exact hmin y hy (Bool.and_eq_true_iff.1 hs) ⟨hyp, of_decide_eq_true hya⟩
  · rintro ⟨⟨hl, hmin⟩, hr⟩
    obtain ⟨hp, ha⟩ := Bool.and_eq_true_iff.1 hl
    refine ⟨⟨⟨hp, hr⟩, of_decide_eq_true ha⟩, fun y hy hs hl => hmin y hy ?_ ?_⟩
    · exact Bool.and_eq_true_iff.2 hs
    · exact Bool.and_eq_true_iff.2 (hl.imp_right decide_eq_true)

/-! ### The pages of the adapters -/

section Pages

variable {J : Type} {max limit : ℕ} {now : Time}

/-- The rows an adapter's page for all tenants is made of. -/
theorem OutboxDialect.heads_eq_dueHeads {Q : OutboxDialect κ} {s : OutboxDb κ} :
    Q.heads "" max now s =
      dueHeads (Q.le · (Q.base.formatTime now)) max (joinTables s.outbox s.db.events.rows) := by
  have hvis : Q.visible "" s = s.joined := if_neg fun h => h.2 rfl
  rw [OutboxDialect.heads, hvis]
  refine List.filter_congr fun x hx => ?_
  have hjoin : joinTables s.outbox s.db.events.rows = s.joined := rfl
  rw [Bool.eq_iff_iff, hjoin]
  simp only [Bool.and_eq_true, decide_eq_true_iff]
  constructor
  · rintro ⟨⟨hl, hd⟩, hh⟩
    exact ⟨⟨hl, (Q.head_iff hx hl).1 hh⟩, hd⟩
  · rintro ⟨⟨hl, hmin⟩, hd⟩
    exact ⟨⟨hl, hd⟩, (Q.head_iff hx hl).2 hmin⟩

theorem Sqlite.heads_eq {L : Sqlite.Library J} {strftime : Time → String}
    {s : OutboxDb (Sqlite.columns J)} : (Sqlite.outbox L strftime).heads "" max now s =
      Sqlite.pendingOutboxWithEnvelope (fun t : String => decide (t ≤ L.format now)) max s.outbox
        s.db.events.rows := by
  rw [OutboxDialect.heads_eq_dueHeads, Sqlite.pendingOutboxWithEnvelope_eq]
  rfl

theorem Postgres.heads_eq {L : Postgres.Library J} {s : OutboxDb (Postgres.columns J)} :
    (Postgres.outbox L).heads "" max now s =
      Postgres.pendingOutboxWithEnvelope (fun t : ℤ => decide (t ≤ Postgres.micros now)) max
        s.outbox s.db.events.rows := by
  rw [OutboxDialect.heads_eq_dueHeads, Postgres.pendingOutboxWithEnvelope_eq]
  rfl

/-- A page has the first of them. -/
theorem OutboxDialect.firstByPosition_page {Q : OutboxDialect κ} {s : OutboxDb κ} :
    FirstByPosition limit (Q.heads "" max now s) (Q.page "" limit max now s) := by
  refine ⟨byPosition (Q.heads "" max now s), List.perm_insertionSort _ _,
    List.pairwise_insertionSort _ _, ?_⟩
  rw [OutboxDialect.page, if_pos (Or.inr rfl)]

end Pages

/-! ### One content, two databases -/

/-- A time both kinds of column can hold: `TIMESTAMPTZ` has whole microseconds. -/
structure ColumnTime extends Shred.Instant where
  whole : 1000 ∣ ns

/-- Tables with such times, whatever their other columns. -/
abbrev sharedColumns (A J S : Type) : Columns := ⟨ColumnTime, A, J, S⟩

/-- The time has come. -/
def ColumnTime.notAfter (now : Shred.Instant) (t : ColumnTime) : Bool :=
  decide (t.nanos ≤ now.nanos)

/-- `<=` on texts of `formatTime`. -/
def Sqlite.notAfter (C : Shred.Calendar) (now : Shred.Instant) (t : ColumnTime) : Bool :=
  decide (C.formatTime t.toInstant ≤ C.formatTime now)

/-- `<=` on `TIMESTAMPTZ`; the driver cuts the parameter to microseconds. -/
def Postgres.notAfter (now : Shred.Instant) (t : ColumnTime) : Bool :=
  decide (t.nanos / 1000 ≤ now.nanos / 1000)

theorem Postgres.notAfter_eq : Postgres.notAfter = ColumnTime.notAfter := by
  funext now t
  have hdvd : 1000 ∣ t.nanos :=
    Nat.dvd_add (Dvd.dvd.mul_left (by decide) t.sec) t.whole
  have : t.nanos / 1000 ≤ now.nanos / 1000 ↔ t.nanos ≤ now.nanos := by omega
  rw [Postgres.notAfter, ColumnTime.notAfter, Bool.eq_iff_iff, decide_eq_true_iff,
    decide_eq_true_iff, this]

/-- The texts compare as the times unless these are misread. -/
theorem Sqlite.notAfter_eq_iff {C : Shred.Calendar} {now : Shred.Instant} {t : ColumnTime} :
    Sqlite.notAfter C now t = ColumnTime.notAfter now t ↔ ¬ Shred.Misread now t.toInstant := by
  rw [← Shred.formatTime_lt_formatTime_iff C, Sqlite.notAfter, ColumnTime.notAfter,
    Bool.eq_iff_iff, decide_eq_true_iff, decide_eq_true_iff, ← not_lt, ← Nat.not_lt,
    not_iff_not]

section Shared

variable {A J S : Type} (outbox : List (OutboxEntry (sharedColumns A J S)))
  (events : List (EventRow (sharedColumns A J S))) (now : Shred.Instant) (maxAttempts : ℕ)

/-- `found` may be what the SQLite query returns. -/
def Sqlite.Returns (C : Shred.Calendar) (limit : ℕ) (found : List (Pending (sharedColumns A J S))) :
    Prop :=
  FirstByPosition limit (Sqlite.pendingOutboxWithEnvelope (Sqlite.notAfter C now)
    (safeMaxAttempts maxAttempts) outbox events) found

/-- `found` may be what the Postgres query returns. -/
def Postgres.Returns (limit : ℕ) (found : List (Pending (sharedColumns A J S))) : Prop :=
  FirstByPosition limit (Postgres.pendingOutboxWithEnvelope (Postgres.notAfter now)
    (safeMaxAttempts maxAttempts) outbox events) found

/-- `found` are the first rows, by position, among the lowest live versions of the streams that are
due. -/
def FirstDueHeads (limit : ℕ) (found : List (Pending (sharedColumns A J S))) : Prop :=
  FirstByPosition limit (dueHeads (ColumnTime.notAfter now) (safeMaxAttempts maxAttempts)
    (joinTables outbox events)) found

end Shared

theorem FirstByPosition.mem {limit : ℕ} {rows found : List (Pending κ)} {x : Pending κ}
    (h : FirstByPosition limit rows found) (hx : x ∈ found) : x ∈ rows := by
  obtain ⟨sorted, hperm, -, rfl⟩ := h
  exact hperm.subset (List.mem_of_mem_take hx)

/-- Where the limit lets all rows pass, they come in the order of their positions. -/
theorem firstByPosition_byPosition {limit : ℕ} {rows : List (Pending κ)} (h : rows.length ≤ limit) :
    FirstByPosition limit rows (OutboxDialect.byPosition rows) := by
  have hperm : (OutboxDialect.byPosition rows).Perm rows := List.perm_insertionSort _ _
  refine ⟨_, hperm, List.pairwise_insertionSort _ _, (List.take_of_length_le ?_).symm⟩
  rwa [hperm.length_eq]

theorem FirstByPosition.perm {limit : ℕ} {rows found : List (Pending κ)}
    (h : FirstByPosition limit rows found) (hlimit : rows.length ≤ limit) : found.Perm rows := by
  obtain ⟨sorted, hperm, -, rfl⟩ := h
  rwa [List.take_of_length_le (by rwa [hperm.length_eq])]

theorem mem_dueHeads {le : κ.Time → Bool} {max : ℕ} {rows : List (Pending κ)} {x : Pending κ} :
    x ∈ dueHeads le max rows ↔ x ∈ rows ∧ x.IsHead max rows ∧ x.ready le = true := by
  rw [dueHeads, List.mem_filter, Bool.and_eq_true, decide_eq_true_iff]

/-- The heads that are due are the same in two ways of comparing times if these agree on the heads,
and only then. -/
theorem firstByPosition_dueHeads_iff {le le' : κ.Time → Bool} {max : ℕ} {rows : List (Pending κ)} :
    (∀ limit found, FirstByPosition limit (dueHeads le max rows) found ↔
        FirstByPosition limit (dueHeads le' max rows) found) ↔
      ∀ x ∈ rows, x.IsHead max rows → ∀ t ∈ x.entry.nextAttemptAt, le t = le' t := by
  have hready : ∀ x : Pending κ, x.ready le = x.ready le' ↔
      ∀ t ∈ x.entry.nextAttemptAt, le t = le' t := by
    intro x
    unfold Pending.ready
    cases x.entry.nextAttemptAt <;> simp
  have hlen : ∀ le : κ.Time → Bool, (dueHeads le max rows).length ≤ rows.length :=
    fun _ => List.length_filter_le _ _
  constructor
  · intro h x hx hhead
    -- with a limit above the number of rows both queries return all they select
    have hfound := firstByPosition_byPosition (hlen le)
    have hperm := (hfound.perm (hlen le)).symm.trans (((h _ _).1 hfound).perm (hlen le'))
    have hmem := hperm.mem_iff (a := x)
    rw [mem_dueHeads, mem_dueHeads] at hmem
    rw [← hready, Bool.eq_iff_iff]
    simpa [hx, hhead] using hmem
  · intro h limit found
    have hsame : dueHeads le max rows = dueHeads le' max rows := by
      refine List.filter_congr fun x hx => ?_
      by_cases hhead : x.IsHead max rows
      · rw [(hready x).2 (h x hx hhead)]
      · rw [decide_eq_false hhead, Bool.false_and, Bool.false_and]
    rw [hsame]

/-- No returned row is of a later version than the head of its stream. -/
theorem version_le_of_firstByPosition {le : κ.Time → Bool} {max limit : ℕ}
    {rows found : List (Pending κ)} (h : FirstByPosition limit (dueHeads le max rows) found)
    {x y : Pending κ} (hx : x ∈ rows) (hhead : x.IsHead max rows) (hy : y ∈ found)
    (hs : y.sameStream x = true) : y.event.version ≤ x.event.version := by
  obtain ⟨-, ⟨-, hmin⟩, -⟩ := mem_dueHeads.1 (h.mem hy)
  refine hmin x hx ?_ hhead.1
  simp only [Pending.sameStream, Bool.and_eq_true, beq_iff_eq] at hs ⊢
  exact ⟨hs.1.symm, hs.2.symm⟩

namespace Cooldown

theorem sec_lt : 63900000000 < Shred.calendarSeconds := by decide

theorem ns_lt : 500000000 < 10 ^ 9 := by decide

theorem ns_pos : 0 < 10 ^ 9 := by decide

theorem whole : 1000 ∣ 500000000 := by decide

/-- A full second. -/
def now : Shred.Instant := ⟨63900000000, 0, sec_lt, ns_pos⟩

/-- Half a second later. -/
def nextAttemptAt : ColumnTime := ⟨⟨63900000000, 500000000, sec_lt, ns_lt⟩, whole⟩

/-- An event. -/
def event : EventRow (sharedColumns Unit Unit Unit) where
  eventID := ⟨"placed-1"⟩
  tenantID := "acme"
  streamID := "order:1"
  version := 1
  globalPosition := 1
  typeURL := "placed"
  schemaVersion := 1
  occurredAt := nextAttemptAt
  recordedAt := nextAttemptAt
  correlationID := ⟨"placed-1"⟩
  causationID := ⟨"placed-1"⟩
  commandID := ⟨"place-1"⟩
  actor := ()
  actorPrincipal := ""
  payload := []
  payloadJSON := none
  encryptionKeyRefs := none
  hash := none
  prevHash := none

/-- Its row in the outbox, in backoff after a failure. -/
def entry : OutboxEntry (sharedColumns Unit Unit Unit) :=
  { event.outboxRow with
    publishedAt := none, attempts := 1, lastError := none, nextAttemptAt := some nextAttemptAt }

end Cooldown

end EventStore
