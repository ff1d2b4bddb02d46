import EventStore.Outbox.Refused
import EventStore.Shred.Retention

/-!
# The scope of the cleanup

A Run that has drained its tenants deletes what was published longer than `CleanupRetention` ago.
The tenant of the drain goes into the statement as it is, although the empty tenant stands for all
of them everywhere else in a Run: SQLite looks for rows of the empty tenant, and Postgres does not
open a transaction for it.

The cutoff is compared with `published_at` in the column's own form.  SQLite compares the text of
`strftime` with that of `formatTime` (`Shred.Misjudged`).  Postgres has microseconds, and the driver
cuts the cutoff: a row published in the microsecond of the cutoff stays.

* `Drain.Cleans` : the Run returns without an error, and has deleted the rows of its scope that were
  published before the cutoff, and no others.
* `run_cleans_iff` : **when this is so, on each adapter.**
-/

namespace EventStore

variable {κ : Columns}

/-! ### Times -/

namespace Shred

/-- The nanoseconds from the year 0000 to the Unix epoch. -/
def unixEpoch : ℤ := 62167219200 * 10 ^ 9

/-- The instant is the time. -/
def Instant.Is (i : Instant) (t : Time) : Prop := (i.nanos : ℤ) = t + unixEpoch

/-- A timestamp as it stands in a column. -/
def Calendar.column (C : Calendar) (c : SqlTime) : String := String.ofList (C.strftime c)

/-- Different timestamps have different texts. -/
theorem Calendar.column_inj {C : Calendar} {c c' : SqlTime} (h : C.column c = C.column c') :
    c = c' := by
  have htext : C.strftime c = C.strftime c' := String.ofList_injective h
  obtain ⟨hsec, hrest⟩ := List.append_inj htext
    ((C.length_stamp _ c.sec_lt).trans (C.length_stamp _ c'.sec_lt).symm)
  have hms := List.append_cancel_right (List.cons.inj hrest).2
  have hsec' : c.sec = c'.sec := by
    rcases Nat.lt_trichotomy c.sec c'.sec with hlt | heq | hlt
    · exact absurd (hsec ▸ C.stamp_lt _ _ hlt c'.sec_lt) (List.lt_irrefl _)
    · exact heq
    · exact absurd (hsec ▸ C.stamp_lt _ _ hlt c.sec_lt) (List.lt_irrefl _)
  have hms' : c.ms = c'.ms := by
    have hc : c.ms < 10 ^ 3 := c.ms_lt
    have hc' : c'.ms < 10 ^ 3 := c'.ms_lt
    refine Nat.le_antisymm (Nat.not_lt.1 fun hlt => ?_) (Nat.not_lt.1 fun hlt => ?_)
    · exact List.lt_irrefl _ (hms ▸ (Decimal.digits_lt_digits hc' hc).2 hlt)
    · exact List.lt_irrefl _ (hms ▸ (Decimal.digits_lt_digits hc hc').2 hlt)
  cases c
  cases c'
  simp_all

end Shred

/-! ### The cleanup pass -/

namespace Drain

/-- The Run comes to its cleanup pass in the state `p`. -/
structure Reaches (d : Drain) (A : OutboxAdapter κ) (w : World) (fuel : ℕ) (s : OutboxDb κ)
    (p : Progress κ) : Prop where
  valid : d.validate = .ok ()
  read : d.readQuarantined w = none
  drained : d.tryBatches A w fuel (d.begun s) = some (p, .drained)

/-- What the cleanup pass compares `published_at` with. -/
def cutoff (d : Drain) (w : World) (p : Progress κ) : Time := w.clock p.tick - d.cleanupRetention

/-- A row of the scope that was published before the cutoff, by what `published_at` stands for. -/
def Outdated (d : Drain) (before : κ.Time → Prop) (o : OutboxEntry κ) : Prop :=
  d.Covers o.tenantID ∧ ∃ t, o.publishedAt = some t ∧ before t

/-- The Run returns without an error, and its cleanup pass has deleted the outdated rows and no
others. -/
def Cleans (d : Drain) (A : OutboxAdapter κ) (w : World) (fuel : ℕ) (s : OutboxDb κ)
    (p : Progress κ) (before : κ.Time → Prop) : Prop :=
  ∃ p', d.tryRun A w fuel s = some (p', .drained) ∧
    p'.store.outbox.Sublist p.store.outbox ∧
    ∀ o ∈ p.store.outbox, o ∈ p'.store.outbox ↔ ¬ d.Outdated before o

variable {d : Drain} {A : OutboxAdapter κ} {w : World} {fuel : ℕ} {s : OutboxDb κ}
  {p : Progress κ} {before : κ.Time → Prop}

theorem Reaches.tryRun (h : d.Reaches A w fuel s p) :
    d.tryRun A w fuel s = some (d.tryCleanup A w p) := by
  unfold Drain.tryRun
  rw [h.valid, h.read]
  dsimp only
  rw [h.drained]
  rfl

/-- A Run cleans up as it should if the adapter takes the scope, and the rows it finds expired are
the outdated ones. -/
theorem cleans_iff (hreach : d.Reaches A w fuel s p) (hret : 0 < d.cleanupRetention)
    (hfault : w.fault .cleanup = none) : d.Cleans A w fuel s p before ↔
      A.scopeErr d.tenant = none ∧ ∀ o ∈ p.store.outbox,
        A.expired d.tenant (d.cutoff w p) o = true ↔ d.Outdated before o := by
  rw [Cleans, hreach.tryRun, tryCleanup, if_pos hret, OutboxAdapter.cleanupPublished, hfault,
    Option.or_none]
  cases hscope : A.scopeErr d.tenant with
  | some e =>
    refine iff_of_false ?_ fun h => Option.some_ne_none _ h.1
    rintro ⟨p', hrun, -⟩
    cases (Prod.mk.inj (Option.some.inj hrun)).2
  | none =>
    have hmem : ∀ o ∈ p.store.outbox,
        (o ∈ (A.cleanupPublishedOutbox d.tenant (d.cutoff w p) p.store).outbox ↔
          ¬ A.expired d.tenant (d.cutoff w p) o = true) := by
      intro o ho
      rw [OutboxDialect.cleanupPublishedOutbox, OutboxDb.delete, List.mem_filter,
        Bool.not_eq_true', Bool.not_eq_true]
      exact and_iff_right ho
    constructor
    · rintro ⟨p', hrun, -, hrows⟩
      obtain rfl := (Prod.mk.inj (Option.some.inj hrun)).1
      exact ⟨rfl, fun o ho => not_iff_not.1 ((hmem o ho).symm.trans (hrows o ho))⟩
    · rintro ⟨-, hrows⟩
      exact ⟨_, rfl, List.filter_sublist, fun o ho => (hmem o ho).trans (not_congr (hrows o ho))⟩

end Drain

/-! ### The two adapters -/

/-- A row published at the time `us` is in the microsecond of the cutoff, and the driver cuts the
cutoff off there. -/
def Postgres.CutShort (us cutoff : ℤ) : Prop := us = cutoff / 1000 ∧ cutoff % 1000 ≠ 0

instance (us cutoff : ℤ) : Decidable (Postgres.CutShort us cutoff) := instDecidableAnd

/-- A `TIMESTAMPTZ` is compared with the cutoff as the time it stands for, unless the cutoff is cut
short. -/
theorem Postgres.lt_micros_iff {us cutoff : ℤ} :
    (us < Postgres.micros cutoff ↔ us * 1000 < cutoff) ↔ ¬ Postgres.CutShort us cutoff := by
  unfold Postgres.micros Postgres.CutShort
  constructor
  · rintro h ⟨rfl, hne⟩
    exact absurd (h.2 (by omega)) (Int.lt_irrefl _)
  · intro hcut
    constructor <;> intro hlt <;> omega

theorem Postgres.scopeErr_adapter {J : Type} {L : Postgres.Library J} {tenant : String} :
    (Postgres.adapter L).scopeErr tenant = none ↔ tenant ≠ "" := by
  by_cases ht : tenant = ""
  · refine iff_of_false ?_ fun h => h ht
    rw [show (Postgres.adapter L).scopeErr tenant = some _ from if_pos ht]
    exact Option.some_ne_none _
  · exact iff_of_true (if_neg ht) ht

/-- Postgres compares microseconds. -/
theorem Postgres.expired_adapter {J : Type} {L : Postgres.Library J} {tenant : String}
    {cutoff : Time} {o : OutboxEntry (Postgres.columns J)} :
    (Postgres.adapter L).expired tenant cutoff o = true ↔
      o.tenantID = tenant ∧ ∃ us, o.publishedAt = some us ∧ us < Postgres.micros cutoff := by
  unfold OutboxDialect.expired
  rw [Bool.and_eq_true, beq_iff_eq, Option.any_eq_true]
  refine and_congr_right fun _ => exists_congr fun us => and_congr_right fun _ => ?_
  exact decide_eq_true_iff

/-- SQLite compares the text of a timestamp with that of the cutoff. -/
theorem Sqlite.expired_adapter {J : Type} {L : Sqlite.Library J} {strftime : Time → String}
    {tenant : String} {cutoff : Time} {o : OutboxEntry (Sqlite.columns J)} :
    (Sqlite.adapter L strftime).expired tenant cutoff o = true ↔
      o.tenantID = tenant ∧ ∃ t, o.publishedAt = some t ∧ t < L.format cutoff := by
  unfold OutboxDialect.expired
  rw [Bool.and_eq_true, beq_iff_eq, Option.any_eq_true]
  refine and_congr_right fun _ => exists_congr fun t => and_congr_right fun _ => ?_
  exact decide_eq_true_iff

/-- Where the texts are those of a calendar, a row is compared as the time it stands for, unless it
is misjudged. -/
theorem Sqlite.column_lt_iff {J : Type} {C : Shred.Calendar} {L : Sqlite.Library J}
    {cutoff : Time} {i : Shred.Instant} {c : Shred.SqlTime}
    (hformat : L.format cutoff = String.ofList (C.formatTime i)) :
    (C.column c < L.format cutoff ↔ c.nanos < i.nanos) ↔ ¬ Shred.Misjudged c i := by
  rw [hformat, ← Shred.strftime_lt_formatTime_iff C]
  have htexts : C.column c < String.ofList (C.formatTime i) ↔ C.strftime c < C.formatTime i := by
    change (String.ofList (C.strftime c)).toList < (String.ofList (C.formatTime i)).toList ↔ _
    rw [String.toList_ofList, String.toList_ofList]
  rw [htexts]

/-- The text stands for a time before the cutoff. -/
def Sqlite.Before (C : Shred.Calendar) (cutoff : Time) (t : String) : Prop :=
  ∃ c, t = C.column c ∧ (c.nanos : ℤ) < cutoff + Shred.unixEpoch

/-- The `TIMESTAMPTZ` stands for a time before the cutoff. -/
def Postgres.Before (cutoff : Time) (us : ℤ) : Prop := us * 1000 < cutoff

theorem Sqlite.before_column {C : Shred.Calendar} {cutoff : Time} {i : Shred.Instant}
    {c : Shred.SqlTime} (hi : i.Is cutoff) :
    Sqlite.Before C cutoff (C.column c) ↔ c.nanos < i.nanos := by
  rw [Sqlite.Before, ← show (i.nanos : ℤ) = cutoff + Shred.unixEpoch from hi]
  constructor
  · rintro ⟨c', hc, hlt⟩
    rw [Shred.Calendar.column_inj hc]
    exact Int.ofNat_lt.1 hlt
  · exact fun hlt => ⟨c, rfl, Int.ofNat_lt.2 hlt⟩

/-- A row that is not published is neither expired nor outdated, and one that is can be judged by
its time. -/
theorem Drain.outdated_iff {d : Drain} {before : κ.Time → Prop} {o : OutboxEntry κ} {t : κ.Time}
    (h : o.publishedAt = some t) : d.Outdated before o ↔ d.Covers o.tenantID ∧ before t := by
  rw [Drain.Outdated, h]
  refine and_congr_right fun _ => ⟨?_, fun hb => ⟨t, rfl, hb⟩⟩
  rintro ⟨t', ht, hb⟩
  rwa [Option.some.inj ht]

/-- **What the cleanup pass deletes.**  A Run that comes to its cleanup pass returns without an
error and has deleted exactly the rows of its scope that were published before
`now - CleanupRetention`

* on SQLite if and only if no published row of its scope is of the tenant of the drain and
  misjudged, or of another tenant (the scope is all tenants) and outdated;
* on Postgres if and only if the scope is not all tenants, and no row of the tenant was published in
  the microsecond the cutoff is cut off in. -/
theorem run_cleans_iff (d : Drain) (w : Drain.World) (fuel : ℕ) (hret : 0 < d.cleanupRetention)
    (hfault : w.fault .cleanup = none) :
    (∀ {J : Type} (C : Shred.Calendar) (L : Sqlite.Library J) (strftime : Time → String)
        (s : OutboxDb (Sqlite.columns J)) (p : Drain.Progress (Sqlite.columns J))
        (i : Shred.Instant), d.Reaches (Sqlite.adapter L strftime) w fuel s p →
      i.Is (d.cutoff w p) → L.format (d.cutoff w p) = String.ofList (C.formatTime i) →
      (∀ o ∈ p.store.outbox, ∀ t, o.publishedAt = some t → ∃ c, t = C.column c) →
      (d.Cleans (Sqlite.adapter L strftime) w fuel s p (Sqlite.Before C (d.cutoff w p)) ↔
        ∀ o ∈ p.store.outbox, ∀ c, o.publishedAt = some (C.column c) → d.Covers o.tenantID →
          if o.tenantID = d.tenant then ¬ Shred.Misjudged c i
          else ¬ Sqlite.Before C (d.cutoff w p) (C.column c))) ∧
    ∀ {J : Type} (L : Postgres.Library J) (s : OutboxDb (Postgres.columns J))
        (p : Drain.Progress (Postgres.columns J)), d.Reaches (Postgres.adapter L) w fuel s p →
      (d.Cleans (Postgres.adapter L) w fuel s p (Postgres.Before (d.cutoff w p)) ↔
        d.tenant ≠ "" ∧ ∀ o ∈ p.store.outbox, o.tenantID = d.tenant →
          ∀ us, o.publishedAt = some us → ¬ Postgres.CutShort us (d.cutoff w p)) := by
  constructor
  · intro J C L strftime s p i hreach hi hformat hcolumn
    have hnone : (Sqlite.adapter L strftime).scopeErr d.tenant = none := rfl
    rw [Drain.cleans_iff hreach hret hfault, and_iff_right hnone]
    refine forall₂_congr fun o ho => ?_
    rw [Sqlite.expired_adapter]
    cases hpub : o.publishedAt with
    | none => simp [Drain.Outdated, hpub]
    | some t =>
      obtain ⟨c, rfl⟩ := hcolumn o ho t hpub
      have hlt := Sqlite.column_lt_iff (L := L) (c := c) hformat
      have hread : ∀ {q : Shred.SqlTime → Prop},
          (∀ c', some (C.column c) = some (C.column c') → q c') ↔ q c :=
        ⟨fun h => h c rfl, fun h c' hc => Shred.Calendar.column_inj (Option.some.inj hc) ▸ h⟩
      rw [Drain.outdated_iff hpub, hread, Sqlite.before_column hi]
      by_cases ht : o.tenantID = d.tenant
      · -- the statement finds the rows of the tenant, by their texts
        have hcovers : d.Covers d.tenant := Or.inr rfl
        simpa [ht, hcovers] using hlt
      · -- and no row of another tenant, though the scope may cover it
        simp [ht]
  · intro J L s p hreach
    rw [Drain.cleans_iff hreach hret hfault, Postgres.scopeErr_adapter]
    refine and_congr_right fun hne => forall₂_congr fun o ho => ?_
    have hcovers : d.Covers o.tenantID ↔ o.tenantID = d.tenant := or_iff_right hne
    rw [Postgres.expired_adapter]
    cases hpub : o.publishedAt with
    | none => simp [Drain.Outdated, hpub]
    | some us =>
      have hlt := @Postgres.lt_micros_iff us (d.cutoff w p)
      rw [Drain.outdated_iff hpub, hcovers]
      by_cases ht : o.tenantID = d.tenant
      · simpa [ht, Postgres.Before] using hlt
      · simp [ht]

/-! ### Runs -/

namespace Drain

/-- Two events of the stream `order:1`, and one of `order:2` behind them. -/
def table : OutboxDb (Sqlite.columns Bytes) :=
  let enqueue (p : AppendParams) (s : OutboxDb (Sqlite.columns Bytes)) :=
    (s.append (Sqlite.dialect .small) .small .calm p).2
  enqueue { AppendParams.bare 0 "c" with streamID := ⟨"acme", "order", "2"⟩ }
    (enqueue (.bare 1 "b") (enqueue (.bare 0 "a") .empty))

/-- A world in which everything is published, with a clock that ticks. -/
def ticking (unit : ℤ) : World := .quiet (fun _ => none) fun n => n * unit

/-- A drain that keeps published rows for a while. -/
def keeping (tenant : String) (retention : ℤ) : Drain :=
  { single with tenant := tenant, cleanupRetention := retention }

end Drain

/-- The drain of a tenant deletes the row that was published before the cutoff, and keeps the one
published after it. -/
theorem run_cleans_tenant : ∃ p, (Drain.keeping "acme" 2500000).Reaches (Postgres.adapter .small)
      (Drain.ticking 1000000) 2 Drain.postgresTable p ∧
    p.store.outbox.map OutboxEntry.publishedAt = [some 1000, some 2000] ∧
    (Drain.keeping "acme" 2500000).cutoff (Drain.ticking 1000000) p = 1500000 ∧
    (Drain.keeping "acme" 2500000).Cleans (Postgres.adapter .small) (Drain.ticking 1000000) 2
      Drain.postgresTable p (Postgres.Before 1500000) := by
  have hobs : ((Drain.keeping "acme" 2500000).tryBatches (Postgres.adapter .small)
      (Drain.ticking 1000000) 2 ((Drain.keeping "acme" 2500000).begun Drain.postgresTable)).map
        (fun r => (r.2, r.1.tick, r.1.store.outbox.map OutboxEntry.publishedAt)) =
      some (.drained, 4, [some 1000, some 2000]) := by decide +kernel
  obtain ⟨⟨p, stop⟩, hloop, hr⟩ := Option.map_eq_some_iff.1 hobs
  obtain ⟨rfl, hr⟩ := Prod.mk.inj hr
  obtain ⟨htick, hrows⟩ := Prod.mk.inj hr
  have hreach : (Drain.keeping "acme" 2500000).Reaches (Postgres.adapter .small)
      (Drain.ticking 1000000) 2 Drain.postgresTable p := ⟨rfl, rfl, hloop⟩
  have hcut : (Drain.keeping "acme" 2500000).cutoff (Drain.ticking 1000000) p = 1500000 := by
    change (p.tick : ℤ) * 1000000 - 2500000 = 1500000
    rw [htick]
    rfl
  refine ⟨p, hreach, hrows, hcut, ?_⟩
  have hiff := (run_cleans_iff (Drain.keeping "acme" 2500000) (Drain.ticking 1000000) 2 (by decide)
    rfl).2 .small Drain.postgresTable p hreach
  rw [hcut] at hiff
  exact hiff.2 ⟨by decide, fun o _ _ us _ h => h.2 rfl⟩

/-- **The drain of all tenants deletes nothing on SQLite, and fails on Postgres.**  On SQLite every
row is published and the cutoff is later than all of them, and they stay. -/
theorem run_cleans_all :
    ((Drain.keeping "" 1).tryRun (Sqlite.adapter .small Sqlite.Library.small.format)
        (Drain.ticking 1) 5 Drain.table).map
          (fun r => (r.2, r.1.tick, r.1.store.outbox.map OutboxEntry.publishedAt)) =
        some (.drained, 6, [some "+n", some "+nnnn", some "+nn"]) ∧
      Sqlite.Library.small.format (6 - 1) = "+nnnnn" ∧
      ((Drain.keeping "" 2500000).tryRun (Postgres.adapter .small) (Drain.ticking 1000000) 5
        Drain.postgresTable).map (fun r => r.2) =
        some (.failed (.wrap "outbox cleanup"
          (.text "postgres: tenant id required (ADR 0007)"))) := by
  decide +kernel

end EventStore
