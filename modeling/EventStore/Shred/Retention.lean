import EventStore.Decimal.Basic
import EventStore.Shred.Calls

/-!
# The retention sweep

`RetentionWorker.RunOnce` on the SQLite store: for every tenant of a list, the keys that were
created before a cutoff are shredded, page by page.  The cutoff is `now - MaxAge`.

SQLite compares the column `created_at` with the cutoff as texts.  The column is written by
`strftime` with three digits after the second; the cutoff is written by `formatTime`, which cuts
trailing zeros off, and the point with them if there are only zeros.

* `Shreds ks s s'` : on the way from `s` to `s'` the keys `ks` have been shredded, in this order,
  and no other row has been touched.
* `Swept due s s'` : these were the keys of the rows with `due`, each of them once.
* `Quiet.sweepTenant`, `Quiet.sweepTenants` : a sweep ends, and shreds the keys whose texts are
  before the cutoff.
* `strftime_lt_formatTime_iff` : the texts compare as the instants unless they are `Misjudged`.
* `runOnce_exact_iff` : **so a sweep shreds exactly the keys created before the cutoff if none is
  misjudged**, and only then.
-/

namespace EventStore

namespace Shred

/-! ### Timestamps -/

/-- The seconds of the years 0000 to 9999. -/
def calendarSeconds : ℕ := 315569520000

/-- Seconds written as `2006-01-02T15:04:05`, for the years of four digits. -/
structure Calendar where
  stamp : ℕ → List Char
  length_stamp : ∀ s < calendarSeconds, (stamp s).length = 19
  stamp_lt : ∀ s s', s < s' → s' < calendarSeconds → stamp s < stamp s'

/-- A timestamp as SQLite has it, with milliseconds. -/
structure SqlTime where
  sec : ℕ
  ms : ℕ
  sec_lt : sec < calendarSeconds
  ms_lt : ms < 1000
  deriving DecidableEq

/-- A `time.Time`, with nanoseconds. -/
structure Instant where
  sec : ℕ
  ns : ℕ
  sec_lt : sec < calendarSeconds
  ns_lt : ns < 10 ^ 9
  deriving DecidableEq

/-- The nanoseconds of a timestamp, from the year 0000 on. -/
def SqlTime.nanos (c : SqlTime) : ℕ := c.sec * 10 ^ 9 + c.ms * 10 ^ 6

/-- The nanoseconds of an instant, from the year 0000 on. -/
def Instant.nanos (t : Instant) : ℕ := t.sec * 10 ^ 9 + t.ns

theorem Instant.nanos_lt (t : Instant) : t.nanos < calendarSeconds * 10 ^ 9 := by
  have hsec := t.sec_lt
  have hns := t.ns_lt
  unfold Instant.nanos
  omega

namespace Calendar

variable (C : Calendar)

/-- `strftime('%Y-%m-%dT%H:%M:%fZ', ...)`. -/
def strftime (c : SqlTime) : List Char := C.stamp c.sec ++ ('.' :: (Decimal.digits 3 c.ms ++ ['Z']))

/-- The fraction of a second in the layout `time.RFC3339Nano`. -/
def fraction (ns : ℕ) : List Char := if ns = 0 then [] else '.' :: Decimal.trimmed 9 ns

/-- `formatTime`. -/
def formatTime (t : Instant) : List Char := C.stamp t.sec ++ (fraction t.ns ++ ['Z'])

end Calendar

/-- The timestamp is of the second of the instant, and has the digits the instant is written with:
none of them; one or two; or all its own three, of more than three. -/
def Misjudged (c : SqlTime) (t : Instant) : Prop :=
  c.sec = t.sec ∧
    (t.ns = 0 ∨
      t.ns ≠ 0 ∧ t.ns % 10 ^ 8 = 0 ∧ c.ms / 100 = t.ns / 10 ^ 8 ∨
      t.ns % 10 ^ 8 ≠ 0 ∧ t.ns % 10 ^ 7 = 0 ∧ c.ms / 10 = t.ns / 10 ^ 7 ∨
      t.ns % 10 ^ 6 ≠ 0 ∧ c.ms = t.ns / 10 ^ 6)

instance (c : SqlTime) (t : Instant) : Decidable (Misjudged c t) := instDecidableAnd

/-- When a fraction of three digits is a proper beginning of the trimmed one, or the other way
round. -/
theorem cut_iff {ms ns : ℕ} (hns : ns ≠ 0) :
    Decimal.Cut 3 9 ms ns ↔
      ns % 10 ^ 8 = 0 ∧ ms / 100 = ns / 10 ^ 8 ∨
      ns % 10 ^ 8 ≠ 0 ∧ ns % 10 ^ 7 = 0 ∧ ms / 10 = ns / 10 ^ 7 ∨
      ns % 10 ^ 6 ≠ 0 ∧ ms = ns / 10 ^ 6 := by
  simp only [Decimal.Cut]
  norm_num
  omega

/-- Texts of two seconds compare as the nanoseconds if the rests do where the seconds are one. -/
theorem Calendar.stamp_append_lt_iff (C : Calendar) {s s' m n : ℕ} (hs : s < calendarSeconds)
    (hs' : s' < calendarSeconds) (hm : m < 10 ^ 9) (hn : n < 10 ^ 9) {u v : List Char} {p : Prop}
    (hrest : (u < v ↔ m < n) ↔ ¬ p) :
    (C.stamp s ++ u < C.stamp s' ++ v ↔ s * 10 ^ 9 + m < s' * 10 ^ 9 + n) ↔ ¬ (s = s' ∧ p) := by
  have hlen : (C.stamp s).length = (C.stamp s').length :=
    (C.length_stamp _ hs).trans (C.length_stamp _ hs').symm
  rcases Nat.lt_trichotomy s s' with h | rfl | h
  · have hlt := Decimal.append_lt_append hlen (C.stamp_lt _ _ h hs') u v
    have hnanos : s * 10 ^ 9 + m < s' * 10 ^ 9 + n := by omega
    exact iff_of_true (iff_of_true hlt hnanos) fun hp => h.ne hp.1
  · rw [Decimal.append_lt_append_left_iff, Nat.add_lt_add_iff_left, hrest]
    simp
  · have hlt := Decimal.append_lt_append hlen.symm (C.stamp_lt _ _ h hs) v u
    have hnanos : ¬ s * 10 ^ 9 + m < s' * 10 ^ 9 + n := by omega
    exact iff_of_true (iff_of_false (List.lt_asymm hlt) hnanos) fun hp => h.ne' hp.1

/-- Every digit is below the end of a timestamp. -/
theorem digitChar_lt_Z : ∀ d < 10, Nat.digitChar d < 'Z' := by decide

/-- **SQLite compares the texts as the instants, unless they are misjudged.** -/
theorem strftime_lt_formatTime_iff (C : Calendar) (c : SqlTime) (t : Instant) :
    (C.strftime c < C.formatTime t ↔ c.nanos < t.nanos) ↔ ¬ Misjudged c t := by
  have hms := c.ms_lt
  refine C.stamp_append_lt_iff c.sec_lt t.sec_lt (by omega) t.ns_lt ?_
  by_cases h0 : t.ns = 0
  · have hpoint : '.' < 'Z' := by decide
    simp [Calendar.fraction, h0, List.cons_lt_cons_iff, hpoint]
  · have hcut := Decimal.digits_lt_trimmed_iff digitChar_lt_Z (show 3 ≤ 9 by omega)
      (show c.ms < 10 ^ 3 by omega) t.ns_lt
    rw [cut_iff h0] at hcut
    rw [Calendar.fraction, if_neg h0, List.cons_append, List.cons_lt_cons_iff]
    simpa [h0] using hcut

/-! ### Pages of rows -/

/-- The primary key of a row. -/
def KeyRow.id {τ : Type} (r : KeyRow τ) : String × String := (r.tenant, r.subject)

/-- What `ForgetSubject` leaves of a row. -/
def KeyRow.destroyed {τ : Type} (r : KeyRow τ) (now : τ) : KeyRow τ :=
  { r with dekWrapped := [], shreddedAt := some now }

namespace KeyTable

variable {τ : Type} {T : KeyTable τ} {p : KeyRow τ → Bool} {limit : ℕ}

/-- A page that is not full has every row. -/
theorem mem_page_of_length_lt (h : (T.page p limit).length < limit) {r : KeyRow τ}
    (hr : r ∈ T.rows) (hp : p r = true) : r ∈ T.page p limit := by
  unfold page at h ⊢
  rw [List.length_take] at h
  rw [List.take_of_length_le (by omega), List.mem_insertionSort]
  exact List.mem_filter.2 ⟨hr, hp⟩

/-- A key has one row. -/
theorem eq_of_id {r r' : KeyRow τ} (hr : r ∈ T.rows) (hr' : r' ∈ T.rows) (h : r.id = r'.id) :
    r = r' := by
  have hsymm : ∀ a b : KeyRow τ, a.Same b → b.Same a := fun a b h => ⟨h.1.symm, h.2.symm⟩
  exact Table.eq_of_clash hsymm hr hr' (Prod.mk.inj h)

/-- No key is on a page twice. -/
theorem nodup_page : ((T.page p limit).map KeyRow.id).Nodup := by
  have hrows : (T.rows.map KeyRow.id).Nodup := by
    rw [List.Nodup, List.pairwise_map]
    refine T.unique.imp fun hne he => hne ?_
    exact Prod.mk.inj he
  have hfilter := ((List.filter_sublist (p := p)).map KeyRow.id).nodup hrows
  have hsort := ((List.perm_insertionSort (fun a b : KeyRow τ => a.subject ≤ b.subject)
    (T.rows.filter p)).map KeyRow.id).nodup_iff.2 hfilter
  exact ((List.take_sublist _ _).map KeyRow.id).nodup hsort

end KeyTable

/-- The rows `ListSubjectsCreatedBefore` selects. -/
def Calendar.due (C : Calendar) (cutoff : Instant) (tenant : String) (r : KeyRow SqlTime) : Bool :=
  r.tenant == tenant && r.shreddedAt.isNone &&
    decide (C.strftime r.createdAt < C.formatTime cutoff)

/-- `ListSubjectsCreatedBefore`. -/
def Calendar.listCreatedBefore (C : Calendar) (T : KeyTable SqlTime) (tenant : String)
    (cutoff : Instant) (limit : ℤ) : List (KeyRow SqlTime) :=
  T.page (C.due cutoff tenant) (KeyTable.limitOf limit)

theorem Calendar.due_iff {C : Calendar} {cutoff : Instant} {tenant : String} {r : KeyRow SqlTime} :
    C.due cutoff tenant r = true ↔
      r.tenant = tenant ∧ r.shreddedAt = none ∧ C.strftime r.createdAt < C.formatTime cutoff := by
  simp [Calendar.due, and_assoc]

/-! ### The sweep -/

/-- A sweep on its way. -/
structure Sweep (π σ : Type) where
  deployment : Deployment π σ SqlTime
  /-- The calls of `OnShredded`; as many as the sweep counts. -/
  shredded : List (String × String)
  /-- How often `ctx.Err()` will still return nil, if the context ends at all. -/
  checks : Option ℕ

/-- `RetentionWorker`, with the time `RunOnce` is called at. -/
structure RetentionWorker where
  /-- What `Tenants` returns. -/
  tenants : Except Err (List String)
  now : Instant
  /-- In nanoseconds. -/
  maxAge : ℕ
  batchSize : ℤ
  /-- Checked by `validate`. -/
  maxAge_pos : 0 < maxAge
  /-- The cutoff has a year of four digits. -/
  maxAge_le : maxAge ≤ now.nanos

namespace RetentionWorker

/-- `now.Add(-w.MaxAge)`. -/
def cutoff (w : RetentionWorker) : Instant where
  sec := (w.now.nanos - w.maxAge) / 10 ^ 9
  ns := (w.now.nanos - w.maxAge) % 10 ^ 9
  sec_lt := by
    have := w.now.nanos_lt
    omega
  ns_lt := Nat.mod_lt _ (by decide)

/-- The cutoff is the time `maxAge` before now. -/
theorem nanos_cutoff (w : RetentionWorker) : w.cutoff.nanos = w.now.nanos - w.maxAge := by
  exact Nat.div_add_mod' _ _

/-- The `batchSize` of `sweepTenant`. -/
def batch (w : RetentionWorker) : ℤ := if w.batchSize ≤ 0 then 100 else w.batchSize

theorem batch_pos (w : RetentionWorker) : 0 < w.batch := by
  unfold batch
  split_ifs <;> omega

end RetentionWorker

namespace Sweep

variable {π σ : Type}

/-- A check of `ctx.Err()`; nothing if the context has ended. -/
def checked (s : Sweep π σ) : Option (Sweep π σ) :=
  match s.checks with
  | none => some s
  | some 0 => none
  | some (n + 1) => some { s with checks := some n }

variable [DecidableEq π] (K : Kms.KeyStore σ) (j : π)

/-- `Shredder.ForgetSubject` and `OnShredded`, whose error is only logged. -/
def forget (tenant subject : String) (s : Sweep π σ) : Option Err × Sweep π σ :=
  match (KeyProg.forgetSubject j tenant subject).run (Deployment.act K) s.deployment with
  | .error e d =>
    (some (.wrap s!"shred: retention forget tenant={tenant} subject={subject}" e),
      { s with deployment := d })
  | .ok _ d =>
    (none, { s with deployment := d, shredded := s.shredded ++ [(tenant, subject)] })

/-- The loop over the rows of a page; an error ends it. -/
def forgetRows : List (KeyRow SqlTime) → Sweep π σ → Option Err × Sweep π σ
  | [], s => (none, s)
  | r :: rows, s =>
    match s.forget K j r.tenant r.subject with
    | (some e, s') => (some e, s')
    | (none, s') => forgetRows rows s'

/-- `sweepTenant`, for at most `fuel` pages; nothing if the loop has not ended then. -/
def sweepTenant (C : Calendar) (w : RetentionWorker) (tenant : String) :
    ℕ → Sweep π σ → Option (Option Err × Sweep π σ)
  | 0, _ => none
  | fuel + 1, s =>
    match s.checked with
    | none => some (none, s)
    | some s =>
      match s.deployment.query
          (C.listCreatedBefore s.deployment.table tenant w.cutoff w.batch) s.deployment.table with
      | (.error e, d) =>
        some (some (.wrap s!"shred: retention scan tenant={tenant}" e), { s with deployment := d })
      | (.ok rows, d) =>
        if rows.isEmpty then some (none, { s with deployment := d })
        else
          match forgetRows K j rows { s with deployment := d } with
          | (some e, s') => some (some e, s')
          | (none, s') =>
            if rows.length < w.batch then some (none, s') else sweepTenant C w tenant fuel s'

/-- The loop of `RunOnce` over the tenants: the first error is kept, unless the context ends. -/
def sweepTenants (C : Calendar) (w : RetentionWorker) (fuel : ℕ) :
    List String → Option Err → Sweep π σ → Option (Option Err × Sweep π σ)
  | [], first, s => some (first, s)
  | tenant :: tenants, first, s =>
    match s.checked with
    | none => some (none, s)
    | some s =>
      match sweepTenant K j C w tenant fuel s with
      | none => none
      | some (e, s') => sweepTenants C w fuel tenants (first.or e) s'

end Sweep

/-- `RunOnce`: the error, and the state with the subjects that have been shredded.  The context ends
after `checks` calls of `ctx.Err()`, if at all. -/
def RetentionWorker.runOnce {π σ : Type} [DecidableEq π] (w : RetentionWorker) (C : Calendar)
    (K : Kms.KeyStore σ) (j : π) (checks : Option ℕ) (fuel : ℕ) (d : Deployment π σ SqlTime) :
    Option (Option Err × Sweep π σ) :=
  match w.tenants with
  | .error e => some (some (.wrap "shred: retention worker: tenant source" e), ⟨d, [], checks⟩)
  | .ok tenants => Sweep.sweepTenants K j C w fuel tenants none ⟨d, [], checks⟩

/-! ### What a sweep shreds -/

/-- A row after the keys `ks` have been shredded, each at the time `time` says. -/
def KeyRow.after {τ : Type} (time : String × String → τ) (ks : List (String × String))
    (r : KeyRow τ) : KeyRow τ :=
  if r.id ∈ ks then r.destroyed (time r.id) else r

section After

variable {τ : Type} {time : String × String → τ} {ks : List (String × String)} {r : KeyRow τ}

theorem KeyRow.after_of_mem (h : r.id ∈ ks) : r.after time ks = r.destroyed (time r.id) := if_pos h

theorem KeyRow.after_of_not_mem (h : r.id ∉ ks) : r.after time ks = r := if_neg h

@[simp]
theorem KeyRow.id_after : (r.after time ks).id = r.id := by
  unfold KeyRow.after
  split_ifs <;> rfl

/-- One list of keys after the other; for a key that is in both, the second time counts. -/
theorem KeyRow.after_after (time' : String × String → τ) (ks' : List (String × String)) :
    (r.after time ks).after time' ks' =
      r.after (fun k => if k ∈ ks' then time' k else time k) (ks ++ ks') := by
  by_cases h' : r.id ∈ ks'
  · rw [after_of_mem (id_after.symm ▸ h'), after_of_mem (List.mem_append_right ks h'), if_pos h',
      id_after]
    by_cases h : r.id ∈ ks
    · rw [after_of_mem h]
      rfl
    · rw [after_of_not_mem h]
  · rw [after_of_not_mem (id_after.symm ▸ h')]
    by_cases h : r.id ∈ ks
    · rw [after_of_mem h, after_of_mem (List.mem_append_left ks' h), if_neg h']
    · rw [after_of_not_mem h, after_of_not_mem]
      simp [h, h']

/-- The rows of a table without those of the keys `ks` stay as they are. -/
theorem KeyRow.filter_after (rows : List (KeyRow τ)) (p : KeyRow τ → Bool)
    (hp : ∀ r now, p (KeyRow.destroyed r now) = false) :
    (rows.map (KeyRow.after time ks)).filter p =
      rows.filter fun r => p r && decide (r.id ∉ ks) := by
  induction rows with
  | nil => rfl
  | cons r rows ih =>
    rw [List.map_cons, List.filter_cons, List.filter_cons, ih]
    by_cases h : r.id ∈ ks
    · simp [after_of_mem h, hp, h]
    · simp [after_of_not_mem h, h]

end After

namespace Sweep

variable {π σ : Type}

/-- No query fails and the context does not end. -/
structure Quiet (s : Sweep π σ) : Prop where
  faults : ∀ n, s.deployment.faults n = none
  checks : s.checks = none

/-- From `s` to `s'` the keys `ks` have been shredded, in this order; all other rows are as they
were. -/
structure Shreds (ks : List (String × String)) (s s' : Sweep π σ) : Prop where
  shredded : s'.shredded = s.shredded ++ ks
  rows : ∃ time, s'.deployment.table.rows = s.deployment.table.rows.map (KeyRow.after time ks)
  quiet : s'.Quiet

section Shreds

variable {ks ks' : List (String × String)} {s s' s'' : Sweep π σ}

theorem Shreds.trans (h : Shreds ks s s') (h' : Shreds ks' s' s'') :
    Shreds (ks ++ ks') s s'' := by
  obtain ⟨time, hrows⟩ := h.rows
  obtain ⟨time', hrows'⟩ := h'.rows
  refine ⟨by rw [h'.shredded, h.shredded, List.append_assoc],
    ⟨fun k => if k ∈ ks' then time' k else time k, ?_⟩, h'.quiet⟩
  rw [hrows', hrows, List.map_map]
  exact List.map_congr_left fun r _ => KeyRow.after_after time' ks'

/-- Nothing is shredded while the table stays as it is. -/
theorem shreds_nil (hshredded : s'.shredded = s.shredded)
    (htable : s'.deployment.table = s.deployment.table) (hquiet : s'.Quiet) : Shreds [] s s' := by
  refine ⟨by rw [hshredded, List.append_nil], ⟨fun _ => s.deployment.clock 0, ?_⟩, hquiet⟩
  have hid : KeyRow.after (fun _ => s.deployment.clock 0) [] = id := by
    funext r
    exact KeyRow.after_of_not_mem List.not_mem_nil
  rw [hid, List.map_id, htable]

theorem Quiet.shreds (h : s.Quiet) : Shreds [] s s := shreds_nil rfl rfl h

theorem Quiet.queried (h : s.Quiet) :
    Shreds [] s { s with deployment := s.deployment.queried s.deployment.table } :=
  shreds_nil rfl rfl ⟨fun n => h.faults (n + 1), h.checks⟩

variable [DecidableEq π] (K : Kms.KeyStore σ) (j : π)

theorem Quiet.forget (h : s.Quiet) (t u : String) :
    ∃ s', s.forget K j t u = (none, s') ∧ Shreds [(t, u)] s s' := by
  let T := s.deployment.table.forget t u (s.deployment.clock 0)
  have hrun : (KeyProg.forgetSubject j t u).run (Deployment.act K) s.deployment =
      .ok () ((s.deployment.queried T).setCache j (cacheKey t u) none) := by
    rw [KeyProg.forgetSubject, KeyProg.run_forgetRow, Deployment.query_ok (h.faults 0)]
    rfl
  refine ⟨{ s with
      deployment := (s.deployment.queried T).setCache j (cacheKey t u) none
      shredded := s.shredded ++ [(t, u)] }, by rw [Sweep.forget, hrun], rfl,
    ⟨fun _ => s.deployment.clock 0, ?_⟩, fun n => h.faults (n + 1), h.checks⟩
  refine List.map_congr_left fun r _ => ?_
  simp [KeyTable.shred, KeyRow.after, KeyRow.destroyed, KeyRow.id]

/-- The rows of a page are shredded one after the other. -/
theorem Quiet.forgetRows (h : s.Quiet) (rows : List (KeyRow SqlTime)) :
    ∃ s', s.forgetRows K j rows = (none, s') ∧ Shreds (rows.map KeyRow.id) s s' := by
  induction rows generalizing s with
  | nil => exact ⟨s, rfl, h.shreds⟩
  | cons r rows ih =>
    obtain ⟨s₁, hforget, hs₁⟩ := h.forget K j r.tenant r.subject
    obtain ⟨s₂, hrows, hs₂⟩ := ih hs₁.quiet
    refine ⟨s₂, ?_, hs₁.trans hs₂⟩
    rw [Sweep.forgetRows, hforget]
    exact hrows

end Shreds

/-- From `s` to `s'` exactly the rows with `due` have been shredded, each once. -/
def Swept (due : KeyRow SqlTime → Prop) (s s' : Sweep π σ) : Prop :=
  ∃ ks, Shreds ks s s' ∧ ks.Nodup ∧
    ∀ k, k ∈ ks ↔ ∃ r ∈ s.deployment.table.rows, due r ∧ r.id = k

section Swept

variable {s s' s'' : Sweep π σ} {due due' : KeyRow SqlTime → Prop}

theorem Swept.congr (h : Swept due s s')
    (hdue : ∀ r ∈ s.deployment.table.rows, due r ↔ due' r) : Swept due' s s' := by
  obtain ⟨ks, hks, hnodup, hmem⟩ := h
  refine ⟨ks, hks, hnodup, fun k => (hmem k).trans ?_⟩
  constructor
  · rintro ⟨r, hr, hd, hk⟩
    exact ⟨r, hr, (hdue r hr).1 hd, hk⟩
  · rintro ⟨r, hr, hd, hk⟩
    exact ⟨r, hr, (hdue r hr).2 hd, hk⟩

/-- What has been swept is known from the result. -/
theorem Swept.due_iff (h : Swept due s s') (h' : Swept due' s s') {r : KeyRow SqlTime}
    (hr : r ∈ s.deployment.table.rows) : due r ↔ due' r := by
  obtain ⟨ks, hks, -, hmem⟩ := h
  obtain ⟨ks', hks', -, hmem'⟩ := h'
  obtain rfl : ks = ks' := List.append_cancel_left (hks.shredded.symm.trans hks'.shredded)
  have hrow : ∀ p : KeyRow SqlTime → Prop,
      (∃ r' ∈ s.deployment.table.rows, p r' ∧ r'.id = r.id) ↔ p r := by
    intro p
    constructor
    · rintro ⟨r', hr', hp, hid⟩
      rwa [← KeyTable.eq_of_id hr' hr hid]
    · intro hp
      exact ⟨r, hr, hp, rfl⟩
  rw [← hrow due, ← hrow due', ← hmem, ← hmem']

/-- The number of rows stays the same. -/
theorem Swept.length_rows (h : Swept due s s') :
    s'.deployment.table.rows.length = s.deployment.table.rows.length := by
  obtain ⟨ks, hks, -⟩ := h
  obtain ⟨time, hrows⟩ := hks.rows
  rw [hrows, List.length_map]

/-- One sweep after the other, if the second one takes no row that is shredded. -/
theorem Swept.trans (hdue' : ∀ r now, ¬ due' (KeyRow.destroyed r now)) (h : Swept due s s')
    (h' : Swept due' s' s'') : Swept (fun r => due r ∨ due' r) s s'' := by
  obtain ⟨ks, hks, hnodup, hmem⟩ := h
  obtain ⟨ks', hks', hnodup', hmem'⟩ := h'
  obtain ⟨time, hrows⟩ := hks.rows
  -- the second sweep takes its rows from those the first one left
  have hleft : ∀ k, k ∈ ks' ↔
      ∃ r ∈ s.deployment.table.rows, (r.id ∉ ks ∧ due' r) ∧ r.id = k := by
    intro k
    rw [hmem', hrows]
    constructor
    · rintro ⟨_, hr, hd, rfl⟩
      obtain ⟨r, hr₀, rfl⟩ := List.mem_map.1 hr
      by_cases hin : r.id ∈ ks
      · rw [KeyRow.after_of_mem hin] at hd
        exact absurd hd (hdue' r _)
      · rw [KeyRow.after_of_not_mem hin] at hd
        exact ⟨r, hr₀, ⟨hin, hd⟩, KeyRow.id_after.symm⟩
    · rintro ⟨r, hr, ⟨hin, hd⟩, rfl⟩
      exact ⟨r, List.mem_map.2 ⟨r, hr, KeyRow.after_of_not_mem hin⟩, hd, rfl⟩
  have hdisjoint : ks.Disjoint ks' := by
    intro k hk hk'
    obtain ⟨r, -, ⟨hin, -⟩, rfl⟩ := (hleft k).1 hk'
    exact hin hk
  refine ⟨ks ++ ks', hks.trans hks', hnodup.append hnodup' hdisjoint, fun k => ?_⟩
  rw [List.mem_append, hleft]
  constructor
  · rintro (hk | ⟨r, hr, ⟨-, hd⟩, hk⟩)
    · obtain ⟨r, hr, hd, hk⟩ := (hmem k).1 hk
      exact ⟨r, hr, Or.inl hd, hk⟩
    · exact ⟨r, hr, Or.inr hd, hk⟩
  · rintro ⟨r, hr, hd, rfl⟩
    by_cases hin : r.id ∈ ks
    · exact Or.inl hin
    · rcases hd with hd | hd
      · exact Or.inl ((hmem _).2 ⟨r, hr, hd, rfl⟩)
      · exact Or.inr ⟨r, hr, ⟨hin, hd⟩, rfl⟩

/-- Nothing was due, and nothing has been shredded. -/
theorem Shreds.swept_of_nil (h : Shreds [] s s')
    (hdue : ∀ r ∈ s.deployment.table.rows, ¬ due r) : Swept due s s' := by
  refine ⟨[], h, List.nodup_nil, fun k => ?_⟩
  simp only [List.not_mem_nil, false_iff]
  rintro ⟨r, hr, hd, -⟩
  exact hdue r hr hd

/-- A page has been shredded. -/
theorem Shreds.swept_page {p : KeyRow SqlTime → Bool} {limit : ℕ}
    (h : Shreds ((s.deployment.table.page p limit).map KeyRow.id) s s') :
    Swept (· ∈ s.deployment.table.page p limit) s s' := by
  refine ⟨_, h, KeyTable.nodup_page, fun k => ?_⟩
  rw [List.mem_map]
  constructor
  · rintro ⟨r, hr, hk⟩
    exact ⟨r, (KeyTable.mem_of_mem_page hr).1, hr, hk⟩
  · rintro ⟨r, -, hr, hk⟩
    exact ⟨r, hr, hk⟩

end Swept

section Run

variable [DecidableEq π] (K : Kms.KeyStore σ) (j : π) (C : Calendar) (w : RetentionWorker)
  {ks : List (String × String)} {s s' : Sweep π σ}

/-- The rows of a tenant that are due. -/
def dueRows (tenant : String) (s : Sweep π σ) : List (KeyRow SqlTime) :=
  s.deployment.table.rows.filter (C.due w.cutoff tenant)

omit [DecidableEq π] in
/-- Each row that is shredded is one less that is due. -/
theorem Shreds.length_dueRows_lt {tenant : String} (h : Shreds ks s s') {r : KeyRow SqlTime}
    (hr : r ∈ s.deployment.table.rows) (hdue : C.due w.cutoff tenant r = true) (hid : r.id ∈ ks) :
    (dueRows C w tenant s').length < (dueRows C w tenant s).length := by
  obtain ⟨time, hrows⟩ := h.rows
  have hnone : ∀ r now, C.due w.cutoff tenant (KeyRow.destroyed r now) = false := by
    intro r now
    simp [Calendar.due, KeyRow.destroyed]
  have hleft : dueRows C w tenant s' =
      (dueRows C w tenant s).filter fun r => decide (r.id ∉ ks) := by
    rw [dueRows, hrows, KeyRow.filter_after _ _ hnone, dueRows, List.filter_filter]
    simp only [Bool.and_comm]
  rw [hleft, List.length_filter_lt_length_iff_exists]
  exact ⟨r, List.mem_filter.2 ⟨hr, hdue⟩, by simpa using hid⟩

/-- The page a sweep in the state `s` fetches. -/
def nextPage (tenant : String) (s : Sweep π σ) : List (KeyRow SqlTime) :=
  C.listCreatedBefore s.deployment.table tenant w.cutoff w.batch

variable {C w} {tenant : String} {r : KeyRow SqlTime}

omit [DecidableEq π] in
theorem of_mem_nextPage (h : r ∈ nextPage C w tenant s) :
    r ∈ s.deployment.table.rows ∧ C.due w.cutoff tenant r = true :=
  KeyTable.mem_of_mem_page h

omit [DecidableEq π] in
/-- A page shorter than the batch size has everything that is due. -/
theorem mem_nextPage_of_length_lt (hlt : (nextPage C w tenant s).length < w.batch)
    (hr : r ∈ s.deployment.table.rows) (hdue : C.due w.cutoff tenant r = true) :
    r ∈ nextPage C w tenant s := by
  refine KeyTable.mem_page_of_length_lt ?_ hr hdue
  have hbatch := w.batch_pos
  rw [nextPage, Calendar.listCreatedBefore] at hlt
  rw [KeyTable.limitOf, if_neg (by omega)] at hlt ⊢
  omega

/-- One round of the loop: the page is shredded, and the loop ends if the page was not full. -/
theorem Quiet.sweepTenant_succ (h : s.Quiet) (tenant : String) :
    ∃ s₁, Shreds ((nextPage C w tenant s).map KeyRow.id) s s₁ ∧
      ∀ fuel, Sweep.sweepTenant K j C w tenant (fuel + 1) s =
        if (nextPage C w tenant s).length < w.batch then some (none, s₁)
        else Sweep.sweepTenant K j C w tenant fuel s₁ := by
  obtain ⟨s₁, hforget, hs₁⟩ := h.queried.quiet.forgetRows K j (nextPage C w tenant s)
  have hshreds := h.queried.trans hs₁
  refine ⟨s₁, hshreds, fun fuel => ?_⟩
  have hchecked : s.checked = some s := by rw [checked, h.checks]
  have hlist : C.listCreatedBefore s.deployment.table tenant w.cutoff w.batch =
      nextPage C w tenant s := rfl
  rw [Sweep.sweepTenant]
  simp only [hchecked, Deployment.query_ok (h.faults 0), hlist]
  cases hpage : nextPage C w tenant s with
  | nil =>
    -- the loop ends on an empty page before it looks at the length
    rw [hpage] at hforget
    have hbatch := w.batch_pos
    simp only [List.isEmpty_nil, if_true, List.length_nil, Nat.cast_zero, hbatch]
    rw [← (Prod.mk.inj hforget).2]
  | cons r rows =>
    rw [← hpage, hforget]
    simp [hpage]

/-- **The loop over the pages of a tenant ends, and shreds the rows that are due.** -/
theorem Quiet.sweepTenant (h : s.Quiet) (tenant : String) :
    ∃ s', (∀ fuel, (dueRows C w tenant s).length < fuel →
        Sweep.sweepTenant K j C w tenant fuel s = some (none, s')) ∧ s'.Quiet ∧
      Swept (fun r => C.due w.cutoff tenant r = true) s s' := by
  induction hn : (dueRows C w tenant s).length using Nat.strong_induction_on generalizing s with
  | _ n ih =>
    obtain ⟨s₁, hs₁, hround⟩ := h.sweepTenant_succ K j (C := C) (w := w) tenant
    have hpage : Swept (· ∈ nextPage C w tenant s) s s₁ := hs₁.swept_page
    by_cases hlt : (nextPage C w tenant s).length < w.batch
    · refine ⟨s₁, ?_, hs₁.quiet, hpage.congr fun r hr => ?_⟩
      · intro fuel hfuel
        obtain ⟨fuel, rfl⟩ := Nat.exists_eq_add_one_of_ne_zero (show fuel ≠ 0 by omega)
        rw [hround, if_pos hlt]
      · exact ⟨fun hr' => (of_mem_nextPage hr').2, mem_nextPage_of_length_lt hlt hr⟩
    · -- a full page has a row, so that fewer rows are due afterwards
      have hbatch := w.batch_pos
      have hne : nextPage C w tenant s ≠ [] := by
        intro hnil
        rw [hnil] at hlt
        exact hlt hbatch
      obtain ⟨r, hr⟩ := List.exists_mem_of_ne_nil _ hne
      obtain ⟨hrow, hdue⟩ := of_mem_nextPage hr
      have hless := hs₁.length_dueRows_lt C w hrow hdue (List.mem_map_of_mem hr)
      obtain ⟨s', hrest, hquiet, hswept⟩ := ih _ (hn ▸ hless) hs₁.quiet rfl
      refine ⟨s', ?_, hquiet, (Swept.trans ?_ hpage hswept).congr fun r _ => ?_⟩
      · intro fuel hfuel
        obtain ⟨fuel, rfl⟩ := Nat.exists_eq_add_one_of_ne_zero (show fuel ≠ 0 by omega)
        rw [hround, if_neg hlt]
        exact hrest fuel (by omega)
      · intro r now
        simp [Calendar.due, KeyRow.destroyed]
      · exact ⟨fun hr => hr.elim (fun hr => (of_mem_nextPage hr).2) id, Or.inr⟩

/-- **The loop over the tenants ends, and shreds the rows that are due.** -/
theorem Quiet.sweepTenants (h : s.Quiet) (tenants : List String) (first : Option Err) :
    ∃ s', (∀ fuel, s.deployment.table.rows.length < fuel →
        Sweep.sweepTenants K j C w fuel tenants first s = some (first, s')) ∧
      Swept (fun r => ∃ tenant ∈ tenants, C.due w.cutoff tenant r = true) s s' := by
  induction tenants generalizing s with
  | nil =>
    refine ⟨s, fun _ _ => rfl, h.shreds.swept_of_nil fun r _ => ?_⟩
    simp
  | cons tenant tenants ih =>
    obtain ⟨s₁, hfirst, hquiet, hs₁⟩ := h.sweepTenant K j (C := C) (w := w) tenant
    obtain ⟨s', hrest, hs'⟩ := ih hquiet
    refine ⟨s', ?_, (Swept.trans ?_ hs₁ hs').congr fun r _ => by simp⟩
    · intro fuel hfuel
      have hchecked : s.checked = some s := by rw [checked, h.checks]
      have hdue : (dueRows C w tenant s).length < fuel :=
        Nat.lt_of_le_of_lt (List.length_filter_le _ _) hfuel
      simp only [Sweep.sweepTenants, hchecked, hfirst fuel hdue, Option.or_none]
      exact hrest fuel (by rwa [hs₁.length_rows])
    · rintro r now ⟨tenant', -, hd⟩
      simp [Calendar.due, KeyRow.destroyed] at hd

end Run

end Sweep

/-! ### Exactness -/

/-- A row of the tenants whose key is not shredded and was created before the cutoff. -/
def RetentionWorker.Expired (w : RetentionWorker) (tenants : List String) (r : KeyRow SqlTime) :
    Prop :=
  r.tenant ∈ tenants ∧ r.shreddedAt = none ∧ r.createdAt.nanos < w.now.nanos - w.maxAge

/-- **`RunOnce` ends, without errors and unless the context ends, and shreds exactly the expired
keys, each once and no others, if and only if no key of the tenants that is not shredded is
misjudged.** -/
theorem runOnce_exact_iff {π σ : Type} [DecidableEq π] (C : Calendar) (K : Kms.KeyStore σ) (j : π)
    (w : RetentionWorker) {tenants : List String} (htenants : w.tenants = .ok tenants)
    {d : Deployment π σ SqlTime} (hfaults : ∀ n, d.faults n = none) :
    ∃ s', (∀ fuel, d.table.rows.length < fuel →
        w.runOnce C K j none fuel d = some (none, s')) ∧
      (Sweep.Swept (w.Expired tenants) ⟨d, [], none⟩ s' ↔
        ∀ r ∈ d.table.rows, r.tenant ∈ tenants → r.shreddedAt = none →
          ¬ Misjudged r.createdAt w.cutoff) := by
  have hquiet : (⟨d, [], none⟩ : Sweep π σ).Quiet := ⟨hfaults, rfl⟩
  obtain ⟨s', hrun, hswept⟩ := hquiet.sweepTenants K j (C := C) (w := w) tenants none
  refine ⟨s', fun fuel hfuel => ?_, ?_, ?_⟩
  · rw [RetentionWorker.runOnce, htenants]
    exact hrun fuel hfuel
  · intro hexact r hr hten hnone
    rw [← strftime_lt_formatTime_iff C, w.nanos_cutoff]
    have hdue := (hswept.due_iff hexact hr)
    simpa [Calendar.due_iff, RetentionWorker.Expired, hten, hnone] using hdue
  · intro hjudged
    refine hswept.congr fun r hr => ?_
    have hbefore : r.tenant ∈ tenants → r.shreddedAt = none →
        (C.strftime r.createdAt < C.formatTime w.cutoff ↔
          r.createdAt.nanos < w.now.nanos - w.maxAge) := by
      intro hten hnone
      rw [← w.nanos_cutoff]
      exact (strftime_lt_formatTime_iff C _ _).2 (hjudged r hr hten hnone)
    simp only [Calendar.due_iff, RetentionWorker.Expired]
    constructor
    · rintro ⟨_, hten, rfl, hnone, hlt⟩
      exact ⟨hten, hnone, (hbefore hten hnone).1 hlt⟩
    · rintro ⟨hten, hnone, hlt⟩
      exact ⟨r.tenant, hten, rfl, hnone, (hbefore hten hnone).2 hlt⟩

/-! ### An hourly policy -/

namespace Hourly

/-- Seconds, written as numbers. -/
def calendar : Calendar where
  stamp := Decimal.digits 19
  length_stamp s _ := Decimal.length_digits 19 s
  stamp_lt s s' h h' := by
    unfold calendarSeconds at h'
    exact (Decimal.digits_lt_digits (by omega) (by omega)).2 h

/-- A key store that does not wrap; a sweep does not use it. -/
def kms : Kms.KeyStore Unit := ⟨fun _ dek => pure (dek, 1), fun _ w _ => pure w, fun _ => pure 1,
  fun _ => pure 1⟩

/-- Keys are kept for an hour, and the clock of the worker shows a full second. -/
def worker : RetentionWorker where
  tenants := .ok ["acme"]
  now := ⟨63900003600, 0, by decide, by decide⟩
  maxAge := 3600 * 10 ^ 9
  batchSize := 1
  maxAge_pos := by decide
  maxAge_le := by decide

/-- A table with a key of Alice and one of Bob; the key of Alice is of the second `sec`. -/
def keys (sec : ℕ) (h : sec < calendarSeconds) : KeyTable SqlTime :=
  ⟨[⟨"acme", "alice", [1], 1, ⟨sec, 500, h, by decide⟩, none⟩,
    ⟨"acme", "bob", [2], 1, ⟨63900001000, 0, by decide, by decide⟩, none⟩],
    by simp [KeyRow.Same]⟩

/-- A database that does not fail. -/
def store (T : KeyTable SqlTime) : Deployment Unit Unit SqlTime :=
  ⟨T, fun _ _ => none, fun _ => 0, (), fun _ => none,
    fun _ => ⟨63900003600, 0, by decide, by decide⟩⟩

end Hourly

/-- The key of Alice is older than an hour, that of Bob is not. -/
theorem runOnce_exact_hourly :
    ∃ s', Hourly.worker.runOnce Hourly.calendar Hourly.kms () none 3
        (Hourly.store (Hourly.keys 63899999999 (by decide))) = some (none, s') ∧
      Sweep.Swept (Hourly.worker.Expired ["acme"])
        ⟨Hourly.store (Hourly.keys 63899999999 (by decide)), [], none⟩ s' := by
  obtain ⟨s', hrun, hexact⟩ := runOnce_exact_iff Hourly.calendar Hourly.kms () Hourly.worker rfl
    (d := Hourly.store (Hourly.keys 63899999999 (by decide))) fun _ => rfl
  exact ⟨s', hrun 3 (by decide), hexact.2 (by decide)⟩

/-- **A key that is half a second younger than an hour is shredded.**  The cutoff is written without
a fraction, and `Z` is above the point in the text of the key. -/
theorem younger_key_shredded :
    (Hourly.worker.runOnce Hourly.calendar Hourly.kms () none 3
        (Hourly.store (Hourly.keys 63900000000 (by decide)))).map
          (fun x => (x.1, x.2.shredded, x.2.deployment.table.rows.map KeyRow.dekWrapped)) =
        some (none, [("acme", "alice")], [[], [2]]) ∧
      ∀ r ∈ (Hourly.keys 63900000000 (by decide)).rows,
        Hourly.worker.now.nanos - Hourly.worker.maxAge < r.createdAt.nanos := by
  decide +kernel

end Shred

end EventStore
