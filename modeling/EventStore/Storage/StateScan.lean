import Mathlib.Data.String.Basic
import EventStore.Paging.Basic
import EventStore.Paging.Keyset
import EventStore.Storage.Read

/-!
# Scanning the cached states

`ListStates` returns a page of the cached states of a tenant and a type, and `ScanAllStates`
(`es/state_cache.go`) reads page after page, with the last stream of a page as the cursor of the
next.  Nothing holds the table still in the meantime: `dbs i` is the database when the `i`-th page
is read.

`scanFrom_eq` connects the loop to the scan of `Paging.Keyset`; `scanAllStates_exact` says what a
whole iteration yields.
-/

namespace EventStore

open Paging

variable {κ : Columns} (D : Dialect κ)

/-- A row as `es.StateCacheRow`, with the time that has been read. -/
def StateCacheRow.toCached (r : StateCacheRow κ) (updated : Time) : CachedState where
  tenantID := r.tenantID
  streamID := r.streamID
  typeURL := r.typeURL
  state := some (D.loadState r.state)
  version := r.version
  terminal := r.terminal
  stateSchemaVersion := UInt32.ofInt r.stateSchemaVersion
  updatedAt := updated

/-- What `ListStates` makes of a row. -/
def listedState (r : StateCacheRow κ) : Except Err CachedState := do
  let updated ← D.parseTime r.updatedAt
  return r.toCached D updated

/-- The rows of a tenant and a type, `ORDER BY stream_id`. -/
def Db.statesOf (db : Db κ) (tenantID typeURL : String) : List (StateCacheRow κ) :=
  (db.stateCache.rows.filter fun r => r.tenantID == tenantID && r.typeURL == typeURL).insertionSort
    fun a b => a.streamID ≤ b.streamID

/-- `ListStates`: the `WHERE` with its cursor, the `ORDER BY` and the `LIMIT`. -/
def listStates (db : Db κ) (tenantID typeURL afterStreamID : String) (limit : ℤ) :
    Except Err (List CachedState) :=
  let limit := if limit ≤ 0 then 100 else limit
  let rows := beyond StateCacheRow.streamID afterStreamID
    (db.stateCache.rows.filter fun r => r.tenantID == tenantID && r.typeURL == typeURL)
  ((rows.insertionSort fun a b => a.streamID ≤ b.streamID).take limit.toNat).mapM (listedState D)

/-- The loop of `ScanAllStates`, for a consumer that takes all that is yielded: the yields of up to
`fuel` rounds from the `i`-th on, and whether the iterator has returned.  `ctxErr i` is the answer
of `ctx.Err()` in the `i`-th round. -/
def scanFrom (ctxErr : ℕ → Option Err) (dbs : ℕ → Db κ) (tenantID typeURL : String) (pageSize : ℤ) :
    ℕ → ℕ → String → List (Except Err CachedState) × Bool
  | 0, _, _ => ([], false)
  | fuel + 1, i, after =>
    match ctxErr i with
    | some err => ([.error err], true)
    | none =>
      match listStates D (dbs i) tenantID typeURL after pageSize with
      | .error err => ([.error err], true)
      | .ok rows =>
        match rows.getLast? with
        | none => ([], true)
        | some last =>
          -- a short page is the last one
          if (rows.length : ℤ) < pageSize then (rows.map .ok, true)
          else
            let rest := scanFrom ctxErr dbs tenantID typeURL pageSize fuel (i + 1) last.streamID
            (rows.map .ok ++ rest.1, rest.2)

/-- `ScanAllStates`. -/
def scanAllStates (ctxErr : ℕ → Option Err) (dbs : ℕ → Db κ) (tenantID typeURL : String)
    (pageSize : ℤ) (fuel : ℕ) : List (Except Err CachedState) × Bool :=
  let pageSize := if pageSize ≤ 0 then 1000 else pageSize
  scanFrom D ctxErr dbs tenantID typeURL pageSize fuel 0 ""

/-- The rows of the cache as the adapters write them: under the canonical form of a stream, and with
a time that can be read back. -/
def Db.StatesReadable (db : Db κ) : Prop :=
  ∀ r ∈ db.stateCache.rows, r.streamID ≠ "" ∧ ∃ t, D.parseTime r.updatedAt = .ok t

variable {D} {db : Db κ} {tenantID typeURL : String} {r : StateCacheRow κ}

/-- The first cursor is before every name. -/
theorem empty_lt {s : String} (h : s ≠ "") : "" < s := by
  rw [String.lt_iff_toList_lt, String.toList_empty]
  cases hs : s.toList with
  | nil => exact absurd (String.toList_eq_nil_iff.1 hs) h
  | cons c cs => exact List.nil_lt_cons c cs

theorem Db.mem_statesOf : r ∈ db.statesOf tenantID typeURL ↔
    r ∈ db.stateCache.rows ∧ r.tenantID = tenantID ∧ r.typeURL = typeURL := by
  simp [statesOf]

/-- A tenant has one row for a stream, so that the order is strict. -/
theorem Db.pairwise_statesOf (db : Db κ) (tenantID typeURL : String) :
    (db.statesOf tenantID typeURL).Pairwise fun a b => a.streamID < b.streamID := by
  have hne : (db.statesOf tenantID typeURL).Pairwise fun a b => a.streamID ≠ b.streamID := by
    refine (List.Perm.pairwise_iff (fun h => Ne.symm h) (List.perm_insertionSort _ _)).2 ?_
    refine List.Pairwise.imp_of_mem ?_ (db.stateCache.unique.filter _)
    intro a b ha hb hclash heq
    have ha' := (List.mem_filter.1 ha).2
    have hb' := (List.mem_filter.1 hb).2
    rw [Bool.and_eq_true, beq_iff_eq] at ha' hb'
    exact hclash ⟨ha'.1.trans hb'.1.symm, heq⟩
  refine (List.pairwise_insertionSort _ _).imp₂ (fun a b hle hne => lt_of_le_of_ne hle hne) hne

/-! ### One page -/

variable (D) in
/-- A row as it is yielded, when its time can be read. -/
def StateCacheRow.yielded (r : StateCacheRow κ) : CachedState :=
  r.toCached D ((D.parseTime r.updatedAt).toOption.getD 0)

theorem listedState_eq (h : ∃ t, D.parseTime r.updatedAt = .ok t) :
    listedState D r = .ok (r.yielded D) := by
  obtain ⟨t, ht⟩ := h
  rw [listedState, StateCacheRow.yielded, ht]
  rfl

theorem listStates_eq (hr : db.StatesReadable D) (after : String) {limit : ℤ} (hl : 0 < limit) :
    listStates D db tenantID typeURL after limit =
      .ok (((beyond StateCacheRow.streamID after (db.statesOf tenantID typeURL)).take
        limit.toNat).map (StateCacheRow.yielded D)) := by
  have hsort : (beyond StateCacheRow.streamID after (db.stateCache.rows.filter fun r =>
      r.tenantID == tenantID && r.typeURL == typeURL)).insertionSort
        (fun a b => a.streamID ≤ b.streamID) =
      beyond StateCacheRow.streamID after (db.statesOf tenantID typeURL) :=
    (filter_insertionSort _ _).symm
  rw [listStates, if_neg hl.not_ge]
  simp only [hsort]
  rw [Except.mapM_eq_ok_iff, List.forall₂_map_right_iff, List.forall₂_same]
  intro r hmem
  have hmem' := (mem_beyond.1 (List.mem_of_mem_take hmem)).1
  exact listedState_eq (hr r (Db.mem_statesOf.1 hmem').1).2

/-! ### Page after page -/

section Scan

variable {dbs : ℕ → Db κ} {fuel i : ℕ} {after : String} {pageSize : ℤ}

/-- The tables that the pages of a scan are read from. -/
def statesAt (dbs : ℕ → Db κ) (tenantID typeURL : String) (i : ℕ) : List (StateCacheRow κ) :=
  (dbs i).statesOf tenantID typeURL

/-- **The loop is a scan of the tables.** -/
theorem scanFrom_eq (hr : ∀ i, (dbs i).StatesReadable D) (hp : 0 < pageSize) :
    scanFrom D (fun _ => none) dbs tenantID typeURL pageSize fuel i after =
      (((scan StateCacheRow.streamID pageSize.toNat (statesAt dbs tenantID typeURL) fuel i
        after).1.map fun r => .ok (r.yielded D)),
      (scan StateCacheRow.streamID pageSize.toNat (statesAt dbs tenantID typeURL) fuel i
        after).2) := by
  induction fuel generalizing i after with
  | zero => rfl
  | succ fuel ih =>
    rw [scanFrom, scan, listStates_eq (hr i) after hp]
    dsimp only
    rw [List.getLast?_map, statesAt]
    cases hlast : ((beyond StateCacheRow.streamID after
        ((dbs i).statesOf tenantID typeURL)).take pageSize.toNat).getLast? with
    | none => rfl
    | some r =>
      simp only [Option.map_some, List.length_map, List.map_map]
      have hlen : ∀ n : ℕ, ((n : ℤ) < pageSize) = (n < pageSize.toNat) := fun n =>
        propext (by omega)
      simp only [hlen]
      split_ifs
      · rfl
      · rw [ih]
        exact Prod.ext (List.map_append ..).symm rfl

variable (tenantID typeURL pageSize)

theorem scanAllStates_eq (hr : ∀ i, (dbs i).StatesReadable D) (n : ℕ) : ∃ size, 0 < size ∧
    scanAllStates D (fun _ => none) dbs tenantID typeURL pageSize n =
      (((scan StateCacheRow.streamID size (statesAt dbs tenantID typeURL) n 0 "").1.map
        (StateCacheRow.yielded D)).map .ok,
      (scan StateCacheRow.streamID size (statesAt dbs tenantID typeURL) n 0 "").2) := by
  have hp : 0 < if pageSize ≤ 0 then 1000 else pageSize := by
    split_ifs <;> omega
  refine ⟨(if pageSize ≤ 0 then 1000 else pageSize).toNat, by omega, ?_⟩
  rw [scanAllStates, scanFrom_eq hr hp, List.map_map]
  rfl

theorem pairwise_statesAt (i : ℕ) : (statesAt dbs tenantID typeURL i).Pairwise
    fun a b => a.streamID < b.streamID := Db.pairwise_statesOf ..

/-- What up to `n` pages yield. -/
theorem scanAllStates_yields (hr : ∀ i, (dbs i).StatesReadable D) (n : ℕ) :
    ∃ (rows : List CachedState) (ended : Bool),
      scanAllStates D (fun _ => none) dbs tenantID typeURL pageSize n = (rows.map .ok, ended) ∧
      rows.Pairwise (fun x y => x.streamID < y.streamID) ∧
      (∀ x ∈ rows, ∃ i, ∃ r ∈ (dbs i).stateCache.rows,
        r.tenantID = tenantID ∧ r.typeURL = typeURL ∧ listedState D r = .ok x) ∧
      (ended = true → ∀ r, (∀ i, r ∈ (dbs i).stateCache.rows) → r.tenantID = tenantID →
        r.typeURL = typeURL → ∃ x ∈ rows, listedState D r = .ok x) := by
  obtain ⟨size, hsize, heq⟩ := scanAllStates_eq tenantID typeURL pageSize hr n
  refine ⟨_, _, heq, ?_, ?_, ?_⟩
  · exact List.pairwise_map.2 (scan_sorted (pairwise_statesAt tenantID typeURL)).1
  · intro x hx
    obtain ⟨r, hmem, rfl⟩ := List.mem_map.1 hx
    obtain ⟨i, -, hmem'⟩ := mem_of_scan hmem
    obtain ⟨hrow, htenant, htype⟩ := Db.mem_statesOf.1 hmem'
    exact ⟨i, r, hrow, htenant, htype, listedState_eq (hr i r hrow).2⟩
  · intro hended r hrow htenant htype
    have hmem := mem_scan hsize (pairwise_statesAt tenantID typeURL) hended
      (fun j _ => Db.mem_statesOf.2 ⟨hrow j, htenant, htype⟩)
      (empty_lt (hr 0 r (hrow 0)).1)
    exact ⟨_, List.mem_map_of_mem hmem, listedState_eq (hr 0 r (hrow 0)).2⟩

theorem scanAllStates_ends (hr : ∀ i, (dbs i).StatesReadable D) {N : ℕ}
    (hN : ∀ i, N ≤ i → dbs i = dbs N) :
    ∃ n, (scanAllStates D (fun _ => none) dbs tenantID typeURL pageSize n).2 = true := by
  have hp : 0 < if pageSize ≤ 0 then 1000 else pageSize := by
    split_ifs <;> omega
  have hends : ∃ n, (scan StateCacheRow.streamID (if pageSize ≤ 0 then 1000 else pageSize).toNat
      (statesAt dbs tenantID typeURL) n 0 "").2 = true :=
    scan_ends (pairwise_statesAt tenantID typeURL N)
      fun j hj => congrArg (Db.statesOf · tenantID typeURL) (hN j hj)
  obtain ⟨n, hn⟩ := hends
  refine ⟨n, ?_⟩
  rw [scanAllStates, scanFrom_eq hr hp]
  exact hn

end Scan

/-- **A whole iteration of `ScanAllStates`.** -/
theorem scanAllStates_exact (D : Dialect κ) (dbs : ℕ → Db κ) (tenantID typeURL : String)
    (pageSize : ℤ) (hr : ∀ i, (dbs i).StatesReadable D) :
    -- on a table that does not change
    ((∀ i, dbs i = dbs 0) → ∃ (n : ℕ) (rows : List CachedState),
      scanAllStates D (fun _ => none) dbs tenantID typeURL pageSize n = (rows.map .ok, true) ∧
      rows.Pairwise (fun x y => x.streamID < y.streamID) ∧
      ∀ x, x ∈ rows ↔ ∃ r ∈ (dbs 0).stateCache.rows,
        r.tenantID = tenantID ∧ r.typeURL = typeURL ∧ listedState D r = .ok x) ∧
    -- on a table that changes between the pages
    (∀ n, ∃ (rows : List CachedState) (ended : Bool),
      scanAllStates D (fun _ => none) dbs tenantID typeURL pageSize n = (rows.map .ok, ended) ∧
      rows.Pairwise (fun x y => x.streamID < y.streamID) ∧
      (ended = true → ∀ r, (∀ i, r ∈ (dbs i).stateCache.rows) → r.tenantID = tenantID →
        r.typeURL = typeURL → ∃ x ∈ rows, listedState D r = .ok x)) ∧
    ∀ N, (∀ i, N ≤ i → dbs i = dbs N) →
      ∃ n, (scanAllStates D (fun _ => none) dbs tenantID typeURL pageSize n).2 = true := by
  refine ⟨fun hconst => ?_, fun n => ?_, fun N hN => scanAllStates_ends _ _ _ hr hN⟩
  · obtain ⟨n, hn⟩ := scanAllStates_ends tenantID typeURL pageSize hr fun i _ => hconst i
    obtain ⟨rows, ended, heq, hsorted, hfrom, hall⟩ := scanAllStates_yields tenantID typeURL
      pageSize hr n
    have hended : ended = true := by rwa [heq] at hn
    refine ⟨n, rows, by rw [heq, hended], hsorted, fun x => ⟨fun hx => ?_, ?_⟩⟩
    · obtain ⟨i, hi⟩ := hfrom x hx
      rwa [hconst i] at hi
    · rintro ⟨r, hrow, htenant, htype, hx⟩
      obtain ⟨y, hy, hy'⟩ := hall hended r (fun i => hconst i ▸ hrow) htenant htype
      rwa [Except.ok.inj (hx.symm.trans hy')]
  · obtain ⟨rows, ended, heq, hsorted, -, hall⟩ := scanAllStates_yields tenantID typeURL
      pageSize hr n
    exact ⟨rows, ended, heq, hsorted, hall⟩

/-- A cached state under a name. -/
def cachedAs (streamID : String) : StateCacheRow (Sqlite.columns Bytes) :=
  ⟨"acme", streamID, "type.example/Order", [], 1, false, 1, "+"⟩

theorem empty_ordered : ((Db.empty : Db (Sqlite.columns Bytes)).events.rows.map
    EventRow.globalPosition ++ [(Db.empty : Db (Sqlite.columns Bytes)).seq + 1]).Pairwise (· < ·) :=
  Db.empty.ordered

/-- Two states, and a third that appears before them after the first page. -/
def growing (i : ℕ) : Db (Sqlite.columns Bytes) :=
  let first := (Table.empty.upsert (cachedAs "order:3")).upsert (cachedAs "order:2")
  { Db.empty with
    stateCache := if i = 0 then first else first.upsert (cachedAs "order:1")
    ordered := empty_ordered }

theorem growing_readable (i : ℕ) : (growing i).StatesReadable (Sqlite.dialect .small) := by
  intro r hr
  have hr' : r ∈ [cachedAs "order:3", cachedAs "order:2", cachedAs "order:1"] := by
    cases i with
    | zero => exact List.mem_append_left [cachedAs "order:1"] hr
    | succ i => exact hr
  simp only [List.mem_cons, List.not_mem_nil, or_false] at hr'
  rcases hr' with rfl | rfl | rfl <;> exact ⟨by decide, _, rfl⟩

/-- The states that are there all the time are yielded in pages of one. -/
theorem scanAllStates_growing : (∀ i, (growing i).StatesReadable (Sqlite.dialect .small)) ∧
    (scanAllStates (Sqlite.dialect .small) (fun _ => none) growing "acme" "type.example/Order" 1
      3).2 = true ∧
    ∃ n, (scanAllStates (Sqlite.dialect .small) (fun _ => none) growing "acme" "type.example/Order"
      1 n).2 = true :=
  ⟨growing_readable, by decide +kernel,
    (scanAllStates_exact (Sqlite.dialect .small) growing "acme" "type.example/Order" 1
      growing_readable).2.2 1 fun i hi => by
        cases i with
        | zero => omega
        | succ i => rfl⟩

end EventStore
