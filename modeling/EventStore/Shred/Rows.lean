import EventStore.Shred.Keys
import EventStore.Table.Basic

/-!
# The table `subject_keys`

The rows of `subject_keys` with all their columns, and the queries of `queries/shred.sql` on them.
Timestamps are of some type `τ`; what they are written as does not matter here.

`KeyTable.keys` is the view of the table that the functions of `Shred.Keys` work on, and every
query is seen there as what those functions do (`keys_upsert`, `keys_forget`).
-/

namespace EventStore

namespace Shred

/-- A tenant and a subject are compared with `==`. -/
scoped instance lawfulBEqSubject : LawfulBEq (String × String) := inferInstance

/-- A row of `subject_keys`. -/
structure KeyRow (τ : Type) where
  tenant : String
  subject : String
  dekWrapped : Bytes
  kekVersion : UInt32
  createdAt : τ
  shreddedAt : Option τ
  deriving DecidableEq

/-- The primary key: two rows are of the same subject. -/
def KeyRow.Same {τ : Type} (a b : KeyRow τ) : Prop := a.tenant = b.tenant ∧ a.subject = b.subject

instance {τ : Type} : DecidableRel (KeyRow.Same (τ := τ)) := fun _ _ => instDecidableAnd

/-- The table `subject_keys`. -/
abbrev KeyTable (τ : Type) := Table (KeyRow τ) KeyRow.Same

/-- What `Shred.Keys` knows of a row. -/
def KeyRow.key {τ : Type} (r : KeyRow τ) : SubjectKey :=
  ⟨r.dekWrapped, r.kekVersion, r.shreddedAt.isSome⟩

namespace KeyTable

variable {τ : Type} (T : KeyTable τ)

/-- `GetSubjectKey`. -/
def get (tenant subject : String) : Option (KeyRow τ) :=
  T.rows.find? fun r => decide (r.tenant = tenant ∧ r.subject = subject)

/-- The row `UpsertSubjectKey` writes at the time `now`: one that exists keeps its `created_at` and
its `shredded_at`. -/
def written (tenant subject : String) (dekWrapped : Bytes) (kekVersion : UInt32) (now : τ) :
    KeyRow τ :=
  match T.get tenant subject with
  | some row => { row with dekWrapped := dekWrapped, kekVersion := kekVersion }
  | none => ⟨tenant, subject, dekWrapped, kekVersion, now, none⟩

/-- `UpsertSubjectKey`. -/
def upsert (tenant subject : String) (dekWrapped : Bytes) (kekVersion : UInt32) (now : τ) :
    KeyTable τ :=
  Table.upsert T (T.written tenant subject dekWrapped kekVersion now)

/-- The update of `ForgetSubject`. -/
def shred (tenant subject : String) (now : τ) (r : KeyRow τ) : KeyRow τ :=
  if r.tenant = tenant ∧ r.subject = subject then
    { r with dekWrapped := [], shreddedAt := some now }
  else r

omit T in
theorem shred_key (tenant subject : String) (now : τ) (r : KeyRow τ) :
    (shred tenant subject now r).tenant = r.tenant ∧
      (shred tenant subject now r).subject = r.subject := by
  unfold shred
  split_ifs <;> exact ⟨rfl, rfl⟩

/-- `ForgetSubject` at the time `now`. -/
def forget (tenant subject : String) (now : τ) : KeyTable τ :=
  Table.update T (shred tenant subject now) fun a b h => by
    obtain ⟨ha, ha'⟩ := shred_key tenant subject now a
    obtain ⟨hb, hb'⟩ := shred_key tenant subject now b
    exact ⟨ha ▸ hb ▸ h.1, ha' ▸ hb' ▸ h.2⟩

/-- `SELECT ... ORDER BY subject LIMIT`, for the rows that satisfy `p`. -/
def page (p : KeyRow τ → Bool) (limit : ℕ) : List (KeyRow τ) :=
  ((T.rows.filter p).insertionSort fun a b => a.subject ≤ b.subject).take limit

/-- The `limit` of a list query: `limit <= 0` stands for 100. -/
def limitOf (limit : ℤ) : ℕ := if limit ≤ 0 then 100 else limit.toNat

/-- `ListStaleSubjectKeys`. -/
def listStale (tenant : String) (current : UInt32) (limit : ℤ) : List (KeyRow τ) :=
  T.page (fun r => r.tenant == tenant && decide (r.kekVersion < current) && r.shreddedAt.isNone)
    (limitOf limit)

/-- The view of the table in `Keys`. -/
def keys (tenant subject : String) : Option SubjectKey := (T.get tenant subject).map KeyRow.key

/-! ### What the queries find -/

variable {T} {t u t' u' : String} {r : KeyRow τ}

theorem get_eq_some_iff : T.get t u = some r ↔ r ∈ T.rows ∧ r.tenant = t ∧ r.subject = u := by
  constructor
  · intro h
    exact ⟨List.mem_of_find?_eq_some h, by simpa using List.find?_some h⟩
  · rintro ⟨hr, rfl, rfl⟩
    cases hf : T.get r.tenant r.subject with
    | none => simpa using List.find?_eq_none.1 hf r hr
    | some r' =>
      have hr' : r'.tenant = r.tenant ∧ r'.subject = r.subject := by
        simpa using List.find?_some hf
      have hsymm : ∀ a b : KeyRow τ, a.Same b → b.Same a := fun a b h => ⟨h.1.symm, h.2.symm⟩
      rw [Table.eq_of_clash hsymm (List.mem_of_find?_eq_some hf) hr hr']

theorem get_eq_none_iff : T.get t u = none ↔ ∀ r ∈ T.rows, ¬ (r.tenant = t ∧ r.subject = u) := by
  simp [get, List.find?_eq_none]

theorem tenant_of_get (h : T.get t u = some r) : r.tenant = t := (get_eq_some_iff.1 h).2.1

theorem subject_of_get (h : T.get t u = some r) : r.subject = u := (get_eq_some_iff.1 h).2.2

theorem written_key (dekWrapped : Bytes) (kekVersion : UInt32) (now : τ) :
    (T.written t u dekWrapped kekVersion now).tenant = t ∧
      (T.written t u dekWrapped kekVersion now).subject = u := by
  unfold written
  cases h : T.get t u with
  | none => exact ⟨rfl, rfl⟩
  | some row =>
    have htenant := tenant_of_get h
    have hsubject := subject_of_get h
    exact ⟨htenant, hsubject⟩

/-- After an upsert, the row of the subject. -/
theorem get_upsert (dekWrapped : Bytes) (kekVersion : UInt32) (now : τ) :
    (T.upsert t u dekWrapped kekVersion now).get t u =
      some (T.written t u dekWrapped kekVersion now) :=
  get_eq_some_iff.2 ⟨Table.mem_upsert.2 (Or.inl rfl), written_key dekWrapped kekVersion now⟩

/-- An upsert leaves the rows of other subjects. -/
theorem get_upsert_ne (hne : ¬ (t' = t ∧ u' = u)) (dekWrapped : Bytes) (kekVersion : UInt32)
    (now : τ) : (T.upsert t u dekWrapped kekVersion now).get t' u' = T.get t' u' := by
  obtain ⟨hwt, hwu⟩ := T.written_key (t := t) (u := u) dekWrapped kekVersion now
  ext r
  simp only [get_eq_some_iff, upsert, Table.mem_upsert, KeyRow.Same, hwt, hwu]
  constructor
  · rintro ⟨rfl | ⟨hr, -⟩, hrt, hru⟩
    · exact absurd ⟨hrt.symm.trans hwt, hru.symm.trans hwu⟩ hne
    · exact ⟨hr, hrt, hru⟩
  · rintro ⟨hr, hrt, hru⟩
    exact ⟨Or.inr ⟨hr, fun hs => hne ⟨hrt.symm.trans hs.1, hru.symm.trans hs.2⟩⟩, hrt, hru⟩

theorem get_forget (now : τ) : (T.forget t u now).get t u =
    (T.get t u).map fun r => { r with dekWrapped := [], shreddedAt := some now } := by
  cases h : T.get t u with
  | none =>
    rw [get_eq_none_iff] at h
    rw [Option.map_none, get_eq_none_iff]
    intro r hr
    obtain ⟨r₀, hr₀, rfl⟩ := List.mem_map.1 hr
    obtain ⟨ht, hu⟩ := shred_key t u now r₀
    rw [ht, hu]
    exact h r₀ hr₀
  | some r =>
    obtain ⟨hr, rfl, rfl⟩ := get_eq_some_iff.1 h
    rw [Option.map_some, get_eq_some_iff]
    exact ⟨List.mem_map.2 ⟨r, hr, if_pos ⟨rfl, rfl⟩⟩, rfl, rfl⟩

theorem get_forget_ne (hne : ¬ (t' = t ∧ u' = u)) (now : τ) :
    (T.forget t u now).get t' u' = T.get t' u' := by
  have hsame : ∀ r : KeyRow τ, r.tenant = t' ∧ r.subject = u' → shred t u now r = r := by
    rintro r ⟨rfl, rfl⟩
    exact if_neg hne
  ext r
  simp only [get_eq_some_iff, forget, Table.rows_update, List.mem_map]
  constructor
  · rintro ⟨⟨r₀, hr₀, rfl⟩, hr⟩
    obtain ⟨ht, hu⟩ := shred_key t u now r₀
    rw [ht, hu] at hr
    rw [hsame r₀ hr]
    exact ⟨hr₀, hr⟩
  · rintro ⟨hr, hk⟩
    exact ⟨⟨r, hr, hsame r hk⟩, hk⟩

theorem mem_of_mem_page {p : KeyRow τ → Bool} {limit : ℕ} (h : r ∈ T.page p limit) :
    r ∈ T.rows ∧ p r = true := by
  have := List.mem_of_mem_take h
  rw [List.mem_insertionSort] at this
  exact List.mem_filter.1 this

/-- A row of a stale page is a row of the table, stale and not shredded. -/
theorem of_mem_listStale {current : UInt32} {limit : ℤ} (h : r ∈ T.listStale t current limit) :
    T.get t r.subject = some r ∧ r.kekVersion < current ∧ r.shreddedAt = none := by
  obtain ⟨hr, hp⟩ := mem_of_mem_page h
  simp only [Bool.and_eq_true, beq_iff_eq, decide_eq_true_eq, Option.isNone_iff_eq_none] at hp
  exact ⟨get_eq_some_iff.2 ⟨hr, hp.1.1, rfl⟩, hp.1.2, hp.2⟩

/-! ### The view -/

/-- An upsert, as `Keys` sees it. -/
theorem keys_upsert (dekWrapped : Bytes) (kekVersion : UInt32) (now : τ) :
    (T.upsert t u dekWrapped kekVersion now).keys = fun t' u' =>
      if t' = t ∧ u' = u then some ⟨dekWrapped, kekVersion, match T.keys t u with
        | some row => row.shredded
        | none => false⟩
      else T.keys t' u' := by
  funext t' u'
  split_ifs with h
  · obtain ⟨rfl, rfl⟩ := h
    rw [keys, get_upsert, written, keys]
    cases T.get t' u' <;> rfl
  · rw [keys, get_upsert_ne h, keys]

/-- A shredded row, as `Keys` sees it. -/
theorem keys_forget (now : τ) : (T.forget t u now).keys = fun t' u' =>
    if t' = t ∧ u' = u then (T.keys t u).map fun row =>
      { row with dekWrapped := [], shredded := true }
    else T.keys t' u' := by
  funext t' u'
  split_ifs with h
  · obtain ⟨rfl, rfl⟩ := h
    rw [keys, get_forget, keys, Option.map_map, Option.map_map]
    rfl
  · rw [keys, get_forget_ne h, keys]

end KeyTable

end Shred

end EventStore
