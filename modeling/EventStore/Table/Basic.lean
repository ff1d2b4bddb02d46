import Mathlib.Data.List.Sort

/-!
# Tables with unique keys

An SQL table as a list of rows in insertion order.  Its unique constraints are given by one
relation `clash` between a stored row and a new one (they agree on the primary key, or on some
other unique key), and a `Table` carries the proof that its rows respect them: a table that
violates a constraint cannot be built.

## Main definitions

* `Table ρ clash` : rows of type `ρ`, no earlier row clashing with a later one.
* `Table.insert` : `INSERT`, refused when a stored row clashes with the new one.
* `Table.delete` : `DELETE ... WHERE`.
* `Table.update` : `UPDATE`, for a change of rows that leaves their keys alone.
* `Table.upsert` : `INSERT ... ON CONFLICT DO UPDATE`: the new row takes the place of every row
  it clashes with.
* `Table.select` : `SELECT ... WHERE ... ORDER BY`, for a numeric sort key.
-/

namespace EventStore

/-- A table: rows in insertion order, no row clashing with one stored before it. -/
structure Table (ρ : Type*) (clash : ρ → ρ → Prop) where
  /-- The rows, oldest first. -/
  rows : List ρ
  /-- The unique constraints hold. -/
  unique : rows.Pairwise fun a b => ¬ clash a b

namespace Table

variable {ρ : Type*} {clash : ρ → ρ → Prop}

/-- The table with no rows. -/
def empty : Table ρ clash := ⟨[], .nil⟩

/-- Keep the rows that do not satisfy `p`. -/
def delete (t : Table ρ clash) (p : ρ → Bool) : Table ρ clash :=
  ⟨t.rows.filter fun r => !p r, t.unique.filter _⟩

/-- Change every row by `f`, which keeps rows that do not clash from clashing. -/
def update (t : Table ρ clash) (f : ρ → ρ) (hf : ∀ a b, clash (f a) (f b) → clash a b) :
    Table ρ clash :=
  ⟨t.rows.map f, List.pairwise_map.2 (t.unique.imp fun h hc => h (hf _ _ hc))⟩

/-- The rows satisfying `p` in the order of `key`. -/
def select (t : Table ρ clash) (p : ρ → Bool) (key : ρ → ℕ) : List ρ :=
  (t.rows.filter p).insertionSort fun a b => key a ≤ key b

section Insert

variable [DecidableRel clash]

/-- Append the row `r`, unless a stored row clashes with it. -/
def insert (t : Table ρ clash) (r : ρ) : Option (Table ρ clash) :=
  if h : ∀ a ∈ t.rows, ¬ clash a r then
    some ⟨t.rows ++ [r], List.pairwise_append.2
      ⟨t.unique, List.pairwise_singleton _ _, fun a ha _ hb => List.mem_singleton.1 hb ▸ h a ha⟩⟩
  else none

/-- Replace the rows that clash with `r` by `r`. -/
def upsert (t : Table ρ clash) (r : ρ) : Table ρ clash :=
  ⟨t.rows.filter (fun a => !decide (clash a r)) ++ [r], List.pairwise_append.2
    ⟨t.unique.filter _, List.pairwise_singleton _ _, fun a ha b hb => by
      rw [List.mem_singleton.1 hb]
      simpa using (List.mem_filter.1 ha).2⟩⟩

theorem insert_eq_some_iff {t t' : Table ρ clash} {r : ρ} :
    t.insert r = some t' ↔ (∀ a ∈ t.rows, ¬ clash a r) ∧ t'.rows = t.rows ++ [r] := by
  unfold insert
  split_ifs with h
  · constructor
    · intro he
      rw [← Option.some.inj he]
      exact ⟨h, rfl⟩
    · rintro ⟨-, hr⟩
      cases t'
      simp_all
  · simp only [false_iff, not_and]
    exact fun h' => absurd h' h

theorem insert_eq_none_iff {t : Table ρ clash} {r : ρ} :
    t.insert r = none ↔ ∃ a ∈ t.rows, clash a r := by
  unfold insert
  split_ifs with h
  · simpa using h
  · simpa using h

theorem mem_upsert {t : Table ρ clash} {r a : ρ} :
    a ∈ (t.upsert r).rows ↔ a = r ∨ a ∈ t.rows ∧ ¬ clash a r := by
  simp [upsert, or_comm]

end Insert

@[simp] theorem rows_empty : (empty : Table ρ clash).rows = [] := rfl

@[simp] theorem rows_delete (t : Table ρ clash) (p : ρ → Bool) :
    (t.delete p).rows = t.rows.filter fun r => !p r := rfl

@[simp] theorem rows_update (t : Table ρ clash) (f : ρ → ρ)
    (hf : ∀ a b, clash (f a) (f b) → clash a b) : (t.update f hf).rows = t.rows.map f := rfl

@[ext] theorem ext {t t' : Table ρ clash} (h : t.rows = t'.rows) : t = t' := by
  cases t; cases t'; simp_all

/-- A stored row is determined by its key. -/
theorem eq_of_clash {t : Table ρ clash} (hsymm : ∀ a b, clash a b → clash b a) {a b : ρ}
    (ha : a ∈ t.rows) (hb : b ∈ t.rows) (hab : clash a b) : a = b := by
  by_contra hne
  obtain ⟨i, hi, rfl⟩ := List.getElem_of_mem ha
  obtain ⟨j, hj, rfl⟩ := List.getElem_of_mem hb
  have hu := List.pairwise_iff_getElem.1 t.unique
  rcases lt_trichotomy i j with hij | hij | hij
  · exact hu i j hi hj hij hab
  · subst hij; exact hne rfl
  · exact hu j i hj hi hij (hsymm _ _ hab)

theorem mem_select {t : Table ρ clash} {p : ρ → Bool} {key : ρ → ℕ} {r : ρ} :
    r ∈ t.select p key ↔ r ∈ t.rows ∧ p r = true := by
  simp [select]

/-- Sorting does nothing to rows that were inserted in the order of the key. -/
theorem select_eq_filter {t : Table ρ clash} {p : ρ → Bool} {key : ρ → ℕ}
    (h : (t.rows.filter p).Pairwise fun a b => key a ≤ key b) :
    t.select p key = t.rows.filter p :=
  h.insertionSort_eq

end Table

end EventStore
