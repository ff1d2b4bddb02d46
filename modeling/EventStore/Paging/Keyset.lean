import Mathlib.Data.List.Sort

/-!
# Reading a sorted table by a cursor

A page holds the first rows beyond a cursor, and the key of its last row is the next cursor.  A
scan reads page after page until one is short.  The table may change between two pages: `tables i`
is the table at the time of the `i`-th page.

* `Paging.take_beyond` : a page and what is beyond it make up what was beyond the cursor.
* `Paging.scan_sorted` : a scan returns rows in the order of their keys, none of them twice.
* `Paging.mem_scan` : a scan that has ended has returned the rows that were there all the time.
* `Paging.scan_ends` : a scan ends, once the table does not change any more.
-/

namespace EventStore.Paging

variable {α κ : Type*} [LinearOrder κ] {key : α → κ} {c : κ} {l : List α} {a : α}

/-- The rows beyond a cursor. -/
def beyond (key : α → κ) (c : κ) (l : List α) : List α := l.filter fun a => decide (c < key a)

@[simp] theorem mem_beyond : a ∈ beyond key c l ↔ a ∈ l ∧ c < key a := by
  simp [beyond]

theorem beyond_beyond {d : κ} (h : c ≤ d) : beyond key d (beyond key c l) = beyond key d l := by
  rw [beyond, beyond, beyond, List.filter_filter]
  refine List.filter_congr fun b _ => ?_
  rw [Bool.and_eq_left_iff_imp, decide_eq_true_eq, decide_eq_true_eq]
  exact h.trans_lt

/-- The rows of a page come no later than the last of them. -/
theorem le_last {page : List α} (hp : page.Pairwise fun a b => key a < key b)
    (ha : page.getLast? = some a) : ∀ b ∈ page, key b ≤ key a := by
  obtain ⟨init, rfl⟩ := List.getLast?_eq_some_iff.1 ha
  intro b hb
  rcases List.mem_append.1 hb with hb | hb
  · exact ((List.pairwise_append.1 hp).2.2 b hb a List.mem_cons_self).le
  · rw [List.mem_singleton.1 hb]

/-- **A page and what is beyond it make up what was beyond the cursor.** -/
theorem take_beyond {n : ℕ} (hl : l.Pairwise fun a b => key a < key b)
    (ha : ((beyond key c l).take n).getLast? = some a) :
    (beyond key c l).take n ++ beyond key (key a) l = beyond key c l := by
  have hmem : a ∈ beyond key c l := List.mem_of_mem_take (List.mem_of_getLast? ha)
  have hsorted : (beyond key c l).Pairwise fun a b => key a < key b := hl.filter _
  -- nothing of the page is beyond its last row, and all that follows is
  have hpage : beyond key (key a) ((beyond key c l).take n) = [] := by
    refine List.filter_eq_nil_iff.2 fun b hb => ?_
    rw [decide_eq_true_eq, not_lt]
    exact le_last (hsorted.sublist (List.take_sublist _ _)) ha b hb
  have hrest : beyond key (key a) ((beyond key c l).drop n) = (beyond key c l).drop n := by
    refine List.filter_eq_self.2 fun b hb => decide_eq_true ?_
    rw [← List.take_append_drop n (beyond key c l)] at hsorted
    exact (List.pairwise_append.1 hsorted).2.2 a (List.mem_of_getLast? ha) b hb
  have hnext : beyond key (key a) l = (beyond key c l).drop n :=
    calc beyond key (key a) l = beyond key (key a) (beyond key c l) :=
          (beyond_beyond (mem_beyond.1 hmem).2.le).symm
      _ = beyond key (key a) ((beyond key c l).take n ++ (beyond key c l).drop n) := by
          rw [List.take_append_drop]
      _ = (beyond key c l).drop n := (List.filter_append ..).trans (by
          rw [← beyond, ← beyond, hpage, hrest, List.nil_append])
  rw [hnext, List.take_append_drop]

/-- The rows up to a cursor and those beyond it make up the table. -/
theorem filter_le_append_beyond (c : κ) (hl : l.Pairwise fun a b => key a < key b) :
    l.filter (fun a => decide (key a ≤ c)) ++ beyond key c l = l := by
  induction l with
  | nil => rfl
  | cons b l ih =>
    obtain ⟨hb, hl⟩ := List.pairwise_cons.1 hl
    by_cases hbc : key b ≤ c
    · rw [List.filter_cons_of_pos (by simpa using hbc), beyond,
        List.filter_cons_of_neg (by simpa using hbc), List.cons_append, ← beyond, ih hl]
    · -- all the rows that follow are beyond the cursor, too
      have hall : ∀ d ∈ b :: l, c < key d := by
        intro d hd
        rcases List.mem_cons.1 hd with rfl | hd
        · exact not_le.1 hbc
        · exact (not_le.1 hbc).trans (hb d hd)
      have hnone : (b :: l).filter (fun a => decide (key a ≤ c)) = [] :=
        List.filter_eq_nil_iff.2 fun d hd => by simpa using hall d hd
      rw [hnone, List.nil_append, beyond, List.filter_eq_self]
      exact fun d hd => decide_eq_true (hall d hd)

/-! ### Page after page -/

section Scan

variable {size : ℕ} {tables : ℕ → List α} {fuel i : ℕ}

/-- The rows that up to `fuel` pages return from the `i`-th on, and whether the scan has ended. -/
def scan (key : α → κ) (size : ℕ) (tables : ℕ → List α) : ℕ → ℕ → κ → List α × Bool
  | 0, _, _ => ([], false)
  | fuel + 1, i, c =>
    let page := (beyond key c (tables i)).take size
    match page.getLast? with
    | none => ([], true)
    | some a =>
      if page.length < size then (page, true)
      else
        let rest := scan key size tables fuel (i + 1) (key a)
        (page ++ rest.1, rest.2)

/-- What can happen to a page. -/
theorem scan_succ (key : α → κ) (size : ℕ) (tables : ℕ → List α) (fuel i : ℕ) (c : κ) :
    scan key size tables (fuel + 1) i c =
      ((beyond key c (tables i)).take size, true) ∧
        ((beyond key c (tables i)).take size = [] ∨ (beyond key c (tables i)).length < size) ∨
    ∃ a rest ended, ((beyond key c (tables i)).take size).getLast? = some a ∧
      scan key size tables fuel (i + 1) (key a) = (rest, ended) ∧
      scan key size tables (fuel + 1) i c =
        ((beyond key c (tables i)).take size ++ rest, ended) := by
  rw [scan]
  cases hlast : ((beyond key c (tables i)).take size).getLast? with
  | none =>
    rw [List.getLast?_eq_none_iff] at hlast
    exact .inl ⟨by simp [hlast], .inl hlast⟩
  | some a =>
    dsimp only
    split_ifs with hlen
    · refine .inl ⟨rfl, .inr ?_⟩
      rw [List.length_take] at hlen
      omega
    · exact .inr ⟨a, _, _, rfl, rfl, rfl⟩

/-- **The rows come in the order of their keys**, whatever happens to the table. -/
theorem scan_sorted (ht : ∀ i, (tables i).Pairwise fun a b => key a < key b) :
    (scan key size tables fuel i c).1.Pairwise (fun a b => key a < key b) ∧
      ∀ b ∈ (scan key size tables fuel i c).1, c < key b := by
  induction fuel generalizing i c with
  | zero => exact ⟨.nil, by simp [scan]⟩
  | succ fuel ih =>
    have hpage : ((beyond key c (tables i)).take size).Pairwise fun a b => key a < key b :=
      (((ht i).filter _).sublist (List.take_sublist _ _))
    have hbeyond : ∀ b ∈ (beyond key c (tables i)).take size, c < key b := fun b hb =>
      (mem_beyond.1 (List.mem_of_mem_take hb)).2
    rcases scan_succ key size tables fuel i c with ⟨heq, -⟩ | ⟨a, rest, ended, ha, hrest, heq⟩
    · rw [heq]
      exact ⟨hpage, hbeyond⟩
    · -- what the next pages return is beyond the last row of this one
      obtain ⟨hsorted, hlater⟩ := ih (i := i + 1) (c := key a)
      rw [hrest] at hsorted hlater
      rw [heq]
      have hac : c < key a := hbeyond a (List.mem_of_getLast? ha)
      refine ⟨List.pairwise_append.2 ⟨hpage, hsorted, fun b hb d hd => ?_⟩, fun b hb => ?_⟩
      · exact (le_last hpage ha b hb).trans_lt (hlater d hd)
      · rcases List.mem_append.1 hb with hb | hb
        · exact hbeyond b hb
        · exact hac.trans (hlater b hb)

/-- What is returned was in the table when some page was read. -/
theorem mem_of_scan {b : α} (hb : b ∈ (scan key size tables fuel i c).1) :
    ∃ j, i ≤ j ∧ b ∈ tables j := by
  induction fuel generalizing i c with
  | zero => simp [scan] at hb
  | succ fuel ih =>
    have hpage : b ∈ (beyond key c (tables i)).take size → ∃ j, i ≤ j ∧ b ∈ tables j := fun h =>
      ⟨i, le_rfl, (mem_beyond.1 (List.mem_of_mem_take h)).1⟩
    rcases scan_succ key size tables fuel i c with ⟨heq, -⟩ | ⟨a, rest, ended, -, hrest, heq⟩
    · rw [heq] at hb
      exact hpage hb
    · rw [heq] at hb
      rcases List.mem_append.1 hb with hb | hb
      · exact hpage hb
      · obtain ⟨j, hj, hmem⟩ := ih (i := i + 1) (c := key a) (by rwa [hrest])
        exact ⟨j, by omega, hmem⟩

/-- **A scan that has ended has returned what was there all the time.** -/
theorem mem_scan {b : α} (hsize : 0 < size) (ht : ∀ i, (tables i).Pairwise fun a b => key a < key b)
    (hended : (scan key size tables fuel i c).2 = true) (hb : ∀ j, i ≤ j → b ∈ tables j)
    (hc : c < key b) : b ∈ (scan key size tables fuel i c).1 := by
  induction fuel generalizing i c with
  | zero => simp [scan] at hended
  | succ fuel ih =>
    have hmem : b ∈ beyond key c (tables i) := mem_beyond.2 ⟨hb i le_rfl, hc⟩
    rcases scan_succ key size tables fuel i c with ⟨heq, hshort⟩ | ⟨a, rest, ended, ha, hrest, heq⟩
    · -- a short page is all there is
      have hall : (beyond key c (tables i)).take size = beyond key c (tables i) := by
        rcases hshort with hnil | hlen
        · rw [List.take_eq_nil_iff] at hnil
          rw [hnil.resolve_left hsize.ne', List.take_nil]
        · exact List.take_of_length_le hlen.le
      rw [heq, hall]
      exact hmem
    · rw [heq] at hended ⊢
      rw [← take_beyond (ht i) ha, List.mem_append] at hmem
      refine List.mem_append.2 (hmem.imp_right fun hmem => ?_)
      have := ih (i := i + 1) (c := key a) (by rwa [hrest]) (fun j hj => hb j (by omega))
        (mem_beyond.1 hmem).2
      rwa [hrest] at this

theorem scan_ends_of_forall (hl : l.Pairwise fun a b => key a < key b)
    (hi : ∀ j, i ≤ j → tables j = l) (hfuel : (beyond key c l).length < fuel) :
    (scan key size tables fuel i c).2 = true := by
  induction fuel generalizing i c with
  | zero => omega
  | succ fuel ih =>
    rcases scan_succ key size tables fuel i c with ⟨heq, -⟩ | ⟨a, rest, ended, ha, hrest, heq⟩
    · rw [heq]
    · rw [hi i le_rfl] at ha
      -- the page is not empty, so fewer rows are left
      have hpos : 0 < ((beyond key c l).take size).length :=
        List.length_pos_of_mem (List.mem_of_getLast? ha)
      have hsum := congrArg List.length (take_beyond hl ha)
      rw [List.length_append] at hsum
      have hnext := ih (i := i + 1) (c := key a) (fun j hj => hi j (by omega)) (by omega)
      rw [hrest] at hnext
      rw [heq]
      exact hnext

/-- **A scan ends**, once the table does not change any more. -/
theorem scan_ends {N : ℕ} (hl : l.Pairwise fun a b => key a < key b)
    (hN : ∀ j, N ≤ j → tables j = l) : ∃ fuel, (scan key size tables fuel i c).2 = true := by
  suffices h : ∀ k i c, N ≤ i + k → (scan key size tables (l.length + 1 + k) i c).2 = true from
    ⟨_, h N i c (by omega)⟩
  intro k
  induction k with
  | zero =>
    intro i c hi
    exact scan_ends_of_forall hl (fun j hj => hN j (by omega))
      (Nat.lt_succ_of_le (List.length_filter_le _ _))
  | succ k ih =>
    intro i c hi
    rcases scan_succ key size tables (l.length + 1 + k) i c with
      ⟨heq, -⟩ | ⟨a, rest, ended, -, hrest, heq⟩
    · exact congrArg Prod.snd heq
    · have hnext := ih (i + 1) (key a) (by omega)
      rw [hrest] at hnext
      exact (congrArg Prod.snd heq).trans hnext

end Scan

end EventStore.Paging
