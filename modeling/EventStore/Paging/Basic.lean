import Mathlib.Algebra.BigOperators.Group.Finset.Basic
import Mathlib.Algebra.Order.BigOperators.Group.Finset
import Mathlib.Data.List.Sort
import Mathlib.Logic.Function.Iterate

/-!
# A queue that is read in pages

Items wait in a fixed order.  In every round the first `limit` of them make up a page, and those of
the page that are the reader's own are tried; an item leaves the queue when a try settles it.  The
other items of the page, and the own ones whose try fails, keep their places.  The reader stops at
a page with nothing of its own.

Items that are not the reader's own (*foreign* items) fill the pages for ever.

* `Paging.Reader.stops_iff` : the reader stops, unless some own item that no try settles has fewer
  than `limit` foreign items before it.
* `Paging.Reader.waits_iff` : when the reader has stopped, the own items that are still waiting
  are those with at least `limit` foreign items before them.

Both rest on one fact about a round (`Paging.Reader.before_round`): foreign items never leave, so
that the number of them before an item that stays does not change.
-/

namespace EventStore.Paging

variable {α : Type*} [DecidableEq α]

/-- The items that wait, and how often each has been tried. -/
@[ext] structure Queue (α : Type*) where
  waiting : List α
  tries : α → ℕ

/-- A reader: the size of its pages, its own items, and which tries of an item settle it. -/
structure Reader (α : Type*) where
  limit : ℕ
  own : α → Bool
  settles : α → ℕ → Bool

namespace Reader

variable (R : Reader α)

/-- The next page. -/
def page (q : Queue α) : List α := q.waiting.take R.limit

/-- The item is tried in the next round. -/
def tried (q : Queue α) (a : α) : Bool := (R.page q).contains a && R.own a

/-- One round. -/
def round (q : Queue α) : Queue α where
  waiting := q.waiting.filter fun a => !(R.tried q a && R.settles a (q.tries a))
  tries a := if R.tried q a then q.tries a + 1 else q.tries a

/-- Nothing of the page is the reader's own. -/
def Stops (q : Queue α) : Prop := ∀ a ∈ R.page q, R.own a = false

/-- No further try settles the item. -/
def Hopeless (q : Queue α) (a : α) : Prop := ∀ i, q.tries a ≤ i → R.settles a i = false

/-- The number of foreign items before an item. -/
def before (q : Queue α) (a : α) : ℕ :=
  (q.waiting.takeWhile fun b => b != a).countP fun b => !R.own b

end Reader

/-! ### Places in a list -/

section Places

variable {l : List α} {a : α} {n : ℕ}

/-- The first items of a list are those with few items before them. -/
theorem mem_take_iff : a ∈ l.take n ↔ a ∈ l ∧ (l.takeWhile fun b => b != a).length < n := by
  induction l generalizing n with
  | nil => simp
  | cons b l ih =>
    cases n with
    | zero => simp
    | succ n =>
      rw [List.take_succ_cons, List.mem_cons, List.mem_cons, ih]
      by_cases hb : b = a
      · simp [hb]
      · have hne : (b != a) = true := bne_iff_ne.2 hb
        rw [List.takeWhile_cons, if_pos hne, List.length_cons, Nat.succ_lt_succ_iff]
        simp [Ne.symm hb]

/-- Leaving out items leaves out those of them that come before an item that stays. -/
theorem takeWhile_filter_of_kept {keep : α → Bool} (ha : keep a = true) :
    (l.filter keep).takeWhile (fun b => b != a) =
      (l.takeWhile fun b => b != a).filter keep := by
  induction l with
  | nil => rfl
  | cons b l ih =>
    by_cases hb : b = a
    · subst hb
      rw [List.filter_cons_of_pos ha]
      simp
    · have hne : (b != a) = true := bne_iff_ne.2 hb
      rw [List.takeWhile_cons, if_pos hne]
      cases hk : keep b with
      | true =>
        rw [List.filter_cons_of_pos hk, List.takeWhile_cons, if_pos hne, ih,
          List.filter_cons_of_pos hk]
      | false =>
        rw [List.filter_cons_of_neg (by simp [hk]), ih, List.filter_cons_of_neg (by simp [hk])]

omit [DecidableEq α] in
theorem orderedInsert_of_forall {r : α → α → Prop} [DecidableRel r] (h : ∀ b ∈ l, r a b) :
    l.orderedInsert r a = a :: l := by
  cases l with
  | nil => rfl
  | cons b l => exact List.orderedInsert_cons_of_le r l (h b List.mem_cons_self)

omit [DecidableEq α] in
/-- Leaving out items of a sorted list before or after one more is inserted. -/
theorem filter_orderedInsert {r : α → α → Prop} [DecidableRel r] [IsTrans α r] {p : α → Bool}
    (hl : l.Pairwise r) (ha : p a = true) :
    (l.orderedInsert r a).filter p = (l.filter p).orderedInsert r a := by
  induction l with
  | nil => simp [ha]
  | cons b l ih =>
    obtain ⟨hb, hl'⟩ := List.pairwise_cons.1 hl
    by_cases hab : r a b
    · -- the item goes to the front, with or without the others
      have hall : ∀ c ∈ (b :: l).filter p, r a c := by
        intro c hc
        rcases List.mem_cons.1 (List.mem_filter.1 hc).1 with rfl | hc
        · exact hab
        · exact IsTrans.trans _ _ _ hab (hb c hc)
      rw [List.orderedInsert_cons_of_le r l hab, List.filter_cons_of_pos ha,
        orderedInsert_of_forall hall]
    · rw [List.orderedInsert_of_not_le r l hab]
      cases hp : p b with
      | true =>
        rw [List.filter_cons_of_pos hp, List.filter_cons_of_pos hp, ih hl',
          List.orderedInsert_of_not_le r _ hab]
      | false =>
        rw [List.filter_cons_of_neg (by simp [hp]), List.filter_cons_of_neg (by simp [hp]), ih hl']

omit [DecidableEq α] in
/-- **Sorting is stable**: leaving out items does not change the order of the others. -/
theorem filter_insertionSort {r : α → α → Prop} [DecidableRel r] [Std.Total r] [IsTrans α r]
    (p : α → Bool) (l : List α) : (l.insertionSort r).filter p = (l.filter p).insertionSort r := by
  induction l with
  | nil => rfl
  | cons a l ih =>
    rw [List.insertionSort_cons]
    cases hp : p a with
    | true =>
      rw [filter_orderedInsert (List.pairwise_insertionSort r l) hp, List.filter_cons_of_pos hp,
        List.insertionSort_cons, ih]
    | false =>
      rw [List.orderedInsert_eq_take_drop, List.filter_append,
        List.filter_cons_of_neg (by simp [hp]), ← List.filter_append,
        List.takeWhile_append_dropWhile, List.filter_cons_of_neg (by simp [hp]), ih]

end Places

/-! ### One round -/

namespace Reader

variable {R : Reader α} {q : Queue α} {a : α}

theorem mem_waiting_round : a ∈ (R.round q).waiting ↔
    a ∈ q.waiting ∧ (R.tried q a && R.settles a (q.tries a)) = false := by
  rw [round, List.mem_filter, Bool.not_eq_true']

theorem tries_round :
    (R.round q).tries a = if R.tried q a then q.tries a + 1 else q.tries a := rfl

theorem tries_le_round : q.tries a ≤ (R.round q).tries a := by
  rw [tries_round]
  split_ifs
  · exact Nat.le_succ _
  · exact le_rfl

theorem tried_iff : R.tried q a = true ↔ a ∈ R.page q ∧ R.own a = true := by
  rw [tried, Bool.and_eq_true, List.contains_iff_mem]

/-- **Foreign items never leave**: an item that stays has as many of them before it as it had. -/
theorem before_round (h : a ∈ (R.round q).waiting) : R.before (R.round q) a = R.before q a := by
  have hkeep := (mem_waiting_round.1 h).2
  rw [before, round, takeWhile_filter_of_kept (by rw [hkeep]; rfl), List.countP_filter]
  refine List.countP_congr fun b _ => ?_
  cases hown : R.own b <;> simp [tried, hown]

/-- An item of the page has fewer foreign items before it than the page holds. -/
theorem before_lt_of_mem_page (h : a ∈ R.page q) : R.before q a < R.limit :=
  List.countP_le_length.trans_lt (mem_take_iff.1 h).2

/-- When the reader stops, an own item that waits has a page of foreign items before it. -/
theorem Stops.le_before (h : R.Stops q) (ha : a ∈ q.waiting) (hown : R.own a = true) :
    R.limit ≤ R.before q a := by
  have hnot : a ∉ R.page q := fun hp => by rw [h a hp] at hown; cases hown
  have hlen : R.limit ≤ (q.waiting.takeWhile fun b => b != a).length := by
    by_contra hlt
    exact hnot (mem_take_iff.2 ⟨ha, Nat.not_le.1 hlt⟩)
  -- the page is the beginning of what comes before the item
  have hpage : R.page q = (q.waiting.takeWhile fun b => b != a).take R.limit := by
    obtain ⟨rest, hrest⟩ := List.takeWhile_prefix (l := q.waiting) fun b => b != a
    have htake : ((q.waiting.takeWhile fun b => b != a) ++ rest).take R.limit = _ :=
      List.take_append_of_le_length hlen
    rwa [hrest] at htake
  have hall : (R.page q).countP (fun b => !R.own b) = (R.page q).length :=
    List.countP_eq_length.2 fun b hb => by rw [h b hb]; rfl
  calc R.limit = (R.page q).length := by rw [hpage, List.length_take, Nat.min_eq_left hlen]
    _ = (R.page q).countP (fun b => !R.own b) := hall.symm
    _ ≤ R.before q a := by
      rw [hpage]
      exact (List.take_sublist _ _).countP_le

/-- Nothing changes in a round that tries nothing. -/
theorem Stops.round_eq (h : R.Stops q) : R.round q = q := by
  have hnot : ∀ a, R.tried q a = false := by
    intro a
    rw [← Bool.not_eq_true, tried_iff]
    rintro ⟨hp, hown⟩
    rw [h a hp] at hown
    cases hown
  refine Queue.ext ?_ (funext fun a => ?_)
  · rw [round]
    refine List.filter_eq_self.2 fun a _ => ?_
    rw [hnot a]
    rfl
  · rw [tries_round, hnot a]
    rfl

/-! ### Round after round -/

/-- A hopeless item stays, and so do the foreign items before it. -/
theorem hopeless_iterate (ha : a ∈ q.waiting) (hope : R.Hopeless q a) (n : ℕ) :
    a ∈ (R.round^[n] q).waiting ∧ R.before (R.round^[n] q) a = R.before q a := by
  have key : a ∈ (R.round^[n] q).waiting ∧ R.before (R.round^[n] q) a = R.before q a ∧
      q.tries a ≤ (R.round^[n] q).tries a := by
    induction n with
    | zero => exact ⟨ha, rfl, le_rfl⟩
    | succ n ih =>
      obtain ⟨hmem, hbefore, htries⟩ := ih
      rw [Function.iterate_succ_apply']
      have hstay : a ∈ (R.round (R.round^[n] q)).waiting := by
        rw [mem_waiting_round, hope _ htries, Bool.and_false]
        exact ⟨hmem, rfl⟩
      exact ⟨hstay, (before_round hstay).trans hbefore, htries.trans tries_le_round⟩
  exact ⟨key.1, key.2.1⟩

/-- What is left of the tries up to a given one, for an item that waits. -/
def left (bound : α → ℕ) (q : Queue α) (a : α) : ℕ :=
  if a ∈ q.waiting then bound a + 1 - q.tries a else 0

/-- A round spends a try of each item it tries, and no other tries. -/
theorem left_round_le {bound : α → ℕ} : left bound (R.round q) a ≤ left bound q a := by
  unfold left
  split_ifs with h h' h'
  · have hle : q.tries a ≤ (R.round q).tries a := tries_le_round
    omega
  · exact absurd (mem_waiting_round.1 h).1 h'
  · exact Nat.zero_le _
  · exact Nat.zero_le _

theorem left_round_lt {bound : α → ℕ} (ht : R.tried q a = true) (hle : q.tries a ≤ bound a) :
    left bound (R.round q) a < left bound q a := by
  have hmem : a ∈ q.waiting := List.mem_of_mem_take (tried_iff.1 ht).1
  have htries : (R.round q).tries a = q.tries a + 1 := if_pos ht
  unfold left
  rw [if_pos hmem, htries]
  split_ifs <;> omega

/-- A reader that only comes to items a try settles stops. -/
theorem exists_stops {bound : α → ℕ} (q : Queue α)
    (hbound : ∀ a ∈ q.waiting, R.own a = true → R.before q a < R.limit →
      q.tries a ≤ bound a ∧ R.settles a (bound a) = true) :
    ∃ n, R.Stops (R.round^[n] q) := by
  -- the induction is on the tries that are left, over the items that waited at the start
  suffices key : ∀ m (q : Queue α), (∀ a ∈ q.waiting, R.own a = true → R.before q a < R.limit →
      q.tries a ≤ bound a ∧ R.settles a (bound a) = true) →
      ∑ a ∈ q.waiting.toFinset, left bound q a ≤ m → ∃ n, R.Stops (R.round^[n] q) from
    key _ q hbound le_rfl
  intro m
  induction m with
  | zero =>
    intro q hbound hsum
    refine ⟨0, fun a ha => ?_⟩
    by_contra hown
    rw [Bool.not_eq_false] at hown
    have hmem : a ∈ q.waiting := List.mem_of_mem_take ha
    have hle := (hbound a hmem hown (before_lt_of_mem_page ha)).1
    have hzero := Finset.sum_eq_zero_iff.1 (Nat.le_zero.1 hsum) a (List.mem_toFinset.2 hmem)
    rw [left, if_pos hmem] at hzero
    omega
  | succ m ih =>
    intro q hbound hsum
    by_cases hstop : R.Stops q
    · exact ⟨0, hstop⟩
    -- an own item of the page is tried
    rw [Stops] at hstop
    push Not at hstop
    obtain ⟨a, ha, hown⟩ := hstop
    rw [ne_eq, Bool.not_eq_false] at hown
    have hmem : a ∈ q.waiting := List.mem_of_mem_take ha
    have hle := (hbound a hmem hown (before_lt_of_mem_page ha)).1
    have hlt : ∑ b ∈ q.waiting.toFinset, left bound (R.round q) b <
        ∑ b ∈ q.waiting.toFinset, left bound q b :=
      Finset.sum_lt_sum (fun b _ => left_round_le)
        ⟨a, List.mem_toFinset.2 hmem, left_round_lt (tried_iff.2 ⟨ha, hown⟩) hle⟩
    have hsub : (R.round q).waiting.toFinset ⊆ q.waiting.toFinset := by
      intro b hb
      exact List.mem_toFinset.2 (mem_waiting_round.1 (List.mem_toFinset.1 hb)).1
    -- an item that stays although it was tried has a later try to wait for
    have hnext : ∀ b ∈ (R.round q).waiting, R.own b = true → R.before (R.round q) b < R.limit →
        (R.round q).tries b ≤ bound b ∧ R.settles b (bound b) = true := by
      intro b hb hown hlt
      rw [before_round hb] at hlt
      obtain ⟨hmem', hkept⟩ := mem_waiting_round.1 hb
      obtain ⟨hle', hsettles⟩ := hbound b hmem' hown hlt
      refine ⟨?_, hsettles⟩
      rw [tries_round]
      split_ifs with ht
      · rw [ht, Bool.true_and] at hkept
        refine Nat.lt_of_le_of_ne hle' fun heq => ?_
        rw [heq, hsettles] at hkept
        cases hkept
      · exact hle'
    obtain ⟨n, hn⟩ := ih (R.round q) hnext
      (Nat.le_of_lt_succ ((Finset.sum_le_sum_of_subset hsub).trans_lt (hlt.trans_le hsum)))
    exact ⟨n + 1, hn⟩

/-- **When the reader stops**: no own item that nothing settles has fewer foreign items before it
than a page holds. -/
theorem stops_iff : (∃ n, R.Stops (R.round^[n] q)) ↔
    ∀ a ∈ q.waiting, R.own a = true → R.Hopeless q a → R.limit ≤ R.before q a := by
  constructor
  · rintro ⟨n, hn⟩ a ha hown hope
    obtain ⟨hmem, hbefore⟩ := hopeless_iterate ha hope n
    rw [← hbefore]
    exact hn.le_before hmem hown
  · intro h
    classical
    have hex : ∀ a, ∃ i, a ∈ q.waiting → R.own a = true → R.before q a < R.limit →
        q.tries a ≤ i ∧ R.settles a i = true := by
      intro a
      by_cases hcond : a ∈ q.waiting ∧ R.own a = true ∧ R.before q a < R.limit
      · obtain ⟨ha, hown, hlt⟩ := hcond
        have hnot : ¬ R.Hopeless q a := fun hope => absurd (h a ha hown hope) (Nat.not_le.2 hlt)
        rw [Hopeless] at hnot
        push Not at hnot
        obtain ⟨i, hi, hs⟩ := hnot
        exact ⟨i, fun _ _ _ => ⟨hi, Bool.not_eq_false _ ▸ hs⟩⟩
      · exact ⟨0, fun ha hown hlt => absurd ⟨ha, hown, hlt⟩ hcond⟩
    choose bound hbound using hex
    exact exists_stops q fun a ha hown hlt => hbound a ha hown hlt

/-- What waits has waited from the start, with the same foreign items before it. -/
theorem before_iterate {n : ℕ} (h : a ∈ (R.round^[n] q).waiting) :
    a ∈ q.waiting ∧ R.before (R.round^[n] q) a = R.before q a := by
  induction n with
  | zero => exact ⟨h, rfl⟩
  | succ n ih =>
    rw [Function.iterate_succ_apply'] at h ⊢
    obtain ⟨hmem, hbefore⟩ := ih (mem_waiting_round.1 h).1
    exact ⟨hmem, (before_round h).trans hbefore⟩

/-- An item that has left was on a page, and a try has settled it. -/
theorem before_lt_of_left {n : ℕ} (ha : a ∈ q.waiting) (h : a ∉ (R.round^[n] q).waiting) :
    R.before q a < R.limit ∧ ∃ i, R.settles a i = true := by
  induction n with
  | zero => exact absurd ha h
  | succ n ih =>
    by_cases hmem : a ∈ (R.round^[n] q).waiting
    · rw [Function.iterate_succ_apply', mem_waiting_round, not_and, Bool.not_eq_false,
        Bool.and_eq_true, tried_iff] at h
      obtain ⟨⟨hpage, -⟩, hsettles⟩ := h hmem
      rw [← (before_iterate hmem).2]
      exact ⟨before_lt_of_mem_page hpage, _, hsettles⟩
    · exact ih hmem

/-- **What is still waiting when the reader has stopped.** -/
theorem waits_iff {n : ℕ} (hn : R.Stops (R.round^[n] q)) (ha : a ∈ q.waiting)
    (hown : R.own a = true) : a ∈ (R.round^[n] q).waiting ↔ R.limit ≤ R.before q a := by
  constructor
  · intro h
    rw [← (before_iterate h).2]
    exact hn.le_before h hown
  · intro hle
    by_contra h
    exact absurd (before_lt_of_left ha h).1 (Nat.not_lt.2 hle)

/-- What has been tried has waited from the start, not too far behind. -/
theorem before_lt_of_tries {n : ℕ} (h : q.tries a < (R.round^[n] q).tries a) :
    a ∈ q.waiting ∧ R.before q a < R.limit := by
  induction n with
  | zero => exact absurd h (Nat.lt_irrefl _)
  | succ n ih =>
    rw [Function.iterate_succ_apply', tries_round] at h
    split_ifs at h with ht
    · have hpage := (tried_iff.1 ht).1
      obtain ⟨hmem, hbefore⟩ := before_iterate (List.mem_of_mem_take hpage)
      exact ⟨hmem, hbefore ▸ before_lt_of_mem_page hpage⟩
    · exact ih h

/-- An item that every try settles is tried once, and then it is gone. -/
theorem tries_iterate (hs : ∀ i, R.settles a i = true) (ha : a ∈ q.waiting) (n : ℕ) :
    (R.round^[n] q).tries a =
      if a ∈ (R.round^[n] q).waiting then q.tries a else q.tries a + 1 := by
  induction n with
  | zero => exact (if_pos ha).symm
  | succ n ih =>
    rw [Function.iterate_succ_apply', tries_round, ih]
    simp only [mem_waiting_round, hs, Bool.and_true]
    cases ht : R.tried (R.round^[n] q) a with
    | true =>
      have hmem : a ∈ (R.round^[n] q).waiting := List.mem_of_mem_take (tried_iff.1 ht).1
      simp [hmem]
    | false => simp

end Reader

end EventStore.Paging
