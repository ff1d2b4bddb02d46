import EventStore.Prog.History

/-!
# Programs that may go on without end

A `Prog` is a finite tree.  A method that calls itself is a family of programs, one for each bound
on the depth of the calls: where one of them gives up, a deeper one goes on.  An execution of the
method that never ends is an infinite sequence of accesses and answers, each finite part of which
is a history of some member of the family.

## Main definitions

* `Prog.Deepens stop p q` : `q` does what `p` does, except where `p` fails with `stop`.
* `Prog.Endless p t` : the family `p` goes on without end as `t` says.
* `Prog.Endless.of_bind` : **an endless sequence of two programs is endless in the first one, or in
  the second one after the first has returned.**
* `Prog.Endless.of_segments` : an endless execution made of segments.
-/

namespace EventStore

namespace Prog

variable {A : Type} {R : A → Type} {ε α β : Type}

/-! ### Deeper programs -/

/-- The second program does what the first one does, and goes on where that fails with `stop`. -/
inductive Deepens (stop : ε) : Prog A R ε α → Prog A R ε α → Prop
  | stop (q : Prog A R ε α) : Deepens stop (fail stop) q
  | ret (x : α) : Deepens stop (ret x) (ret x)
  | fail (e : ε) : Deepens stop (fail e) (fail e)
  | access {a : A} {next next' : R a → Prog A R ε α} :
      (∀ r, Deepens stop (next r) (next' r)) → Deepens stop (access a next) (access a next')

namespace Deepens

variable {stop : ε}

theorem refl (p : Prog A R ε α) : Deepens stop p p := by
  induction p with
  | ret x => exact .ret x
  | fail e => exact .fail e
  | access a next ih => exact .access ih

theorem bind {p q : Prog A R ε α} {f g : α → Prog A R ε β} (h : Deepens stop p q)
    (hfg : ∀ x, Deepens stop (f x) (g x)) : Deepens stop (p >>= f) (q >>= g) := by
  induction h with
  | stop q => exact .stop _
  | ret x => exact hfg x
  | fail e => exact .fail e
  | access _ ih => exact .access ih

/-- What the first one returns, the second one returns. -/
theorem ends {p q : Prog A R ε α} (h : Deepens stop p q) {t : List ((a : A) × R a)} {x : α}
    (ht : p.Ends t (.ok x)) : q.Ends t (.ok x) := by
  induction h generalizing t with
  | stop q => cases ht
  | ret y => exact ht
  | fail e => exact ht
  | access _ ih =>
    obtain ⟨r, t, rfl, hnext⟩ := Ends.of_access ht
    exact .access r (ih r hnext)

theorem ends_of_le {p : ℕ → Prog A R ε α} (h : ∀ n, Deepens stop (p n) (p (n + 1))) {n m : ℕ}
    (hnm : n ≤ m) {t : List ((a : A) × R a)} {x : α} (ht : (p n).Ends t (.ok x)) :
    (p m).Ends t (.ok x) := by
  induction hnm with
  | refl => exact ht
  | step _ ih => exact (h _).ends ih

end Deepens

/-! ### Histories of a sequence -/

theorem History.of_bind {p : Prog A R ε α} {f : α → Prog A R ε β} {t : List ((a : A) × R a)}
    (h : (p >>= f).History t) : p.History t ∨
      ∃ t₁ t₂ x, t = t₁ ++ t₂ ∧ p.Ends t₁ (.ok x) ∧ (f x).History t₂ := by
  induction p generalizing t with
  | ret x => exact Or.inr ⟨[], t, x, rfl, .ret x, h⟩
  | fail e =>
    rw [History.fail h]
    exact Or.inl (.nil _)
  | access a next ih =>
    cases h with
    | nil => exact Or.inl (.nil _)
    | cons r h =>
      rcases ih r h with hp | ⟨t₁, t₂, x, rfl, h₁, h₂⟩
      · exact Or.inl (.cons r hp)
      · exact Or.inr ⟨⟨a, r⟩ :: t₁, t₂, x, rfl, .access r h₁, h₂⟩

theorem History.bind {p : Prog A R ε α} {t : List ((a : A) × R a)} (h : p.History t)
    (f : α → Prog A R ε β) : (p >>= f).History t := by
  induction h with
  | nil => exact .nil _
  | cons r _ ih => exact .cons r ih

theorem Ends.bind {p : Prog A R ε α} {f : α → Prog A R ε β} {t u : List ((a : A) × R a)} {x : α}
    {result : Except ε β} (h : p.Ends t (.ok x)) (hu : (f x).Ends u result) :
    (p >>= f).Ends (t ++ u) result := by
  induction p generalizing t with
  | ret y =>
    obtain ⟨rfl, hx⟩ := Ends.of_ret h
    cases hx
    exact hu
  | fail e => cases h
  | access a next ih =>
    obtain ⟨r, t, rfl, hnext⟩ := Ends.of_access h
    exact .access r (ih r hnext)

theorem Ends.map {p : Prog A R ε α} {t : List ((a : A) × R a)} {x : α} (h : p.Ends t (.ok x))
    (g : α → β) : (p >>= fun x => Prog.ret (g x)).Ends t (.ok (g x)) := by
  have hmap := h.bind (f := fun x => Prog.ret (g x)) (.ret (g x))
  rwa [List.append_nil] at hmap

theorem Ends.bind_history {p : Prog A R ε α} {f : α → Prog A R ε β} {t u : List ((a : A) × R a)}
    {x : α} (h : p.Ends t (.ok x)) (hu : (f x).History u) : (p >>= f).History (t ++ u) := by
  induction p generalizing t with
  | ret y =>
    obtain ⟨rfl, hx⟩ := Ends.of_ret h
    cases hx
    exact hu
  | fail e => cases h
  | access a next ih =>
    obtain ⟨r, t, rfl, hnext⟩ := Ends.of_access h
    exact .cons r (ih r hnext)

/-! ### Executions without end -/

/-- The first elements of a sequence. -/
def firsts {τ : Type} (t : ℕ → τ) (n : ℕ) : List τ := (List.range n).map t

section Firsts

variable {τ : Type} {t : ℕ → τ} {n k : ℕ}

@[simp] theorem length_firsts : (firsts t n).length = n := by
  rw [firsts, List.length_map, List.length_range]

theorem firsts_succ : firsts t (n + 1) = t 0 :: firsts (fun i => t (i + 1)) n := by
  rw [firsts, List.range_succ_eq_map, List.map_cons, List.map_map]
  rfl

theorem firsts_add : firsts t (k + n) = firsts t k ++ firsts (fun i => t (k + i)) n := by
  rw [firsts, List.range_add, List.map_append, List.map_map]
  rfl

theorem of_firsts_eq_cons {x : τ} {l : List τ} (h : firsts t n = x :: l) :
    t 0 = x ∧ l = firsts (fun i => t (i + 1)) l.length := by
  cases n with
  | zero => cases h
  | succ n =>
    rw [firsts_succ] at h
    obtain ⟨hx, rfl⟩ := List.cons.inj h
    exact ⟨hx, by rw [length_firsts]⟩

theorem map_firsts {σ : Type} (f : τ → σ) :
    (firsts t n).map f = firsts (fun i => f (t i)) n := by
  rw [firsts, List.map_map]
  rfl

/-- A part of a sequence that comes first. -/
theorem eq_firsts {l : List τ} (h : l <+: firsts t n) : l = firsts t l.length := by
  obtain ⟨k, hk⟩ := Nat.exists_eq_add_of_le (by simpa using h.length_le)
  have hfirsts : firsts t l.length <+: firsts t n := by
    rw [hk, firsts_add]
    exact List.prefix_append _ _
  exact (List.prefix_of_prefix_length_le h hfirsts (by simp)).eq_of_length (by simp)

theorem firsts_mono {m : ℕ} (h : n ≤ m) : firsts t n <+: firsts t m := by
  obtain ⟨k, rfl⟩ := Nat.exists_eq_add_of_le h
  rw [firsts_add]
  exact List.prefix_append _ _

/-- Lists that grow without end are the parts of a sequence. -/
theorem exists_firsts {h : ℕ → List τ} (hgrow : ∀ n, h n <+: h (n + 1))
    (hlen : ∀ n, n ≤ (h n).length) : ∃ t, ∀ n, firsts t n <+: h n := by
  have hmono : ∀ n m, n ≤ m → h n <+: h m := by
    intro n m hnm
    induction hnm with
    | refl => exact List.prefix_rfl
    | step _ ih => exact ih.trans (hgrow _)
  refine ⟨fun i => (h (i + 1)).get ⟨i, hlen (i + 1)⟩, fun n => ?_⟩
  rw [List.prefix_iff_eq_take, length_firsts]
  refine List.ext_getElem (by simp [hlen n]) fun i hi _ => ?_
  rw [length_firsts] at hi
  have hin : i + 1 ≤ n := hi
  obtain ⟨u, hu⟩ := hmono (i + 1) n hin
  simp only [firsts, List.getElem_map, List.getElem_range, List.getElem_take, List.get_eq_getElem]
  simp only [← hu]
  rw [List.getElem_append_left]

/-- The segments one after the other, `n` of them from the `k`-th on. -/
def segments (seg : ℕ → List τ) : (n k : ℕ) → List τ
  | 0, _ => []
  | n + 1, k => seg k ++ segments seg n (k + 1)

theorem segments_prefix (seg : ℕ → List τ) (n k : ℕ) :
    segments seg n k <+: segments seg (n + 1) k := by
  induction n generalizing k with
  | zero => exact List.nil_prefix
  | succ n ih => exact (List.prefix_append_right_inj _).2 (ih (k + 1))

theorem le_length_segments {seg : ℕ → List τ} (hne : ∀ k, seg k ≠ []) :
    n ≤ (segments seg n k).length := by
  induction n generalizing k with
  | zero => exact Nat.zero_le _
  | succ n ih =>
    have hpos : 0 < (seg k).length := List.length_pos_iff.2 (hne k)
    have ih := ih (k := k + 1)
    rw [segments, List.length_append]
    omega

end Firsts

/-- The family goes on without end: each finite part of `t` is a history of some member. -/
def Endless (p : ℕ → Prog A R ε α) (t : ℕ → (a : A) × R a) : Prop :=
  ∀ n, ∃ depth, (p depth).History (firsts t n)

namespace Endless

variable {p : ℕ → Prog A R ε α} {t : ℕ → (a : A) × R a}

theorem of_access {a : A} {next : ℕ → R a → Prog A R ε α}
    (h : Endless (fun n => access a (next n)) t) :
    ∃ r, t 0 = ⟨a, r⟩ ∧ Endless (fun n => next n r) fun i => t (i + 1) := by
  obtain ⟨depth, h₁⟩ := h 1
  rw [firsts_succ] at h₁
  generalize ht : t 0 = e at h₁
  cases h₁ with
  | cons r _ =>
    refine ⟨r, rfl, fun n => ?_⟩
    obtain ⟨depth, hn⟩ := h (n + 1)
    rw [firsts_succ, ht] at hn
    cases hn with
    | cons _ hn => exact ⟨depth, hn⟩

/-- One program does not go on without end. -/
theorem not_const (p : Prog A R ε α) : ¬ Endless (fun _ => p) t := by
  intro h
  induction p generalizing t with
  | ret x =>
    obtain ⟨_, h₁⟩ := h 1
    rw [firsts_succ] at h₁
    cases h₁
  | fail e =>
    obtain ⟨_, h₁⟩ := h 1
    rw [firsts_succ] at h₁
    cases h₁
  | access a next ih =>
    obtain ⟨r, -, hnext⟩ := of_access h
    exact ih r hnext

/-- A member that gives up at once is not needed. -/
theorem succ {e : ε} (h : Endless p t) (hzero : p 0 = fail e) :
    Endless (fun n => p (n + 1)) t := by
  intro n
  obtain ⟨depth, hn⟩ := h (n + 1)
  cases depth with
  | zero =>
    rw [hzero, firsts_succ] at hn
    cases hn
  | succ depth =>
    obtain ⟨u, hu⟩ := firsts_mono (t := t) n.le_succ
    exact ⟨depth, History.of_prefix (hu ▸ hn)⟩

theorem of_bind {stop : ε} (hp : ∀ n, Deepens stop (p n) (p (n + 1)))
    {f : ℕ → α → Prog A R ε β} (h : Endless (fun n => p n >>= f n) t) :
    Endless p t ∨ ∃ k x, (∃ depth, (p depth).Ends (firsts t k) (.ok x)) ∧
      Endless (fun n => f n x) fun i => t (k + i) := by
  by_cases hfirst : Endless p t
  · exact Or.inl hfirst
  rw [Endless] at hfirst
  push Not at hfirst
  obtain ⟨m, hm⟩ := hfirst
  -- before the first program has gone this far, it returns
  have hsplit : ∀ n, ∃ k x depth, k < m ∧ (p depth).Ends (firsts t k) (.ok x) ∧
      (f depth x).History (firsts (fun i => t (k + i)) n) := by
    intro n
    obtain ⟨depth, hn⟩ := h (m + n)
    rcases hn.of_bind with hn | ⟨t₁, t₂, x, ht, hends, hrest⟩
    · rw [firsts_add] at hn
      exact absurd hn.of_prefix (hm depth)
    · have ht₁ := eq_firsts (ht ▸ List.prefix_append t₁ t₂)
      rcases Nat.lt_or_ge t₁.length m with hlt | hge
      · obtain ⟨j, hj⟩ := Nat.exists_eq_add_of_le (Nat.le_of_lt hlt)
        refine ⟨t₁.length, x, depth, hlt, ht₁ ▸ hends, ?_⟩
        have ht₂ : t₂ = firsts (fun i => t (t₁.length + i)) (j + n) := by
          rw [hj, Nat.add_assoc, firsts_add, ← ht₁] at ht
          exact (List.append_cancel_left ht).symm
        obtain ⟨u, hu⟩ := firsts_mono (t := fun i => t (t₁.length + i)) (Nat.le_add_left n j)
        rw [ht₂, ← hu] at hrest
        exact hrest.of_prefix
      · obtain ⟨u, hu⟩ := firsts_mono (t := t) hge
        rw [ht₁, ← hu] at hends
        exact absurd hends.history.of_prefix (hm depth)
  obtain ⟨k, x, depth, -, hends, -⟩ := hsplit 0
  refine Or.inr ⟨k, x, ⟨depth, hends⟩, fun n => ?_⟩
  obtain ⟨k', x', depth', -, hends', hrest⟩ := hsplit n
  obtain ⟨hk, hx⟩ := (Deepens.ends_of_le hp (Nat.le_max_left depth depth') hends).unique
    (Deepens.ends_of_le hp (Nat.le_max_right depth depth') hends')
    (firsts_mono (Nat.le_max_left k k')) (firsts_mono (Nat.le_max_right k k'))
  obtain rfl : k = k' := by simpa using congrArg List.length hk
  cases hx
  exact ⟨depth', hrest⟩

/-- The first program is one and the same. -/
theorem of_const_bind (stop : ε) {p : Prog A R ε α} {f : ℕ → α → Prog A R ε β}
    (h : Endless (fun n => p >>= f n) t) :
    ∃ k x, p.Ends (firsts t k) (.ok x) ∧ Endless (fun n => f n x) fun i => t (k + i) := by
  have hp : ∀ _ : ℕ, Deepens stop p p := fun _ => .refl p
  rcases of_bind hp h with hp | ⟨k, x, ⟨_, hends⟩, hrest⟩
  · exact absurd hp (not_const p)
  · exact ⟨k, x, hends, hrest⟩

/-- Segments that lead from one family to the next make an execution without end.  Their elements
may carry more than the accesses and answers. -/
theorem of_segments {τ : Type} (q : ℕ → ℕ → Prog A R ε α)
    (seg : ℕ → List (((a : A) × R a) × τ)) (hne : ∀ k, seg k ≠ [])
    (hseg : ∀ k depth u, (q (k + 1) depth).History u →
      (q k (depth + 1)).History ((seg k).map Prod.fst ++ u)) :
    ∃ t : ℕ → ((a : A) × R a) × τ, (Endless (q 0) fun i => (t i).1) ∧
      ∀ n, firsts t n <+: segments seg n 0 := by
  have hhistory : ∀ n k, (q k n).History ((segments seg n k).map Prod.fst) := by
    intro n
    induction n with
    | zero => exact fun k => .nil _
    | succ n ih =>
      intro k
      rw [segments, List.map_append]
      exact hseg k n _ (ih (k + 1))
  obtain ⟨t, ht⟩ := exists_firsts (fun n => segments_prefix seg n 0)
    fun n => le_length_segments hne
  refine ⟨t, fun n => ⟨n, ?_⟩, ht⟩
  obtain ⟨u, hu⟩ := ht n
  have hn := hhistory n 0
  rw [← hu, List.map_append, map_firsts] at hn
  exact hn.of_prefix

end Endless

end Prog

end EventStore
