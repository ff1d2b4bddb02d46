import EventStore.Prog.Basic

/-!
# Histories of a program

A *history* of a program is what it has performed so far: its accesses, each with the answer it was
given.  Nothing is said about where the answers come from, and a history may end anywhere.

## Main definitions

* `Prog.History p t` : `t` is a history of `p`; `Prog.Ends p t r` : it is a whole one, with the
  result `r`.
-/

namespace EventStore

namespace Prog

variable {A : Type} {R : A → Type} {ε α β ν : Type}

/-- What a program has performed so far. -/
inductive History : Prog A R ε α → List ((a : A) × R a) → Prop
  | nil (p : Prog A R ε α) : History p []
  | cons {a : A} {next : R a → Prog A R ε α} (r : R a) {t : List ((a : A) × R a)} :
      History (next r) t → History (access a next) (⟨a, r⟩ :: t)

/-- The accesses of a history. -/
def accesses (t : List ((a : A) × R a)) : List A := t.map Sigma.fst

theorem History.fail {e : ε} {t : List ((a : A) × R a)}
    (h : History (Prog.fail e : Prog A R ε α) t) : t = [] := by
  cases h
  rfl

/-- A history that is broken off is a history. -/
theorem History.of_prefix {p : Prog A R ε α} {t u : List ((a : A) × R a)} (h : p.History (t ++ u)) :
    p.History t := by
  induction t generalizing p with
  | nil => exact .nil p
  | cons e t ih =>
    cases h with
    | cons r h => exact .cons r (ih h)

/-! ### Whole histories -/

/-- What a program has performed when it has come to an end, and its result. -/
inductive Ends : Prog A R ε α → List ((a : A) × R a) → Except ε α → Prop
  | ret (x : α) : Ends (ret x) [] (.ok x)
  | fail (e : ε) : Ends (fail e) [] (.error e)
  | access {a : A} {next : R a → Prog A R ε α} (r : R a) {t : List ((a : A) × R a)}
      {result : Except ε α} : Ends (next r) t result → Ends (access a next) (⟨a, r⟩ :: t) result

section Ends

variable {p : Prog A R ε α} {t : List ((a : A) × R a)} {result : Except ε α}

theorem Ends.history (h : p.Ends t result) : p.History t := by
  induction h with
  | ret x => exact .nil _
  | fail e => exact .nil _
  | access r _ ih => exact .cons r ih

theorem Ends.of_ret {x : α} (h : Ends (Prog.ret x : Prog A R ε α) t result) :
    t = [] ∧ result = .ok x := by
  cases h
  exact ⟨rfl, rfl⟩

theorem Ends.of_fail {e : ε} (h : Ends (Prog.fail e : Prog A R ε α) t result) :
    t = [] ∧ result = .error e := by
  cases h
  exact ⟨rfl, rfl⟩

theorem Ends.of_access {a : A} {next : R a → Prog A R ε α}
    (h : (Prog.access a next).Ends t result) :
    ∃ r t', t = ⟨a, r⟩ :: t' ∧ (next r).Ends t' result := by
  cases h with
  | access r h => exact ⟨r, _, rfl, h⟩

/-- With the same answers, a program ends in the same way. -/
theorem Ends.unique {t' u : List ((a : A) × R a)} {result' : Except ε α} (h : p.Ends t result)
    (h' : p.Ends t' result') (ht : t <+: u) (ht' : t' <+: u) : t = t' ∧ result = result' := by
  induction p generalizing t t' u with
  | ret x =>
    obtain ⟨rfl, rfl⟩ := Ends.of_ret h
    obtain ⟨rfl, rfl⟩ := Ends.of_ret h'
    exact ⟨rfl, rfl⟩
  | fail e =>
    obtain ⟨rfl, rfl⟩ := Ends.of_fail h
    obtain ⟨rfl, rfl⟩ := Ends.of_fail h'
    exact ⟨rfl, rfl⟩
  | access a next ih =>
    obtain ⟨r, t, rfl, hnext⟩ := Ends.of_access h
    obtain ⟨r', t', rfl, hnext'⟩ := Ends.of_access h'
    obtain ⟨w, rfl⟩ := ht
    rw [List.cons_append, List.cons_prefix_cons] at ht'
    obtain ⟨he, ht'⟩ := ht'
    cases he
    obtain ⟨rfl, hresult⟩ := ih r hnext hnext' (List.prefix_append t w) ht'
    exact ⟨rfl, hresult⟩

/-- A sequence ends with its second part, or where its first part fails. -/
theorem Ends.of_bind {f : α → Prog A R ε β} {result : Except ε β} (h : (p >>= f).Ends t result) :
    (∃ t₁ t₂ x, t = t₁ ++ t₂ ∧ p.Ends t₁ (.ok x) ∧ (f x).Ends t₂ result) ∨
      ∃ e, result = .error e ∧ p.Ends t (.error e) := by
  induction p generalizing t with
  | ret x => exact Or.inl ⟨[], t, x, rfl, .ret x, h⟩
  | fail e =>
    obtain ⟨rfl, rfl⟩ := Ends.of_fail h
    exact Or.inr ⟨e, rfl, .fail e⟩
  | access a next ih =>
    obtain ⟨r, t, rfl, hnext⟩ := Ends.of_access h
    rcases ih r hnext with ⟨t₁, t₂, x, rfl, h₁, h₂⟩ | ⟨e, rfl, h₁⟩
    · exact Or.inl ⟨⟨a, r⟩ :: t₁, t₂, x, rfl, .access r h₁, h₂⟩
    · exact Or.inr ⟨e, rfl, .access r h₁⟩

theorem Ends.of_ofExcept_bind {x : Except ε α} {f : α → Prog A R ε β} {result : Except ε β}
    (h : (ofExcept x >>= f).Ends t result) :
    (∃ y, x = .ok y ∧ (f y).Ends t result) ∨ ∃ e, x = .error e ∧ t = [] ∧ result = .error e := by
  cases x with
  | ok y => exact Or.inl ⟨y, rfl, h⟩
  | error e =>
    obtain ⟨rfl, rfl⟩ := Ends.of_fail h
    exact Or.inr ⟨e, rfl, rfl, rfl⟩

end Ends

end Prog

end EventStore
