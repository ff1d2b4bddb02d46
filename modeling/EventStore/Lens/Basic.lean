import EventStore.Failure.Basic

/-!
# Computations on a part of a state

A *lens* singles out a part of a state.  A computation is *within* the lens if it reads nothing but
the part and changes nothing but the part; then what it does on the whole is what some computation
does on the part.

* `Lens.Within.agree` : on two states with the same part, a computation within the lens has the same
  outcome, and leaves the same part.
* `Lens.within_bind`, `Lens.within_pure`, … : one rule for every way a computation is put together.
-/

namespace EventStore

/-- The part `τ` of a state `σ`. -/
structure Lens (σ τ : Type) where
  get : σ → τ
  set : τ → σ → σ
  get_set : ∀ v s, get (set v s) = v
  set_get : ∀ s, set (get s) s = s
  set_set : ∀ v w s, set v (set w s) = set v s

/-- The outcome of a computation, and the state it leaves. -/
def EStateM.split {ε σ α : Type} : EStateM.Result ε σ α → Except ε α × σ
  | .ok a s => (.ok a, s)
  | .error e s => (.error e, s)

namespace Lens

variable {σ τ ε α β : Type} {L : Lens σ τ}

/-- The computation reads and changes the part only. -/
def Within (L : Lens σ τ) (x : EStateM ε σ α) : Prop :=
  ∃ f : τ → Except ε α × τ, ∀ s,
    EStateM.split (x s) = ((f (L.get s)).1, L.set (f (L.get s)).2 s)

/-- **States with the same part.** -/
theorem Within.agree {x : EStateM ε σ α} (h : L.Within x) {s s' : σ} (hs : L.get s = L.get s') :
    ∃ r v, EStateM.split (x s) = (r, L.set v s) ∧ EStateM.split (x s') = (r, L.set v s') := by
  obtain ⟨f, hf⟩ := h
  refine ⟨_, _, hf s, ?_⟩
  rw [hf s', hs]

/-- What a computation leaves. -/
theorem Within.state {x : EStateM ε σ α} (h : L.Within x) (s : σ) :
    ∃ v, (EStateM.split (x s)).2 = L.set v s := by
  obtain ⟨r, v, hs, -⟩ := h.agree (rfl : L.get s = L.get s)
  exact ⟨v, congrArg Prod.snd hs⟩

theorem within_ofExcept (x : Except ε α) : L.Within (EStateM.ofExcept x : EStateM ε σ α) := by
  refine ⟨fun v => (x, v), fun s => ?_⟩
  rw [L.set_get]
  cases x <;> rfl

theorem within_pure (a : α) : L.Within (pure a : EStateM ε σ α) := within_ofExcept (.ok a)

theorem within_throw (e : ε) : L.Within (throw e : EStateM ε σ α) := within_ofExcept (.error e)

/-- One computation on the part after another. -/
def andThen (f : τ → Except ε α × τ) (g : α → τ → Except ε β × τ) (v : τ) : Except ε β × τ :=
  match f v with
  | (.ok a, v') => g a v'
  | (.error e, v') => (.error e, v')

/-- The rule for a sequence. -/
theorem within_bind {x : EStateM ε σ α} {g : α → EStateM ε σ β} (hx : L.Within x)
    (hg : ∀ a, L.Within (g a)) : L.Within (x >>= g) := by
  obtain ⟨f, hf⟩ := hx
  choose f' hf' using hg
  refine ⟨andThen f f', fun s => ?_⟩
  have hs := hf s
  rcases hv : f (L.get s) with ⟨r, v⟩
  rw [EStateM.bind_apply, andThen, hv]
  rw [hv] at hs
  cases hxs : x s with
  | ok a s₁ =>
    rw [hxs] at hs
    cases hs
    dsimp only
    rw [hf' a, L.get_set, L.set_set]
  | error e s₁ =>
    rw [hxs] at hs
    cases hs
    rfl

end Lens

end EventStore
