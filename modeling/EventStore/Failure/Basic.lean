import Mathlib.Data.List.Forall2
import Mathlib.Tactic.Common

/-!
# Computations that can fail

Rules for taking apart a computation in `Except ε`, or in `EStateM ε σ`, where the state is kept
when the computation fails: from the result of a sequence, the results of its parts.  They are
stated as equivalences with the successful (or the failing) result on the left, so that `simp`
and `rw` peel a sequence step by step.

`EStateM.Keeps I x` says that `x` keeps the property `I` of the state, whether it succeeds or
fails, and `EStateM.FailsIn Q x` (`Except.FailsIn`) that the errors of `x` have the property `Q`;
there is a rule for every way a computation is put together.
-/

namespace EventStore

section Except

universe u v

variable {ε ε' : Type u} {α β : Type v}

theorem Except.bind_eq_ok {x : Except ε α} {f : α → Except ε β} {b : β} :
    (x >>= f) = .ok b ↔ ∃ a, x = .ok a ∧ f a = .ok b := by
  cases x <;> simp [bind, Except.bind]

theorem Except.mapError_eq_ok {x : Except ε α} {g : ε → ε'} {a : α} :
    x.mapError g = .ok a ↔ x = .ok a := by
  cases x <;> simp [Except.mapError]

theorem Except.mapError_eq_error {x : Except ε α} {g : ε → ε'} {e : ε'} :
    x.mapError g = .error e ↔ ∃ e', x = .error e' ∧ g e' = e := by
  cases x <;> simp [Except.mapError]

@[simp] theorem Except.ok_bind {a : α} {f : α → Except ε β} :
    ((.ok a : Except ε α) >>= f) = f a := rfl

/-- The errors of the computation have a property. -/
def Except.FailsIn (Q : ε → Prop) (x : Except ε α) : Prop := ∀ e, x = .error e → Q e

theorem Except.failsIn_bind {Q : ε → Prop} {x : Except ε α} {f : α → Except ε β}
    (hx : Except.FailsIn Q x) (hf : ∀ a, Except.FailsIn Q (f a)) :
    Except.FailsIn Q (x >>= f) := by
  cases x with
  | ok a => exact hf a
  | error e =>
    intro e' h
    cases h
    exact hx e rfl

theorem Except.failsIn_mapError {Q : ε → Prop} {Q' : ε' → Prop} {g : ε → ε'} {x : Except ε α}
    (hx : Except.FailsIn Q x) (hg : ∀ e, Q e → Q' (g e)) :
    Except.FailsIn Q' (x.mapError g) := by
  intro e h
  obtain ⟨e', he', rfl⟩ := Except.mapError_eq_error.1 h
  exact hg e' (hx e' he')

/-- A list is mapped successfully iff each of its elements is. -/
theorem Except.mapM_eq_ok_iff {f : α → Except ε β} {l : List α} {bs : List β} :
    l.mapM f = .ok bs ↔ List.Forall₂ (fun a b => f a = .ok b) l bs := by
  induction l generalizing bs with
  | nil =>
    rw [List.mapM_nil, List.forall₂_nil_left_iff]
    exact ⟨fun h => (Except.ok.inj h).symm, fun h => h ▸ rfl⟩
  | cons a l ih =>
    rw [List.mapM_cons, List.forall₂_cons_left_iff]
    simp only [Except.bind_eq_ok, ih]
    constructor
    · rintro ⟨b, hb, bs', hbs, h⟩
      exact ⟨b, bs', hb, hbs, (Except.ok.inj h).symm⟩
    · rintro ⟨b, bs', hb, hbs, rfl⟩
      exact ⟨b, hb, bs', hbs, rfl⟩

/-- A list each element of which has a partner. -/
theorem exists_forall₂_of_forall {r : α → β → Prop} {as : List α} (h : ∀ a ∈ as, ∃ b, r a b) :
    ∃ bs, List.Forall₂ r as bs := by
  induction as with
  | nil => exact ⟨[], .nil⟩
  | cons a as ih =>
    obtain ⟨b, hb⟩ := h a List.mem_cons_self
    obtain ⟨bs, hbs⟩ := ih fun a ha => h a (List.mem_cons_of_mem _ ha)
    exact ⟨b :: bs, .cons hb hbs⟩

/-- What is in the result comes from an element. -/
theorem exists_of_forall₂_right {r : α → β → Prop} {as : List α} {bs : List β}
    (h : List.Forall₂ r as bs) {b : β} (hb : b ∈ bs) : ∃ a ∈ as, r a b := by
  induction h with
  | nil => exact absurd hb List.not_mem_nil
  | cons hr _ ih =>
    rcases List.mem_cons.1 hb with rfl | hb
    · exact ⟨_, List.mem_cons_self, hr⟩
    · obtain ⟨a, ha, hab⟩ := ih hb
      exact ⟨a, List.mem_cons_of_mem _ ha, hab⟩

/-- Elements that are apart have results that are apart. -/
theorem pairwise_of_forall₂ {r : α → β → Prop} {p : α → α → Prop} {q : β → β → Prop}
    (hq : ∀ a a' b b', r a b → r a' b' → p a a' → q b b') {as : List α} {bs : List β}
    (h : List.Forall₂ r as bs) (hp : as.Pairwise p) : bs.Pairwise q := by
  induction h with
  | nil => exact .nil
  | cons hr hrs ih =>
    obtain ⟨hhead, htail⟩ := List.pairwise_cons.1 hp
    refine List.pairwise_cons.2 ⟨fun b hb => ?_, ih htail⟩
    obtain ⟨a, ha, hab⟩ := exists_of_forall₂_right hrs hb
    exact hq _ _ _ _ hr hab (hhead a ha)

/-- Two lists that are related through a third one. -/
theorem forall₂_comp {γ : Type v} {r : α → β → Prop} {r' : β → γ → Prop} {q : α → γ → Prop}
    (hq : ∀ a b c, r a b → r' b c → q a c) {as : List α} {bs : List β} {cs : List γ}
    (h : List.Forall₂ r as bs) (h' : List.Forall₂ r' bs cs) : List.Forall₂ q as cs := by
  induction h generalizing cs with
  | nil =>
    cases h'
    exact .nil
  | cons hab _ ih =>
    cases h' with
    | cons hbc hrest => exact .cons (hq _ _ _ hab hbc) (ih hrest)

end Except

section EStateM

variable {ε σ α β : Type}

theorem EStateM.bind_apply (x : EStateM ε σ α) (f : α → EStateM ε σ β) (s : σ) :
    (x >>= f) s = match x s with
      | .ok a s' => f a s'
      | .error e s' => .error e s' := by
  simp only [bind, EStateM.bind]
  cases x s <;> rfl

theorem EStateM.bind_eq_ok {x : EStateM ε σ α} {f : α → EStateM ε σ β} {s s' : σ} {b : β} :
    (x >>= f) s = .ok b s' ↔ ∃ a s₁, x s = .ok a s₁ ∧ f a s₁ = .ok b s' := by
  simp only [bind, EStateM.bind]
  cases hx : x s <;> simp

theorem EStateM.bind_eq_error {x : EStateM ε σ α} {f : α → EStateM ε σ β} {s s' : σ} {e : ε} :
    (x >>= f) s = .error e s' ↔
      x s = .error e s' ∨ ∃ a s₁, x s = .ok a s₁ ∧ f a s₁ = .error e s' := by
  simp only [bind, EStateM.bind]
  cases hx : x s <;> simp

/-- A computation that does not touch the state. -/
def EStateM.ofExcept (x : Except ε α) : EStateM ε σ α := fun s =>
  match x with
  | .ok a => .ok a s
  | .error e => .error e s

@[simp] theorem EStateM.ofExcept_eq_ok {x : Except ε α} {a : α} {s s' : σ} :
    EStateM.ofExcept x s = .ok a s' ↔ x = .ok a ∧ s' = s := by
  unfold EStateM.ofExcept
  split <;> simp_all [eq_comm]

@[simp] theorem EStateM.adaptExcept_eq_ok {ε' : Type} {f : ε → ε'} {x : EStateM ε σ α} {a : α}
    {s s' : σ} : EStateM.adaptExcept f x s = .ok a s' ↔ x s = .ok a s' := by
  unfold EStateM.adaptExcept
  split <;> simp_all

theorem EStateM.adaptExcept_eq_error {ε' : Type} {f : ε → ε'} {x : EStateM ε σ α} {e : ε'}
    {s s' : σ} : EStateM.adaptExcept f x s = .error e s' ↔ ∃ e', x s = .error e' s' ∧ f e' = e := by
  unfold EStateM.adaptExcept
  split
  · rename_i e₁ s₁ hx
    constructor
    · intro h
      cases h
      exact ⟨e₁, hx, rfl⟩
    · rintro ⟨e', h, rfl⟩
      cases hx.symm.trans h
      rfl
  · rename_i hx
    simp [hx]

@[simp] theorem EStateM.pure_eq_ok {a b : α} {s s' : σ} :
    (pure a : EStateM ε σ α) s = .ok b s' ↔ a = b ∧ s = s' := by
  simp [pure, EStateM.pure]

@[simp] theorem EStateM.throw_apply (e : ε) (s : σ) :
    (throw e : EStateM ε σ α) s = .error e s := rfl

@[simp] theorem EStateM.get_apply (s : σ) : (get : EStateM ε σ σ) s = .ok s s := rfl

/-! ### Properties of the state that a computation keeps -/

/-- The state of a result. -/
def EStateM.after : EStateM.Result ε σ α → σ
  | .ok _ s => s
  | .error _ s => s

/-- The computation keeps a property of the state, also when it fails. -/
def EStateM.Keeps (I : σ → Prop) (x : EStateM ε σ α) : Prop := ∀ s, I s → I (EStateM.after (x s))

section Keeps

variable {I : σ → Prop}

theorem EStateM.Keeps.of_ok {x : EStateM ε σ α} (h : EStateM.Keeps I x) {s s' : σ} {a : α}
    (hs : I s) (hx : x s = .ok a s') : I s' := by
  have := h s hs
  rwa [hx] at this

theorem EStateM.keeps_pure (a : α) : EStateM.Keeps I (pure a : EStateM ε σ α) := fun _ hs => hs

theorem EStateM.keeps_adaptExcept {ε' : Type} {f : ε → ε'} {x : EStateM ε σ α}
    (h : EStateM.Keeps I x) : EStateM.Keeps I (EStateM.adaptExcept f x) := by
  intro s hs
  have := h s hs
  unfold EStateM.adaptExcept
  split <;> simp_all [EStateM.after]

end Keeps

/-! ### Properties of the errors -/

/-- The errors of the computation have a property. -/
def EStateM.FailsIn (Q : ε → Prop) (x : EStateM ε σ α) : Prop :=
  ∀ s e s', x s = .error e s' → Q e

section FailsIn

variable {Q : ε → Prop}

theorem EStateM.failsIn_pure (a : α) : EStateM.FailsIn Q (pure a : EStateM ε σ α) := by
  intro s e s' h
  cases h

theorem EStateM.failsIn_ofExcept {x : Except ε α} (h : Except.FailsIn Q x) :
    EStateM.FailsIn Q (EStateM.ofExcept x : EStateM ε σ α) := by
  intro s e s' hx
  unfold EStateM.ofExcept at hx
  split at hx
  · cases hx
  · cases hx
    exact h _ rfl

theorem EStateM.failsIn_adaptExcept {ε' : Type} {Q' : ε' → Prop} {f : ε → ε'}
    {x : EStateM ε σ α} (h : EStateM.FailsIn Q x) (hf : ∀ e, Q e → Q' (f e)) :
    EStateM.FailsIn Q' (EStateM.adaptExcept f x) := by
  intro s e s' hx
  obtain ⟨e', he', rfl⟩ := EStateM.adaptExcept_eq_error.1 hx
  exact hf e' (h s e' s' he')

theorem EStateM.failsIn_bind {x : EStateM ε σ α} {f : α → EStateM ε σ β}
    (hx : EStateM.FailsIn Q x) (hf : ∀ a, EStateM.FailsIn Q (f a)) :
    EStateM.FailsIn Q (x >>= f) := by
  intro s e s' h
  rcases EStateM.bind_eq_error.1 h with h | ⟨a, s₁, -, h⟩
  · exact hx s e s' h
  · exact hf a s₁ e s' h

end FailsIn

end EStateM

end EventStore
