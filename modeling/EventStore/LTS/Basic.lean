import Mathlib.Logic.Relation

/-!
# Transition systems and their runs

The behavioural models of this development (clients racing on one store, a rebuild racing with
writers, a sequence of direct appends) are *transition systems*: initial states and labelled
steps.  This file has what they share.

## Main definitions

* `TS σ ℓ` : initial states and a step relation `σ → ℓ → σ → Prop`.
* `TS.Reachable` : the states some finite run ends in.
* `TS.restrict ok` : the same system, taking only the steps that meet the side condition `ok`.
  A statement "in every run whose steps all meet a condition" is a statement about the
  reachable states of the restricted system.
* `TS.Run` : a run as the list of its labels; `TS.Run.reachable`, `TS.Run.invariant`.
* `TS.exec` : the state after a list of steps, when the steps are computed.
* `split_append` : the places of a history that has grown at the end.
-/

namespace EventStore

/-- A transition system with states `σ` and step labels `ℓ`. -/
structure TS (σ ℓ : Type*) where
  /-- The states a run may start in. -/
  init : σ → Prop
  /-- `step s l s'` : in state `s` the step labelled `l` may lead to `s'`. -/
  step : σ → ℓ → σ → Prop

namespace TS

variable {σ ℓ : Type*} (T : TS σ ℓ)

/-- The end states of the finite runs of `T`. -/
inductive Reachable : σ → Prop
  | init {s : σ} : T.init s → Reachable s
  | step {s s' : σ} {l : ℓ} : Reachable s → T.step s l s' → Reachable s'

/-- The system that only takes the steps meeting `ok` (a condition on the label and on the
state before the step). -/
def restrict (ok : σ → ℓ → Prop) : TS σ ℓ where
  init := T.init
  step s l s' := ok s l ∧ T.step s l s'

/-- `Run s ls s'` : taking the steps labelled `ls` one after the other leads from `s` to `s'`. -/
inductive Run : σ → List ℓ → σ → Prop
  | done (s : σ) : Run s [] s
  | snoc {s s' s'' : σ} {ls : List ℓ} {l : ℓ} :
      Run s ls s' → T.step s' l s'' → Run s (ls ++ [l]) s''

variable {T}

/-- **Inductive invariants.**  What holds initially and is kept by every step from a reachable
state holds in every reachable state. -/
theorem Reachable.invariant {I : σ → Prop} {s : σ} (h : T.Reachable s)
    (h₀ : ∀ s, T.init s → I s)
    (hstep : ∀ s l s', T.Reachable s → I s → T.step s l s' → I s') : I s := by
  induction h with
  | init hi => exact h₀ _ hi
  | step hr hst ih => exact hstep _ _ _ hr ih hst

theorem Run.reachable {s s' : σ} {ls : List ℓ} (h : T.Run s ls s') (hs : T.Reachable s) :
    T.Reachable s' := by
  induction h with
  | done => exact hs
  | snoc _ hst ih => exact .step ih hst

/-- A step before a run. -/
theorem Run.cons {s s' s'' : σ} {l : ℓ} {ls : List ℓ} (h : T.step s l s') (hr : T.Run s' ls s'') :
    T.Run s (l :: ls) s'' := by
  induction hr with
  | done => exact .snoc (.done s) h
  | snoc _ hst ih =>
    -- `l :: (ls ++ [l'])` is `(l :: ls) ++ [l']` by definition
    have hrun := Run.snoc ih hst
    exact hrun

/-- What a run starts with and every step keeps, it ends with. -/
theorem Run.invariant {I : σ → Prop} {s s' : σ} {ls : List ℓ} (hr : T.Run s ls s') (h : I s)
    (hstep : ∀ s l s', I s → T.step s l s' → I s') : I s' := by
  induction hr with
  | done => exact h
  | snoc _ hst ih => exact hstep _ _ _ ih hst

/-- The state after the given steps, for steps that are computed. -/
def exec (f : σ → ℓ → Option σ) : σ → List ℓ → Option σ
  | s, [] => some s
  | s, l :: ls => (f s l).bind (exec f · ls)

/-- What is computed is a run. -/
theorem Run.exec {f : σ → ℓ → Option σ} {s s' : σ} {ls : List ℓ}
    (hf : ∀ l ∈ ls, ∀ s s', f s l = some s' → T.step s l s') (he : TS.exec f s ls = some s') :
    T.Run s ls s' := by
  induction ls generalizing s with
  | nil => exact Option.some.inj he ▸ .done s
  | cons l ls ih =>
    obtain ⟨s₁, h₁, he⟩ := Option.bind_eq_some_iff.1 he
    exact .cons (hf l List.mem_cons_self _ _ h₁)
      (ih (fun l hl => hf l (List.mem_cons_of_mem _ hl)) he)

/-- What is computed is reachable. -/
theorem Reachable.exec {f : σ → ℓ → Option σ} {s s' : σ} {ls : List ℓ} (h : T.Reachable s)
    (hf : ∀ l ∈ ls, ∀ s s', f s l = some s' → T.step s l s') (he : TS.exec f s ls = some s') :
    T.Reachable s' :=
  (Run.exec hf he).reachable h

/-- The computed steps that meet a condition. -/
def guarded (ok : σ → ℓ → Prop) [∀ s l, Decidable (ok s l)] (f : σ → ℓ → Option σ) (s : σ)
    (l : ℓ) : Option σ :=
  if ok s l then f s l else none

theorem step_guarded {ok : σ → ℓ → Prop} [∀ s l, Decidable (ok s l)] {f : σ → ℓ → Option σ}
    {s s' : σ} {l : ℓ} (hf : f s l = some s' → T.step s l s') (h : guarded ok f s l = some s') :
    (T.restrict ok).step s l s' := by
  unfold guarded at h
  split at h
  · exact ⟨‹_›, hf h⟩
  · cases h

end TS

/-! ### Histories -/

/-- An element of a list that has grown at the end: it is an old one or a new one. -/
theorem split_append {α : Type*} {l es pre post : List α} {e : α}
    (h : l ++ es = pre ++ e :: post) :
    (∃ post', l = pre ++ e :: post') ∨ ∃ a, pre = l ++ a ∧ es = a ++ e :: post := by
  rcases List.append_eq_append_iff.1 h with ⟨a, hp, he⟩ | ⟨c, hl, hc⟩
  · exact Or.inr ⟨a, hp, he⟩
  · cases c with
    | nil => exact Or.inr ⟨[], by rw [hl, List.append_nil, List.append_nil], hc.symm⟩
    | cons x c =>
      obtain ⟨rfl, -⟩ := List.cons.inj hc
      exact Or.inl ⟨c, hl⟩

end EventStore
