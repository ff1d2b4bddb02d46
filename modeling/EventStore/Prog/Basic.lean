import EventStore.LTS.Basic
import EventStore.Failure.Basic

/-!
# Programs whose accesses interleave

A method that several clients run on a state they share is a tree: it has returned, it has failed,
or it performs one *access* to the state and goes on with the answer.  The accesses are atomic;
between two accesses of one program those of other programs may happen.

## Main definitions

* `Prog A R ε α` : programs with accesses `a : A`, answered by an `R a`; a monad.
* `Prog.run act` : the program on its own, where `act` says what an access does.
* `Threads` : any number of calls of such methods on one state, and `threadSystem`, in which a step
  begins a call or performs the next access of one.
* `Prog.Guards act N I Q` : **the rule for one program.**  Whenever it performs an access in a state
  with `I`, the access has the property `N` and `I` still holds afterwards; and its result has the
  property `Q`.  Between the accesses nothing is assumed but `I`.
* `Threads.Guarded.step` : if the programs of all calls are guarded, `I` is kept by every step, and
  accesses and results are as promised, for every interleaving.
* `Prog.Always P` : what holds of a program and of everything that may be left of it;
  `Prog.Only N` : every access it may come to has the property `N`.
-/

namespace EventStore

/-- A program: it has returned, it has failed, or it performs an access and goes on. -/
inductive Prog (A : Type) (R : A → Type) (ε α : Type) where
  | ret (x : α)
  | fail (e : ε)
  | access (a : A) (next : R a → Prog A R ε α)

namespace Prog

variable {A : Type} {R : A → Type} {ε σ α β : Type}

/-- One program after the other. -/
protected def bind : Prog A R ε α → (α → Prog A R ε β) → Prog A R ε β
  | ret x, f => f x
  | fail e, _ => fail e
  | access a next, f => access a fun r => (next r).bind f

instance : Monad (Prog A R ε) where
  pure := ret
  bind := Prog.bind

/-- The program that performs one access. -/
def perform (a : A) : Prog A R ε (R a) := access a ret

/-- A program without accesses. -/
def ofExcept : Except ε α → Prog A R ε α
  | .ok x => ret x
  | .error e => fail e

@[simp] theorem pure_eq (x : α) : (pure x : Prog A R ε α) = ret x := rfl

@[simp] theorem ret_bind (x : α) (f : α → Prog A R ε β) : (ret x >>= f) = f x := rfl

@[simp] theorem fail_bind (e : ε) (f : α → Prog A R ε β) : (fail e >>= f) = fail e := rfl

@[simp] theorem access_bind (a : A) (next : R a → Prog A R ε α) (f : α → Prog A R ε β) :
    (access a next >>= f) = access a fun r => next r >>= f := rfl

@[simp] theorem perform_bind (a : A) (f : R a → Prog A R ε β) :
    (perform a >>= f) = access a f := rfl

theorem bind_ret (p : Prog A R ε α) : (p >>= ret) = p := by
  induction p with
  | ret x => rfl
  | fail e => rfl
  | access a next ih => exact congrArg (access a) (funext ih)

@[simp] theorem map_eq (g : α → β) (p : Prog A R ε α) : g <$> p = p >>= fun x => ret (g x) := rfl

/-! ### A program on its own -/

variable (act : (a : A) → σ → R a × σ)

/-- The program, with no other one in between. -/
def run : Prog A R ε α → EStateM ε σ α
  | ret x, s => .ok x s
  | fail e, s => .error e s
  | access a next, s => (next (act a s).1).run (act a s).2

@[simp] theorem run_ret (x : α) (s : σ) : (ret x : Prog A R ε α).run act s = .ok x s := rfl

@[simp] theorem run_fail (e : ε) (s : σ) : (fail e : Prog A R ε α).run act s = .error e s := rfl

@[simp] theorem run_access (a : A) (next : R a → Prog A R ε α) (s : σ) :
    (access a next).run act s = (next (act a s).1).run act (act a s).2 := rfl

theorem run_bind (p : Prog A R ε α) (f : α → Prog A R ε β) :
    (p >>= f).run act = p.run act >>= fun x => (f x).run act := by
  funext s
  induction p generalizing s with
  | ret x => rfl
  | fail e => rfl
  | access a next ih => exact ih (act a s).1 (act a s).2

/-! ### Rules for one program -/

/-- From states with `I`, the program performs accesses with `N` that keep `I`, and its result has
the property `Q`; other programs may change the state in between, as long as they keep `I`. -/
def Guards (N : A → Prop) (I : σ → Prop) (Q : Except ε α → Prop) : Prog A R ε α → Prop
  | ret x => Q (.ok x)
  | fail e => Q (.error e)
  | access a next => ∀ s, I s → N a ∧ I (act a s).2 ∧ Guards N I Q (next (act a s).1)

variable {act} {N : A → Prop} {I : σ → Prop} {Q : Except ε α → Prop}

theorem Guards.mono {N' : A → Prop} {Q' : Except ε α → Prop} {p : Prog A R ε α}
    (h : p.Guards act N I Q) (hN : ∀ a, N a → N' a) (hQ : ∀ r, Q r → Q' r) :
    p.Guards act N' I Q' := by
  induction p with
  | ret x => exact hQ _ h
  | fail e => exact hQ _ h
  | access a next ih =>
    intro s hI
    obtain ⟨ha, hI', hnext⟩ := h s hI
    exact ⟨hN a ha, hI', ih _ hnext⟩

/-- The rule for a sequence. -/
theorem Guards.bind {Q' : Except ε β → Prop} {p : Prog A R ε α} {f : α → Prog A R ε β}
    (h : p.Guards act N I Q) (hok : ∀ x, Q (.ok x) → (f x).Guards act N I Q')
    (herr : ∀ e, Q (.error e) → Q' (.error e)) : (p >>= f).Guards act N I Q' := by
  induction p with
  | ret x => exact hok x h
  | fail e => exact herr e h
  | access a next ih =>
    intro s hI
    obtain ⟨ha, hI', hnext⟩ := h s hI
    exact ⟨ha, hI', ih _ hnext⟩

/-- What every access keeps may be assumed as well. -/
theorem Guards.and {J : σ → Prop} {p : Prog A R ε α} (h : p.Guards act N I Q)
    (hJ : ∀ a s, J s → J (act a s).2) : p.Guards act N (fun s => I s ∧ J s) Q := by
  induction p with
  | ret x => exact h
  | fail e => exact h
  | access a next ih =>
    rintro s ⟨hI, hs⟩
    obtain ⟨ha, hI', hnext⟩ := h s hI
    exact ⟨ha, ⟨hI', hJ a s hs⟩, ih _ hnext⟩

/-- The outcome of a run. -/
def outcome : EStateM.Result ε σ α → Except ε α
  | .ok x _ => .ok x
  | .error e _ => .error e

/-- A guarded program that is left alone ends as promised. -/
theorem Guards.run {p : Prog A R ε α} (h : p.Guards act N I Q) {s : σ} (hI : I s) :
    Q (outcome (p.run act s)) := by
  induction p generalizing s with
  | ret x => exact h
  | fail e => exact h
  | access a next ih =>
    obtain ⟨-, hI', hnext⟩ := h s hI
    exact ih _ hnext hI'

/-! ### What is left of a program -/

/-- The access the program is about to perform. -/
def head? : Prog A R ε α → Option A
  | ret _ | fail _ => none
  | access a _ => some a

/-- The property holds of the program and of what is left of it after any answers. -/
def Always (P : Prog A R ε α → Prop) : Prog A R ε α → Prop
  | ret x => P (ret x)
  | fail e => P (fail e)
  | access a next => P (access a next) ∧ ∀ r, (next r).Always P

theorem Always.self {P : Prog A R ε α → Prop} {p : Prog A R ε α} (h : p.Always P) : P p := by
  cases p with
  | ret x => exact h
  | fail e => exact h
  | access a next => exact h.1

theorem always_ite {P : Prog A R ε α → Prop} {c : Prop} [Decidable c] {p q : Prog A R ε α}
    (hp : p.Always P) (hq : q.Always P) : (if c then p else q).Always P := by
  split_ifs
  · exact hp
  · exact hq

/-- A sequence, whose first part has the property `P` as long as it lasts. -/
theorem Always.bind {P : Prog A R ε α → Prop} {P' : Prog A R ε β → Prop} {p : Prog A R ε α}
    {f : α → Prog A R ε β} (h : p.Always P) (hfail : ∀ e, P' (fail e))
    (hP : ∀ a next, P (access a next) → P' (access a next >>= f)) (hf : ∀ x, (f x).Always P') :
    (p >>= f).Always P' := by
  induction p with
  | ret x => exact hf x
  | fail e => exact hfail e
  | access a next ih => exact ⟨hP a next h.1, fun r => ih r (h.2 r)⟩

/-- Every access the program may come to has the property. -/
def Only (N : A → Prop) : Prog A R ε α → Prop
  | ret _ | fail _ => True
  | access a next => N a ∧ ∀ r, (next r).Only N

theorem Only.bind {p : Prog A R ε α} {f : α → Prog A R ε β} (h : p.Only N)
    (hf : ∀ x, (f x).Only N) : (p >>= f).Only N := by
  induction p with
  | ret x => exact hf x
  | fail e => trivial
  | access a next ih => exact ⟨h.1, fun r => ih r (h.2 r)⟩

theorem only_ite {c : Prop} [Decidable c] {p q : Prog A R ε α} (hp : p.Only N) (hq : q.Only N) :
    (if c then p else q).Only N := by
  split_ifs
  · exact hp
  · exact hq

theorem only_ofExcept (x : Except ε α) : (ofExcept x : Prog A R ε α).Only N := by
  cases x <;> trivial

/-- A program whose accesses keep `I` is guarded, and so is what is left of it. -/
theorem Only.guards {p : Prog A R ε α} (h : p.Only N) (hI : ∀ a s, N a → I s → I (act a s).2) :
    p.Always fun q => q.Guards act (fun _ => True) I fun _ => True := by
  induction p with
  | ret x => trivial
  | fail e => trivial
  | access a next ih =>
    exact ⟨fun s hs => ⟨trivial, hI a s h.1 hs, (ih _ (h.2 _)).self⟩, fun r => ih r (h.2 r)⟩

theorem Always.imp {P P' : Prog A R ε α → Prop} {p : Prog A R ε α} (h : p.Always P)
    (hP : ∀ q, P q → P' q) : p.Always P' := by
  induction p with
  | ret x => exact hP _ h
  | fail e => exact hP _ h
  | access a next ih => exact ⟨hP _ h.1, fun r => ih r (h.2 r)⟩

end Prog

/-! ### Calls that interleave -/

/-- Calls `κ`, each with what is left of its program, and the state they share. -/
structure Threads (ι κ σ A : Type) (R : A → Type) (ε α : Type) where
  shared : σ
  calls : ι → Option (κ × Prog A R ε α)

/-- A call begins, or performs its next access. -/
inductive ThreadStep (ι κ : Type) where
  | begin (i : ι) (c : κ)
  | step (i : ι)
  deriving DecidableEq

namespace Threads

variable {ι κ σ A : Type} {R : A → Type} {ε α : Type} [DecidableEq ι]

/-- The state with one call set. -/
def setCall (s : Threads ι κ σ A R ε α) (i : ι) (c : κ) (p : Prog A R ε α) :
    Threads ι κ σ A R ε α :=
  { s with calls := fun j => if j = i then some (c, p) else s.calls j }

/-- The next access of a call. -/
def access? (s : Threads ι κ σ A R ε α) (i : ι) : Option A :=
  (s.calls i).bind fun x => x.2.head?

/-- No calls yet. -/
def start (s : σ) : Threads ι κ σ A R ε α := ⟨s, fun _ => none⟩

variable (act : (a : A) → σ → R a × σ) (prog : κ → Prog A R ε α)

/-- One step. -/
def next (s : Threads ι κ σ A R ε α) : ThreadStep ι κ → Option (Threads ι κ σ A R ε α)
  | .begin i c =>
    match s.calls i with
    | none => some (s.setCall i c (prog c))
    | some _ => none
  | .step i =>
    match s.calls i with
    | some (c, .access a next) =>
      some { s.setCall i c (next (act a s.shared).1) with shared := (act a s.shared).2 }
    | _ => none

/-- The steps, one constructor for each. -/
inductive Moves (s : Threads ι κ σ A R ε α) : ThreadStep ι κ → Threads ι κ σ A R ε α → Prop
  | begin {i : ι} {c : κ} : s.calls i = none → Moves s (.begin i c) (s.setCall i c (prog c))
  | step {i : ι} {c : κ} {a : A} {next : R a → Prog A R ε α} :
      s.calls i = some (c, .access a next) → Moves s (.step i)
        { s.setCall i c (next (act a s.shared).1) with shared := (act a s.shared).2 }

variable {act prog} {s s' : Threads ι κ σ A R ε α} {l : ThreadStep ι κ}

theorem moves (h : s.next act prog l = some s') : Moves act prog s l s' := by
  cases l with
  | begin i c =>
    simp only [next] at h
    split at h
    · cases h
      exact .begin ‹_›
    · cases h
  | step i =>
    simp only [next] at h
    split at h
    · cases h
      exact .step ‹_›
    · cases h

@[simp] theorem calls_setCall (i : ι) (c : κ) (p : Prog A R ε α) (j : ι) :
    (s.setCall i c p).calls j = if j = i then some (c, p) else s.calls j := rfl

@[simp] theorem shared_setCall (i : ι) (c : κ) (p : Prog A R ε α) :
    (s.setCall i c p).shared = s.shared := rfl

/-- What an access of a call does, a step does. -/
theorem shared_step (h : s.next act prog l = some s') :
    (∃ i c, l = .begin i c ∧ s'.shared = s.shared) ∨
      ∃ i a, l = .step i ∧ s.access? i = some a ∧ s'.shared = (act a s.shared).2 := by
  cases moves h with
  | @begin i c hi => exact Or.inl ⟨i, c, rfl, rfl⟩
  | @step i c a next hi => exact Or.inr ⟨i, a, rfl, by rw [access?, hi]; rfl, rfl⟩

/-! ### Guarded calls -/

/-- The state has `I`, and every call is guarded by it. -/
structure Guarded (act : (a : A) → σ → R a × σ) (N : ι → κ → A → Prop) (I : σ → Prop)
    (Q : ι → κ → Except ε α → Prop) (s : Threads ι κ σ A R ε α) : Prop where
  shared : I s.shared
  calls : ∀ i c p, s.calls i = some (c, p) → p.Guards act (N i c) I (Q i c)

variable {N : ι → κ → A → Prop} {I : σ → Prop} {Q : ι → κ → Except ε α → Prop}

/-- One call set to a guarded program, all others as before. -/
theorem Guarded.setCall (h : s.Guarded act N I Q) {i : ι} {c : κ} {p : Prog A R ε α} {x : σ}
    (hx : I x) (hp : p.Guards act (N i c) I (Q i c)) :
    Guarded act N I Q { s.setCall i c p with shared := x } := by
  refine ⟨hx, fun j c' p' hj => ?_⟩
  rw [calls_setCall] at hj
  split_ifs at hj with hji
  · cases hj
    rw [hji]
    exact hp
  · exact h.calls j c' p' hj

/-- **Guarded calls keep their invariant, whatever the interleaving.** -/
theorem Guarded.step (h : s.Guarded act N I Q) (hs : s.next act prog l = some s')
    (hnew : ∀ i c, l = .begin i c → s.calls i = none → (prog c).Guards act (N i c) I (Q i c)) :
    s'.Guarded act N I Q := by
  cases moves hs with
  | begin hi => exact h.setCall h.shared (hnew _ _ rfl hi)
  | @step i c a next hi =>
    obtain ⟨-, hI, hnext⟩ := h.calls i c _ hi s.shared h.shared
    exact h.setCall hI hnext

/-- What always holds of the programs that begin holds of what is left of them. -/
theorem always_step {P : κ → Prog A R ε α → Prop}
    (h : ∀ i c p, s.calls i = some (c, p) → p.Always (P c)) (hs : s.next act prog l = some s')
    (hprog : ∀ i c, l = .begin i c → (prog c).Always (P c)) :
    ∀ i c p, s'.calls i = some (c, p) → p.Always (P c) := by
  intro j c p hj
  cases moves hs with
  | @begin i c' hi =>
    rw [calls_setCall] at hj
    split_ifs at hj
    · cases hj
      exact hprog i _ rfl
    · exact h j c p hj
  | @step i c' a next hi =>
    rw [calls_setCall] at hj
    split_ifs at hj
    · cases hj
      exact (h i _ _ hi).2 _
    · exact h j c p hj

end Threads

/-- Calls of the methods `prog`, from the states `init`. -/
def threadSystem {ι κ σ A : Type} {R : A → Type} {ε α : Type} [DecidableEq ι]
    (act : (a : A) → σ → R a × σ) (prog : κ → Prog A R ε α) (init : σ → Prop) :
    TS (Threads ι κ σ A R ε α) (ThreadStep ι κ) where
  init s := ∃ x, init x ∧ s = .start x
  step s l s' := s.next act prog l = some s'

end EventStore
