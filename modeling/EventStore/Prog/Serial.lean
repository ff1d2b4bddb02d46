import EventStore.Prog.Basic

/-!
# Programs one after the other, with restarts

One process at a time runs programs on a state, each to its end before the next begins.  Part of the
state survives the process: at any moment, between two accesses of a program as well, the process
may be gone and another one started on what is left.

## Main definitions

* `Prog.Along act C I Q` : **the rule for one program** that is left alone.  As long as its accesses
  meet the condition `C`, `I` holds all the way (this is what a restart may find), and in the end
  the outcome and the state are related by `Q`.
* `Serial` : the state, what it was when the present call began, and what is left of the call;
  `serialSystem`, in which a step begins a call, performs an access, or restarts.
* `Serial.Meets B C D` : the condition that calls, accesses and restarts meet `B`, `C` and `D` in
  the state before the step.
* `Serial.Sound.of_reachable` : if every call keeps `J` from its beginning to its end, and a restart
  in between finds `J` again, then all runs that meet the condition are sound.
-/

namespace EventStore

namespace Prog

variable {A : Type} {R : A → Type} {ε σ α β : Type}

/-- The errors of the program, changed by `f`. -/
def mapError (f : ε → ε) : Prog A R ε α → Prog A R ε α
  | ret x => ret x
  | fail e => fail (f e)
  | access a next => access a fun r => (next r).mapError f

/-- From the state on, while the accesses meet `C`, `I` holds, and the end has `Q`. -/
def Along (act : (a : A) → σ → R a × σ) (C : A → σ → Prop) (I : σ → Prop)
    (Q : Except ε α → σ → Prop) : Prog A R ε α → σ → Prop
  | ret x, s => I s ∧ Q (.ok x) s
  | fail e, s => I s ∧ Q (.error e) s
  | access a next, s => I s ∧ (C a s → (next (act a s).1).Along act C I Q (act a s).2)

variable {act : (a : A) → σ → R a × σ} {C : A → σ → Prop} {I I' : σ → Prop}
  {Q Q' : Except ε α → σ → Prop} {p : Prog A R ε α} {s : σ}

/-- The rule for an access. -/
theorem along_access {a : A} {next : R a → Prog A R ε α} (hI : I s)
    (h : C a s → (next (act a s).1).Along act C I Q (act a s).2) :
    (access a next).Along act C I Q s :=
  ⟨hI, h⟩

theorem Along.self (h : p.Along act C I Q s) : I s := by
  cases p with
  | ret x => exact h.1
  | fail e => exact h.1
  | access a next => exact h.1

/-- The rule for a sequence. -/
theorem Along.bind {Q' : Except ε β → σ → Prop} {f : α → Prog A R ε β}
    (h : p.Along act C I Q s) (hok : ∀ x y, I y → Q (.ok x) y → (f x).Along act C I Q' y)
    (herr : ∀ e y, I y → Q (.error e) y → Q' (.error e) y) : (p >>= f).Along act C I Q' s := by
  induction p generalizing s with
  | ret x => exact hok x s h.1 h.2
  | fail e => exact ⟨h.1, herr e s h.1 h.2⟩
  | access a next ih => exact ⟨h.1, fun hC => ih _ (h.2 hC)⟩

theorem Along.mapError {f : ε → ε} (h : p.Along act C I Q s)
    (hok : ∀ x y, Q (.ok x) y → Q' (.ok x) y) (herr : ∀ e y, Q (.error e) y → Q' (.error (f e)) y) :
    (p.mapError f).Along act C I Q' s := by
  induction p generalizing s with
  | ret x => exact ⟨h.1, hok x s h.2⟩
  | fail e => exact ⟨h.1, herr e s h.2⟩
  | access a next ih => exact ⟨h.1, fun hC => ih _ (h.2 hC)⟩

theorem along_ite {c : Prop} [Decidable c] {q : Prog A R ε α} (hp : c → p.Along act C I Q s)
    (hq : ¬ c → q.Along act C I Q s) : (if c then p else q).Along act C I Q s := by
  split_ifs with hc
  · exact hp hc
  · exact hq hc

/-- Without a condition, the rule is about the run of the program. -/
theorem Along.run (h : p.Along act (fun _ _ => True) I Q s) :
    (∃ x y, p.run act s = .ok x y ∧ Q (.ok x) y) ∨
      ∃ e y, p.run act s = .error e y ∧ Q (.error e) y := by
  induction p generalizing s with
  | ret x => exact .inl ⟨x, s, rfl, h.2⟩
  | fail e => exact .inr ⟨e, s, rfl, h.2⟩
  | access a next ih => exact ih _ (h.2 trivial)

end Prog

/-- The state, the state in which the present call began, and what is left of that call. -/
structure Serial (κ σ A : Type) (R : A → Type) (ε α : Type) where
  shared : σ
  before : σ
  call : Option (κ × Prog A R ε α)

/-- A call begins, performs its next access, or the process is restarted. -/
inductive SerialStep (κ : Type) where
  | begin (c : κ)
  | step
  | restart
  deriving DecidableEq

namespace Serial

variable {κ σ A : Type} {R : A → Type} {ε α : Type}

/-- The next access of the present call. -/
def access? (s : Serial κ σ A R ε α) : Option A := s.call.bind fun x => x.2.head?

/-- The present call and its outcome, if it has ended. -/
def ended (s : Serial κ σ A R ε α) : Option (κ × Except ε α) :=
  s.call.bind fun x =>
    match x.2 with
    | .ret r => some (x.1, .ok r)
    | .fail e => some (x.1, .error e)
    | .access .. => none

theorem call_of_ended_ok {s : Serial κ σ A R ε α} {c : κ} {r : α}
    (h : s.ended = some (c, .ok r)) : s.call = some (c, .ret r) := by
  obtain ⟨⟨c', p⟩, hc, h⟩ := Option.bind_eq_some_iff.1 h
  cases p with
  | ret r' =>
    cases h
    exact hc
  | fail e => cases h
  | access a next => cases h

theorem call_of_ended_error {s : Serial κ σ A R ε α} {c : κ} {e : ε}
    (h : s.ended = some (c, .error e)) : s.call = some (c, .fail e) := by
  obtain ⟨⟨c', p⟩, hc, h⟩ := Option.bind_eq_some_iff.1 h
  cases p with
  | ret r => cases h
  | fail e' =>
    cases h
    exact hc
  | access a next => cases h

/-- No call yet. -/
def start (x : σ) : Serial κ σ A R ε α := ⟨x, x, none⟩

variable (act : (a : A) → σ → R a × σ) (prog : κ → Prog A R ε α) (restart : σ → Option σ)

/-- One step; a call begins when there is none or when the present one has ended. -/
def next (s : Serial κ σ A R ε α) : SerialStep κ → Option (Serial κ σ A R ε α)
  | .begin c => if s.access?.isNone then some ⟨s.shared, s.shared, some (c, prog c)⟩ else none
  | .step =>
    match s.call with
    | some (c, .access a next) =>
      some ⟨(act a s.shared).2, s.before, some (c, next (act a s.shared).1)⟩
    | _ => none
  | .restart => (restart s.shared).map start

/-- The steps, one constructor for each. -/
inductive Moves (s : Serial κ σ A R ε α) : SerialStep κ → Serial κ σ A R ε α → Prop
  | begin {c : κ} : s.access? = none →
      Moves s (.begin c) ⟨s.shared, s.shared, some (c, prog c)⟩
  | step {c : κ} {a : A} {next : R a → Prog A R ε α} : s.call = some (c, .access a next) →
      Moves s .step ⟨(act a s.shared).2, s.before, some (c, next (act a s.shared).1)⟩
  | restart {x : σ} : restart s.shared = some x → Moves s .restart (start x)

variable {act prog restart} {s s' : Serial κ σ A R ε α} {l : SerialStep κ}

theorem moves (h : s.next act prog restart l = some s') : Moves act prog restart s l s' := by
  cases l with
  | begin c =>
    simp only [next] at h
    split_ifs at h with hc
    cases h
    exact .begin (Option.isNone_iff_eq_none.1 hc)
  | step =>
    simp only [next] at h
    split at h
    · cases h
      exact .step ‹_›
    · cases h
  | restart =>
    obtain ⟨x, hx, rfl⟩ := Option.map_eq_some_iff.1 h
    exact .restart hx

/-- The call, the access or the restart meets its condition in the state before it. -/
def Meets (B : κ → σ → Prop) (C : A → σ → Prop) (D : σ → Prop) (s : Serial κ σ A R ε α) :
    SerialStep κ → Prop
  | .begin c => B c s.shared
  | .step => ∀ a, s.access? = some a → C a s.shared
  | .restart => D s.shared

instance {B : κ → σ → Prop} {C : A → σ → Prop} {D : σ → Prop} [∀ c x, Decidable (B c x)]
    [∀ a x, Decidable (C a x)] [DecidablePred D] (s : Serial κ σ A R ε α) (l : SerialStep κ) :
    Decidable (Meets B C D s l) :=
  match l with
  | .begin c => inferInstanceAs (Decidable (B c s.shared))
  | .step => inferInstanceAs (Decidable (∀ a ∈ s.access?, C a s.shared))
  | .restart => inferInstanceAs (Decidable (D s.shared))

/-- `J` held when the present call began, and the call is on its way from there. -/
structure Sound (act : (a : A) → σ → R a × σ) (C : A → σ → Prop) (J : σ → Prop)
    (I : κ → σ → σ → Prop) (Q : κ → σ → Except ε α → σ → Prop) (s : Serial κ σ A R ε α) :
    Prop where
  before : J s.before
  idle : s.call = none → s.shared = s.before
  call : ∀ c p, s.call = some (c, p) → p.Along act C (I c s.before) (Q c s.before) s.shared

variable {B : κ → σ → Prop} {C : A → σ → Prop} {D : σ → Prop} {J : σ → Prop} {I : κ → σ → σ → Prop}
  {Q : κ → σ → Except ε α → σ → Prop}

theorem sound_start {x : σ} (hx : J x) : (start x : Serial κ σ A R ε α).Sound act C J I Q := by
  refine ⟨hx, fun _ => rfl, ?_⟩
  intro c p h
  cases h

/-- What the calls do: from `J` on, each keeps its `I` and ends with its `Q`, and has `J` again. -/
structure Steady (act : (a : A) → σ → R a × σ) (prog : κ → Prog A R ε α) (restart : σ → Option σ)
    (B : κ → σ → Prop) (C : A → σ → Prop) (D : σ → Prop) (J : σ → Prop) (I : κ → σ → σ → Prop)
    (Q : κ → σ → Except ε α → σ → Prop) : Prop where
  call : ∀ c x, B c x → J x → (prog c).Along act C (I c x) (Q c x) x
  ends : ∀ c x r y, J x → Q c x r y → J y
  idle : ∀ x y, D x → J x → restart x = some y → J y
  crash : ∀ c x y z, D y → J x → I c x y → restart y = some z → J z

/-- Between two calls `J` holds. -/
theorem Sound.shared (h : s.Sound act C J I Q) (hends : ∀ c x r y, J x → Q c x r y → J y)
    (hidle : s.access? = none) : J s.shared := by
  cases hc : s.call with
  | none => exact h.idle hc ▸ h.before
  | some x =>
    obtain ⟨c, p⟩ := x
    have hp := h.call c p hc
    simp only [access?, hc, Option.bind_some] at hidle
    cases p with
    | ret x => exact hends c _ _ _ h.before hp.2
    | fail e => exact hends c _ _ _ h.before hp.2
    | access a next => cases hidle

/-- A step that meets the condition. -/
theorem Sound.step (hst : Steady act prog restart B C D J I Q) (h : s.Sound act C J I Q)
    (hm : s.Meets B C D l) (hs : s.next act prog restart l = some s') : s'.Sound act C J I Q := by
  cases moves hs with
  | @begin c hidle =>
    have hJ : J s.shared := h.shared hst.ends hidle
    refine ⟨hJ, fun hnone => ?_, fun c' p hp => ?_⟩
    · cases hnone
    · cases hp
      exact hst.call c _ hm hJ
  | @step c a next hc =>
    refine ⟨h.before, fun hnone => ?_, fun c' p hp => ?_⟩
    · cases hnone
    · cases hp
      exact (h.call c _ hc).2 (hm a (by simp [access?, hc, Prog.head?]))
  | @restart x hx =>
    refine sound_start ?_
    cases hc : s.call with
    | none => exact hst.idle _ _ hm (h.idle hc ▸ h.before) hx
    | some x' => exact hst.crash x'.1 _ _ _ hm h.before (h.call x'.1 x'.2 hc).self hx

end Serial

/-- Calls of the methods `prog` one after the other, with restarts, from the states `init`. -/
def serialSystem {κ σ A : Type} {R : A → Type} {ε α : Type} (act : (a : A) → σ → R a × σ)
    (prog : κ → Prog A R ε α) (restart : σ → Option σ) (init : σ → Prop) :
    TS (Serial κ σ A R ε α) (SerialStep κ) where
  init s := ∃ x, init x ∧ s = .start x
  step s l s' := s.next act prog restart l = some s'

namespace Serial

variable {κ σ A : Type} {R : A → Type} {ε α : Type} {act : (a : A) → σ → R a × σ}
  {prog : κ → Prog A R ε α} {restart : σ → Option σ} {init : σ → Prop} {B : κ → σ → Prop}
  {C : A → σ → Prop} {D : σ → Prop} {J : σ → Prop} {I : κ → σ → σ → Prop}
  {Q : κ → σ → Except ε α → σ → Prop} {s s' : Serial κ σ A R ε α}

/-- **Every run whose steps meet the condition is sound.** -/
theorem Sound.of_reachable (hst : Steady act prog restart B C D J I Q)
    (hinit : ∀ x, init x → J x)
    (hr : ((serialSystem act prog restart init).restrict (Meets B C D)).Reachable s) :
    s.Sound act C J I Q := by
  refine hr.invariant ?_ ?_
  · rintro _ ⟨x, hx, rfl⟩
    exact sound_start (hinit x hx)
  · intro s l s' _ h hs
    exact h.step hst hs.1 hs.2

/-- And so is what follows a state between two calls, whatever came before it. -/
theorem Sound.of_run (hst : Steady act prog restart B C D J I Q) (hidle : s.access? = none)
    (hJ : J s.shared) {ls : List (SerialStep κ)}
    (hrun : ((serialSystem act prog restart init).restrict (Meets B C D)).Run s ls s') :
    s' = s ∨ s'.Sound act C J I Q := by
  refine hrun.invariant (I := fun y => y = s ∨ y.Sound act C J I Q) (.inl rfl) ?_
  rintro y l y' (rfl | h) ⟨hm, hs⟩
  · refine .inr ?_
    have hstart : (⟨y.shared, y.shared, none⟩ : Serial κ σ A R ε α).Sound act C J I Q :=
      sound_start hJ
    cases moves hs with
    | begin _ => exact hstart.step hst (l := .begin _) hm rfl
    | step hc => simp [access?, hc, Prog.head?] at hidle
    | restart hx => exact hstart.step hst (l := .restart) hm (by simp [next, hx])
  · exact .inr (h.step hst hm hs)

end Serial

end EventStore
