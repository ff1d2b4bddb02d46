import Mathlib.Order.WellFounded
import EventStore.Prog.Endless
import EventStore.Workflow.Retries
import EventStore.Workflow.Stages

/-!
# Compensations of compensations

A compensating command goes through `HandleCmd` as every other one: its events are handed to the
subscribers, and one of them may fail again and be compensated again.  Nothing bounds how often.

What the store answers is said by a *backend*: the results of commands, and the events and states
that are read.  Other clients may move it on at any time.  What the subscribers' `Handle` functions
return, and what the engine answers otherwise, is left open.

* `Workflow.Leads` : a command may be followed by a compensating command.
* `Workflow.terminates_iff` : **all executions of a command come to an end, if and only if there is
  no infinite chain of compensating commands and no counter of attempts wraps around.**
-/

namespace EventStore

variable {σ K S C E : Type}

/-! ### What the store answers -/

/-- A stream in a store. -/
structure Backend (σ C : Type) where
  /-- A command is appended. -/
  appends : σ → C → AppendResult → σ → Prop
  /-- The events of a command are read. -/
  envelopes : σ → AppendResult → List Envelope → Prop
  /-- The state is read. -/
  state : σ → Option Bytes → Prop

namespace Backend

variable (A : Backend σ C)

/-- Commands are appended, by whomever. -/
def Moves : σ → σ → Prop :=
  Relation.ReflTransGen fun w w' => ∃ cmd result, A.appends w cmd result w'

/-- A request is answered, if it is one for the store. -/
def Serves (w : σ) : BusEvent S C E → σ → Prop
  | ⟨.append _ _ cmd _, r⟩, w' =>
    match (r : Except Err AppendResult) with
    | .ok result => A.appends w cmd result w'
    | .error _ => w' = w
  | ⟨.readEnvelopes _ _ result, r⟩, w' =>
    (∀ envs, r = Except.ok envs → A.envelopes w result envs) ∧ w' = w
  | ⟨.readState _ _, r⟩, w' => (∀ raw, r = Except.ok raw → A.state w raw) ∧ w' = w
  | _, w' => w' = w

/-- Requests with their answers, each with the store after it. -/
def Traced : σ → List (BusEvent S C E × σ) → Prop
  | _, [] => True
  | w, x :: l => (∃ a, A.Moves w a ∧ A.Serves a x.1 x.2) ∧ Traced x.2 l

/-- An execution without end is answered by the store. -/
def Allows (w : σ) (t : ℕ → BusEvent S C E) : Prop :=
  ∃ ws : ℕ → σ, ∀ n, A.Traced w (Prog.firsts (fun i => (t i, ws i)) n)

variable {A} {w w' : σ}

theorem Serves.moves {e : BusEvent S C E} (h : A.Serves w e w') : A.Moves w w' := by
  obtain ⟨op, r⟩ := e
  cases op with
  | append level sid cmd key =>
    cases (r : Except Err AppendResult) with
    | ok result => exact .single ⟨cmd, result, h⟩
    | error e =>
      obtain rfl : w' = w := h
      exact .refl
  | readEnvelopes | readState =>
    obtain ⟨-, rfl⟩ := h
    exact .refl
  | runSync | wait | spawn | attempts | policy | insertDLQ | load =>
    obtain rfl : w' = w := h
    exact .refl

/-- Where the store is after some requests. -/
def last : σ → List (BusEvent S C E × σ) → σ
  | w, [] => w
  | _, x :: l => last x.2 l

theorem traced_append {l l' : List (BusEvent S C E × σ)} :
    A.Traced w (l ++ l') ↔ A.Traced w l ∧ A.Traced (last w l) l' := by
  induction l generalizing w with
  | nil => exact (and_iff_right trivial).symm
  | cons x l ih => exact (and_congr_right fun _ => ih).trans and_assoc.symm

theorem last_append {l l' : List (BusEvent S C E × σ)} :
    last w (l ++ l') = last (last w l) l' := by
  induction l generalizing w with
  | nil => rfl
  | cons x l ih => exact ih

/-- Requests that are not for the store leave it as it is. -/
theorem traced_const {l : List (BusEvent S C E)} (h : ∀ e ∈ l, A.Serves w e w) :
    A.Traced w (l.map fun e => (e, w)) ∧ last w (l.map fun e => (e, w)) = w := by
  induction l with
  | nil => exact ⟨trivial, rfl⟩
  | cons e l ih =>
    obtain ⟨htraced, hlast⟩ := ih fun e he => h e (List.mem_cons_of_mem _ he)
    exact ⟨⟨⟨w, .refl, h e List.mem_cons_self⟩, htraced⟩, hlast⟩

theorem Traced.moves {l : List (BusEvent S C E × σ)} (h : A.Traced w l) :
    A.Moves w (last w l) := by
  induction l generalizing w with
  | nil => exact .refl
  | cons x l ih =>
    obtain ⟨⟨a, hmoves, hserves⟩, hrest⟩ := h
    exact (hmoves.trans hserves.moves).trans (ih hrest)

/-- What comes after some requests. -/
theorem Allows.shift {t : ℕ → BusEvent S C E} (h : A.Allows w t) (k : ℕ) :
    ∃ w', A.Moves w w' ∧ A.Allows w' fun i => t (k + i) := by
  obtain ⟨ws, h⟩ := h
  refine ⟨last w (Prog.firsts (fun i => (t i, ws i)) k), (h k).moves, fun i => ws (k + i),
    fun n => ?_⟩
  have hn := h (k + n)
  rw [Prog.firsts_add] at hn
  exact (traced_append.1 hn).2

/-- The first request. -/
theorem Allows.head {t : ℕ → BusEvent S C E} (h : A.Allows w t) :
    ∃ a w', A.Moves w a ∧ A.Serves a (t 0) w' ∧ A.Allows w' fun i => t (i + 1) := by
  obtain ⟨ws, h⟩ := h
  have hsucc : ∀ n, (∃ a, A.Moves w a ∧ A.Serves a (t 0) (ws 0)) ∧
      A.Traced (ws 0) (Prog.firsts (fun i => (t (i + 1), ws (i + 1))) n) := by
    intro n
    have hn := h (n + 1)
    rwa [Prog.firsts_succ] at hn
  obtain ⟨⟨a, hmoves, hserves⟩, -⟩ := hsucc 0
  exact ⟨a, ws 0, hmoves, hserves, fun i => ws (i + 1), fun n => (hsucc n).2⟩

end Backend

namespace Workflow

/-! ### Chains of compensating commands -/

/-- A command may be followed by a compensating command: a `Sync` subscriber is handed some of its
events, and compensates with the other one. -/
structure Leads (W : Workflow K S C E) (A : Backend σ C) (x y : σ × C) : Prop where
  exists_batch : ∃ (a b : σ) (result : AppendResult) (envs : List Envelope) (raw : Option Bytes)
    (state : S) (events : List E),
    (∃ w, A.Moves x.1 w ∧ A.appends w x.2 result a) ∧
    ¬ (result.startVersion = 0 ∧ result.endVersion = 0) ∧
    (A.Moves a b ∧ A.envelopes b result envs) ∧
    (∃ w, A.Moves b w ∧ A.state w raw ∧ A.Moves w y.1) ∧
    W.ReadsBack (.ok raw) envs state events ∧
    ∃ s ∈ W.subscribers, s.mode = .sync ∧ s.onExhausted = .compensate ∧
      (s.select W.glob envs events).1 ≠ [] ∧ ∃ compensate, s.compensate = some compensate ∧
        compensate (s.select W.glob envs events).1 state (s.select W.glob envs events).2 = .ok y.2

/-- The subscriber is handed something in an execution of the command. -/
def Called (W : Workflow K S C E) (A : Backend σ C) (level : Level) (sid : StreamID) (w : σ)
    (cmd : C) (key : String) (s : Consumer S C E) : Prop :=
  s ∈ W.subscribers ∧ ∃ depth l, A.Traced w l ∧
    (W.handleCmd depth level sid cmd key).History (l.map Prod.fst) ∧
    ((∃ d, d.sub = s ∧ .runSync d ∈ Prog.accesses (l.map Prod.fst)) ∨
      ∃ p, p.sub = s ∧ .spawn p ∈ Prog.accesses (l.map Prod.fst))

/-- All executions of a command come to an end, and so do the attempts of the subscribers that are
handed something. -/
structure Terminates (W : Workflow K S C E) (A : Backend σ C) (level : Level) (sid : StreamID)
    (w : σ) (cmd : C) (key : String) : Prop where
  calls : ∀ t, A.Allows w t →
    ¬ Prog.Endless (fun depth => W.handleCmd depth level sid cmd key) t
  tries : ∀ s, W.Called A level sid w cmd key s → ∀ outcome,
    ∃ k err, Retried outcome s.maxRetries k err

variable {W : Workflow K S C E} {A : Backend σ C} {level : Level} {sid : StreamID} {cmd : C}
  {key : String} {t : ℕ → BusEvent S C E}

/-! ### Deeper bounds -/

section Deepens

variable {nested nested' : Level → StreamID → C → BusProg S C E S}
  (h : ∀ level sid cmd, Prog.Deepens tooDeep (nested level sid cmd) (nested' level sid cmd))

include h in
theorem onExhausted_deepens (d : Handoff S C E) (lastErr : String) :
    Prog.Deepens tooDeep (W.onExhausted nested level sid d lastErr)
      (W.onExhausted nested' level sid d lastErr) := by
  refine .access fun _ => ?_
  cases d.sub.onExhausted with
  | drop => exact .refl _
  | dlq => exact .refl _
  | compensate =>
    dsimp only
    cases d.sub.compensate with
    | none => exact .refl _
    | some compensate =>
      exact (Prog.Deepens.refl _).bind fun cmd => (h _ sid cmd).bind fun _ => .refl _

include h in
theorem applyAll_deepens (xs : List (Handoff S C E × String)) :
    Prog.Deepens tooDeep (W.applyAll nested level sid xs) (W.applyAll nested' level sid xs) := by
  induction xs with
  | nil => exact .refl _
  | cons x xs ih => exact (onExhausted_deepens h x.1 x.2).bind fun _ => ih

end Deepens

theorem handleCmd_deepens (W : Workflow K S C E) (depth : ℕ) (level : Level) (sid : StreamID)
    (cmd : C) (key : String) : Prog.Deepens tooDeep (W.handleCmd depth level sid cmd key)
      (W.handleCmd (depth + 1) level sid cmd key) := by
  induction depth generalizing level sid cmd key with
  | zero => exact .stop _
  | succ depth ih =>
    refine (Prog.Deepens.refl _).bind fun result => ?_
    split_ifs
    · exact .refl _
    · refine (Prog.Deepens.refl _).bind fun x => ?_
      exact (applyAll_deepens (fun level sid cmd => ih level sid cmd "") x.2).bind fun _ => .refl _

/-! ### Executions without end -/

/-- A policy without end is a compensation. -/
theorem endless_onExhausted {d : Handoff S C E} {e : String}
    (h : Prog.Endless (fun depth => W.onExhausted (W.recurse depth) level sid d e) t) :
    d.sub.onExhausted = .compensate ∧ ∃ compensate cmd, d.sub.compensate = some compensate ∧
      compensate d.envs d.state d.events = .ok cmd ∧
      Prog.Endless (fun depth => W.recurse depth (level ++ [(d.sub.name, d.firstID)]) sid cmd)
        fun i => t (i + 1) := by
  obtain ⟨-, -, hnext⟩ := Prog.Endless.of_access h
  cases hp : d.sub.onExhausted with
  | drop => 
    simp only [hp] at hnext
    exact absurd hnext (Prog.Endless.not_const _)
  | dlq =>
    simp only [hp] at hnext
    exact absurd hnext (Prog.Endless.not_const _)
  | compensate =>
    simp only [hp] at hnext
    refine ⟨rfl, ?_⟩
    cases hc : d.sub.compensate with
    | none =>
      simp only [hc] at hnext
      exact absurd hnext (Prog.Endless.not_const _)
    | some compensate =>
      simp only [hc] at hnext
      cases hcmd : compensate d.envs d.state d.events with
      | error err =>
        simp only [hcmd] at hnext
        exact absurd hnext (Prog.Endless.not_const _)
      | ok cmd =>
        simp only [hcmd] at hnext
        refine ⟨compensate, cmd, rfl, hcmd, ?_⟩
        rcases Prog.Endless.of_bind (fun depth => W.handleCmd_deepens depth _ sid cmd "") hnext with
          hnested | ⟨k, st, -, hret⟩
        · exact hnested
        · exact absurd hret (Prog.Endless.not_const _)

theorem endless_applyAll {xs : List (Handoff S C E × String)}
    (h : Prog.Endless (fun depth => W.applyAll (W.recurse depth) level sid xs) t) :
    ∃ x ∈ xs, ∃ k, Prog.Endless (fun depth => W.onExhausted (W.recurse depth) level sid x.1 x.2)
      fun i => t (k + i) := by
  induction xs generalizing t with
  | nil => exact absurd h (Prog.Endless.not_const _)
  | cons x xs ih =>
    have hdeepens : ∀ depth, Prog.Deepens tooDeep
        (W.onExhausted (W.recurse depth) level sid x.1 x.2)
        (W.onExhausted (W.recurse (depth + 1)) level sid x.1 x.2) := fun depth =>
      onExhausted_deepens (fun level sid cmd => W.handleCmd_deepens depth level sid cmd "") x.1 x.2
    rcases Prog.Endless.of_bind hdeepens h with hfirst | ⟨k, -, -, hrest⟩
    · exact ⟨x, List.mem_cons_self, 0, by simpa using hfirst⟩
    · obtain ⟨y, hy, k', hy'⟩ := ih hrest
      refine ⟨y, List.mem_cons_of_mem _ hy, k + k', ?_⟩
      simpa [Nat.add_assoc] using hy'

/-- What is tried in vain is one of the handoffs to `Sync` subscribers. -/
theorem deliver_exhausted {result : AppendResult} {l : List (BusEvent S C E)} {x : S}
    {xs : List (Handoff S C E × String)}
    (h : (W.deliver level sid result).Ends l (.ok (x, xs))) :
    ∃ envs raw events l', l =
        ⟨.readEnvelopes level sid result, (.ok envs : Except Err (List Envelope))⟩ ::
        ⟨.readState level sid, (.ok raw : Except Err (Option Bytes))⟩ :: l' ∧
      W.ReadsBack (.ok raw) envs x events ∧
      ∀ y ∈ xs, y.1 ∈ W.handoffs level envs x events ∧ y.1.sub.mode = .sync := by
  obtain ⟨read, l, rfl, hread, hfail⟩ := deliver_ends h
  cases (read : Except Err (List Envelope)) with
  | error e => cases (hfail e rfl).2
  | ok envs =>
    obtain ⟨raw, l, rfl, hdelivers⟩ := hread envs rfl
    cases hdelivers with
    | @delivered state events t₁ t₂ ds _ hreads hdis hwait =>
      cases (raw : Except Err (Option Bytes)) with
      | error e => cases hreads.state
      | ok raw =>
        refine ⟨envs, raw, events, _, rfl, hreads, fun y hy => ?_⟩
        rcases dispatch_ends hdis with ⟨-, hds⟩ | ⟨-, p, e, -, he⟩
        · rcases waitAll_ends hwait with ⟨⟨hwaits, -⟩, hxs⟩ | ⟨-, -, e, he⟩
          · cases hds
            cases hxs
            obtain ⟨⟨op, a⟩, hev, hex⟩ := List.mem_filterMap.1 hy
            have hop : .wait y.1 ∈ Prog.accesses t₂ :=
              List.mem_map.2 ⟨_, (BusOp.exhaustion_eq_some hex).1 ▸ hev, rfl⟩
            rw [hwaits] at hop
            obtain ⟨d, hd, he⟩ := List.mem_map.1 hop
            cases he
            obtain ⟨hd, hsync⟩ := List.mem_filter.1 hd
            exact ⟨hd, of_decide_eq_true hsync⟩
          · cases he
        · cases he

/-- An execution without end of a command has one of a compensating command in it. -/
theorem endless_handleCmd
    (h : Prog.Endless (fun depth => W.handleCmd depth level sid cmd key) t) :
    ∃ (result : AppendResult) (envs : List Envelope) (raw : Option Bytes) (state : S)
      (events : List E) (d : Handoff S C E) (compensate : _) (cmd' : C) (k : ℕ),
      t 0 = ⟨.append level sid cmd key, (.ok result : Except Err AppendResult)⟩ ∧
      ¬ (result.startVersion = 0 ∧ result.endVersion = 0) ∧
      t 1 = ⟨.readEnvelopes level sid result, (.ok envs : Except Err (List Envelope))⟩ ∧
      t 2 = ⟨.readState level sid, (.ok raw : Except Err (Option Bytes))⟩ ∧
      W.ReadsBack (.ok raw) envs state events ∧ d ∈ W.handoffs level envs state events ∧
      d.sub.mode = .sync ∧ d.sub.onExhausted = .compensate ∧ d.sub.compensate = some compensate ∧
      compensate d.envs d.state d.events = .ok cmd' ∧
      Prog.Endless (fun depth => W.handleCmd depth (level ++ [(d.sub.name, d.firstID)]) sid cmd' "")
        fun i => t (k + i + 3) := by
  obtain ⟨r, h₀, hnext⟩ := Prog.Endless.of_access (h.succ rfl)
  cases (r : Except Err AppendResult) with
  | error e => exact absurd hnext (Prog.Endless.not_const _)
  | ok result =>
    change Prog.Endless (fun depth => if result.startVersion = 0 ∧ result.endVersion = 0 then
      loadState sid id else W.deliver level sid result >>= W.settle (W.recurse depth) level sid) _
      at hnext
    by_cases hzero : result.startVersion = 0 ∧ result.endVersion = 0
    · simp only [if_pos hzero] at hnext
      exact absurd hnext (Prog.Endless.not_const _)
    simp only [if_neg hzero] at hnext
    obtain ⟨k, ⟨state, xs⟩, hdel, hsettle⟩ := Prog.Endless.of_const_bind tooDeep hnext
    obtain ⟨envs, raw, events, l, hl, hreads, hxs⟩ := deliver_exhausted hdel
    obtain ⟨h₁, hl'⟩ := Prog.of_firsts_eq_cons hl
    obtain ⟨h₂, -⟩ := Prog.of_firsts_eq_cons hl'.symm
    have hk : k = l.length + 2 := by simpa using congrArg List.length hl
    have hdeepens : ∀ depth, Prog.Deepens tooDeep (W.applyAll (W.recurse depth) level sid xs)
        (W.applyAll (W.recurse (depth + 1)) level sid xs) := fun depth =>
      applyAll_deepens (fun level sid cmd => W.handleCmd_deepens depth level sid cmd "") xs
    rcases Prog.Endless.of_bind hdeepens hsettle with happly | ⟨k', -, -, hload⟩
    · obtain ⟨x, hx, j, hx'⟩ := endless_applyAll happly
      obtain ⟨hpolicy, compensate, cmd', hc, hcmd, hnested⟩ := endless_onExhausted hx'
      obtain ⟨hd, hsync⟩ := hxs x hx
      refine ⟨result, envs, raw, state, events, x.1, compensate, cmd', l.length + j + 1, h₀, hzero,
        h₁, h₂, hreads, hd, hsync, hpolicy, hc, hcmd, ?_⟩
      convert hnested using 3
      omega
    · exact absurd hload (Prog.Endless.not_const _)

/-- **A chain of compensating commands that comes to an end makes the execution come to an end.** -/
theorem not_endless_of_acc {x : σ × C} (hx : Acc (fun y x => W.Leads A x y) x) (level : Level)
    (key : String) (hallows : A.Allows x.1 t) :
    ¬ Prog.Endless (fun depth => W.handleCmd depth level sid x.2 key) t := by
  induction hx generalizing level key t with
  | intro x _ ih =>
    intro hend
    obtain ⟨result, envs, raw, state, events, d, compensate, cmd', k, h₀, hzero, h₁, h₂, hreads, hd,
      hsync, hpolicy, hc, hcmd, hnested⟩ := endless_handleCmd hend
    obtain ⟨a₀, w₀, hmoves₀, hserves₀, hallows₁⟩ := hallows.head
    obtain ⟨a₁, w₁, hmoves₁, hserves₁, hallows₂⟩ := hallows₁.head
    obtain ⟨a₂, w₂, hmoves₂, hserves₂, hallows₃⟩ := hallows₂.head
    obtain ⟨w₃, hmoves₃, hallows₄⟩ := hallows₃.shift k
    obtain ⟨s, hs, hne, rfl⟩ := mem_handoffs.1 hd
    rw [h₀] at hserves₀
    rw [show t (0 + 1) = t 1 from rfl, h₁] at hserves₁
    rw [show t (0 + 1 + 1) = t 2 from rfl, h₂] at hserves₂
    obtain ⟨henvs, rfl⟩ := hserves₁
    obtain ⟨hstate, rfl⟩ := hserves₂
    exact ih (w₃, cmd') ⟨w₀, w₁, result, envs, raw, state, events, ⟨a₀, hmoves₀, hserves₀⟩, hzero,
      ⟨hmoves₁, henvs envs rfl⟩, ⟨w₂, hmoves₂, hstate raw rfl, hmoves₃⟩, hreads, s, hs, hsync,
      hpolicy, hne, compensate, hc, hcmd⟩ _ "" hallows₄ hnested

/-! ### Chains without end -/

/-- A subscriber is handed something, and its child workflow starts. -/
def handed (d : Handoff S C E) : BusEvent S C E :=
  if d.sub.mode = .async then ⟨.spawn d.toParcel, (.ok () : Except Err Unit)⟩ else ⟨.runSync d, ()⟩

theorem dispatch_handed (W : Workflow K S C E) (level : Level) (envs : List Envelope) (state : S)
    (events : List E) (subs : List (Consumer S C E)) :
    (W.dispatch level envs state events subs).Ends
      ((subs.filterMap (W.handoff level envs state events)).map handed)
      (.ok ((subs.filterMap (W.handoff level envs state events)).filter
        fun d => d.sub.mode = .sync)) := by
  induction subs with
  | nil => exact .ret _
  | cons s subs ih =>
    rw [dispatch]
    dsimp only
    split_ifs with hnil hmode
    · have hnone : W.handoff level envs state events s = none := dif_pos hnil
      rw [List.filterMap_cons_none hnone]
      exact ih
    · have hsome : W.handoff level envs state events s = some ⟨⟨level, s, _, hnil⟩, state, _⟩ :=
        dif_neg hnil
      rw [List.filterMap_cons_some hsome, List.map_cons, handed, if_pos hmode,
        List.filter_cons_of_neg (by simp [hmode])]
      exact .access _ ih
    · have hsome : W.handoff level envs state events s = some ⟨⟨level, s, _, hnil⟩, state, _⟩ :=
        dif_neg hnil
      have hsync : s.mode = .sync := by
        cases hm : s.mode with
        | sync => rfl
        | async => exact absurd hm hmode
      rw [List.filterMap_cons_some hsome, List.map_cons, handed, if_neg hmode,
        List.filter_cons_of_pos (by simp [hsync])]
      exact .access _ (ih.map _)

theorem waitAll_tells (say : Handoff S C E → String) (ds : List (Handoff S C E)) :
    (waitAll ds).Ends (ds.map fun d => ⟨.wait d, (.ok (say d) : Except Err String)⟩)
      (.ok (ds.filterMap fun d => if say d = "" then none else some (d, say d))) := by
  induction ds with
  | nil => exact .ret _
  | cons d ds ih =>
    have hxs : (d :: ds).filterMap (fun d => if say d = "" then none else some (d, say d)) =
        if say d = "" then ds.filterMap fun d => if say d = "" then none else some (d, say d)
        else (d, say d) :: ds.filterMap fun d => if say d = "" then none else some (d, say d) := by
      rw [List.filterMap_cons]
      split_ifs <;> rfl
    rw [hxs]
    exact .access _ (ih.map fun rest => if say d = "" then rest else (d, say d) :: rest)

/-- A subscriber that uses up its retries, alone. -/
theorem deliver_fails (A : Backend σ C) (level : Level) (sid : StreamID) (result : AppendResult)
    {envs : List Envelope} {raw : Option Bytes} {state : S} {events : List E}
    (hreads : W.ReadsBack (.ok raw) envs state events) {s : Consumer S C E}
    (hs : s ∈ W.subscribers) (hsync : s.mode = .sync)
    (hne : (s.select W.glob envs events).1 ≠ []) : ∃ l rest,
      (∀ e ∈ l, ∀ w : σ, A.Serves w e w) ∧ (W.deliver level sid result).Ends
        (⟨.readEnvelopes level sid result, (.ok envs : Except Err (List Envelope))⟩ ::
          ⟨.readState level sid, (.ok raw : Except Err (Option Bytes))⟩ :: l)
        (.ok (state, (⟨⟨level, s, _, hne⟩, state, (s.select W.glob envs events).2⟩, "failed") ::
          rest)) := by
  let d : Handoff S C E :=
    ⟨⟨level, s, (s.select W.glob envs events).1, hne⟩, state, (s.select W.glob envs events).2⟩
  let say (d' : Handoff S C E) : String := if d'.sub.name = s.name then "failed" else ""
  let ds := (W.handoffs level envs state events).filter fun d => d.sub.mode = .sync
  let xs := ds.filterMap fun d => if say d = "" then none else some (d, say d)
  have hd : d ∈ ds :=
    List.mem_filter.2 ⟨mem_handoffs.2 ⟨s, hs, hne, rfl⟩, decide_eq_true hsync⟩
  have hmem : (d, "failed") ∈ xs := List.mem_filterMap.2 ⟨d, hd, by simp [say, d]⟩
  have honly : ∀ x ∈ xs, x = (d, "failed") := by
    intro x hx
    obtain ⟨d', hd', he⟩ := List.mem_filterMap.1 hx
    obtain ⟨s', hs', hne', rfl⟩ := mem_handoffs.1 (List.mem_filter.1 hd').1
    by_cases hname : s'.name = s.name
    · obtain rfl := List.inj_on_of_nodup_map W.distinct hs' hs hname
      simp only [say, if_pos] at he
      simpa using he.symm
    · simp [say, hname] at he
  obtain ⟨rest, hxs⟩ : ∃ rest, xs = (d, "failed") :: rest := by
    cases hxs : xs with
    | nil =>
      rw [hxs] at hmem
      cases hmem
    | cons x rest => exact ⟨rest, by rw [honly x (by rw [hxs]; exact List.mem_cons_self)]⟩
  refine ⟨(W.handoffs level envs state events).map handed ++
    ds.map fun d => ⟨.wait d, (.ok (say d) : Except Err String)⟩, rest, fun e he w => ?_, ?_⟩
  · rcases List.mem_append.1 he with he | he
    · obtain ⟨d', -, rfl⟩ := List.mem_map.1 he
      unfold handed
      split_ifs <;> rfl
    · obtain ⟨d', -, rfl⟩ := List.mem_map.1 he
      rfl
  · refine .access _ (.access _ ?_)
    change (Prog.ofExcept (Except.bind (.ok raw) W.runtime.decodeState) >>= _).Ends _ _
    rw [hreads.state]
    change (Prog.ofExcept ((decodeEvents W.codec 0 envs).mapError _) >>= _).Ends _ _
    rw [hreads.events, ← hxs]
    exact (W.dispatch_handed level envs state events W.subscribers).bind
      ((waitAll_tells say ds).map fun toApply => (state, toApply))

/-- A step of a chain is a part of an execution. -/
theorem Leads.segment {x y : σ × C} (h : W.Leads A x y) (sid : StreamID) (level : Level)
    (key : String) : ∃ (level' : Level) (seg : List (BusEvent S C E × σ)), seg ≠ [] ∧
      A.Traced x.1 seg ∧ Backend.last x.1 seg = y.1 ∧
      ∀ depth u, (W.handleCmd depth level' sid y.2 "").History u →
        (W.handleCmd (depth + 1) level sid x.2 key).History (seg.map Prod.fst ++ u) := by
  obtain ⟨a, b, result, envs, raw, state, events, ⟨w, hmoves₀, happends⟩, hzero, ⟨hmoves₁, henvs⟩,
    ⟨w', hmoves₂, hstate, hmoves₃⟩, hreads, s, hs, hsync, hpolicy, hne, compensate, hc, hcmd⟩ := h
  let d : Handoff S C E :=
    ⟨⟨level, s, (s.select W.glob envs events).1, hne⟩, state, (s.select W.glob envs events).2⟩
  obtain ⟨l, rest, hserves, hdel⟩ := deliver_fails A level sid result hreads hs hsync hne
  have hl : A.Traced w' (l.map fun e => (e, w')) ∧ Backend.last w' (l.map fun e => (e, w')) = w' :=
    Backend.traced_const fun e he => hserves e he w'
  refine ⟨level ++ [(d.sub.name, d.firstID)],
    (⟨.append level sid x.2 key, (.ok result : Except Err AppendResult)⟩, a) ::
    (⟨.readEnvelopes level sid result, (.ok envs : Except Err (List Envelope))⟩, b) ::
    (⟨.readState level sid, (.ok raw : Except Err (Option Bytes))⟩, w') ::
    (l.map (fun e => (e, w')) ++ [(⟨.policy d "failed", ()⟩, y.1)]), List.cons_ne_nil _ _,
    ⟨⟨w, hmoves₀, happends⟩, ⟨b, hmoves₁, ?_, rfl⟩, ⟨w', hmoves₂, ?_, rfl⟩, ?_⟩, ?_, ?_⟩
  · rintro _ ⟨⟩
    exact henvs
  · rintro _ ⟨⟩
    exact hstate
  · refine Backend.traced_append.2 ⟨hl.1, ⟨y.1, ?_, rfl⟩, trivial⟩
    rw [hl.2]
    exact hmoves₃
  · show Backend.last w' (l.map (fun e => (e, w')) ++ _) = y.1
    rw [Backend.last_append]
    rfl
  · intro depth u hu
    have hpolicy' : (W.onExhausted (W.recurse depth) level sid d "failed").History
        (⟨.policy d "failed", ()⟩ :: u) := by
      refine .cons _ ?_
      rw [hpolicy, hc]
      dsimp only
      rw [hcmd]
      exact hu.bind _
    have hsettle : (W.settle (W.recurse depth) level sid (state, (d, "failed") :: rest)).History
        (⟨.policy d "failed", ()⟩ :: u) := (hpolicy'.bind _).bind _
    have hrest := hdel.bind_history hsettle
    have hfst : (l.map fun e => (e, w')).map Prod.fst = l := by
      rw [List.map_map]
      exact List.map_id l
    simp only [List.map_cons, List.map_append, List.map_nil, hfst, List.cons_append,
      List.append_assoc, List.nil_append] at hrest ⊢
    refine .cons _ ?_
    change (if result.startVersion = 0 ∧ result.endVersion = 0 then _ else
      W.deliver level sid result >>= _).History _
    rw [if_neg hzero]
    exact hrest

/-- A chain without end is an execution without end. -/
theorem exists_endless {x : ℕ → σ × C} (hx : ∀ n, W.Leads A (x n) (x (n + 1))) (sid : StreamID)
    (level : Level) (key : String) : ∃ t, A.Allows (x 0).1 t ∧
      Prog.Endless (fun depth => W.handleCmd depth level sid (x 0).2 key) t := by
  choose deeper seg hne htraced hlast hhistory using fun n => (hx n).segment sid
  -- the level and the key of each call
  let calls : ℕ → Level × String := fun n => n.rec (level, key) fun n c => (deeper n c.1 c.2, "")
  let parts : ℕ → List (BusEvent S C E × σ) := fun n => seg n (calls n).1 (calls n).2
  have hparts : ∀ n k, A.Traced (x k).1 (Prog.segments parts n k) := by
    intro n
    induction n with
    | zero => exact fun k => trivial
    | succ n ih =>
      intro k
      refine Backend.traced_append.2 ⟨htraced k _ _, ?_⟩
      rw [hlast]
      exact ih (k + 1)
  obtain ⟨t, hend, ht⟩ := Prog.Endless.of_segments
    (fun n depth => W.handleCmd depth (calls n).1 sid (x n).2 (calls n).2) parts
    (fun n => hne n _ _) fun n depth u hu => hhistory n _ _ depth u hu
  refine ⟨fun i => (t i).1, ⟨fun i => (t i).2, fun n => ?_⟩, hend⟩
  obtain ⟨u, hu⟩ := ht n
  have htraced := hparts n 0
  rw [← hu] at htraced
  exact (Backend.traced_append.1 htraced).1

end Workflow

/-! ### Notes that are struck out -/

namespace Journal

/-- A subscriber of all notes, which is tried once. -/
def mail (mode : DeliveryMode) : Consumer (List UInt8) (List UInt8) UInt8 where
  name := "mail"
  filter := ⟨[], "", [], none⟩
  mode := mode
  onExhausted := .drop
  maxRetries := 0
  compensate := none

/-- The event of the command. -/
def note : Envelope where
  eventID := ⟨"0190a3c4-8d2e-7f10-9b3a-5c6d7e8f9a0b"⟩
  tenantID := "acme"
  streamID := ⟨"acme", "journal", "1"⟩
  version := 1
  globalPosition := 1
  typeURL := "journal.v1.Noted"
  schemaVersion := 1
  occurredAt := 0
  recordedAt := 0
  correlationID := ⟨""⟩
  causationID := ⟨""⟩
  commandID := ⟨""⟩
  actor := .zero
  payload := [5]
  payloadJSON := none
  keyRefs := none
  hash := []
  prevHash := []

/-- The event for a note. -/
def noteAt (version : ℕ) (n : UInt8) : Envelope :=
  { note with eventID := ⟨"note " ++ toString version⟩, version := version, payload := [n] }

/-- The events for some notes, after others. -/
def notesAfter : ℕ → List UInt8 → List Envelope
  | _, [] => []
  | version, n :: notes => noteAt (version + 1) n :: notesAfter (version + 1) notes

/-- A journal in a store, which is the list of its notes. -/
def backend : Backend (List UInt8) (List UInt8) where
  appends w cmd result w' := cmd ≠ [] ∧ w' = w ++ cmd ∧
    result = ⟨w.length + 1, w.length + cmd.length, w.length + 1, w.length + cmd.length, 0⟩
  envelopes w result envs := ∃ before notes after, w = before ++ notes ++ after ∧
    result.startVersion = before.length + 1 ∧ result.endVersion = before.length + notes.length ∧
    envs = notesAfter before.length notes
  state w raw := raw = some (1 :: w)

/-- A `Sync` subscriber that strikes notes out by another note if it fails. -/
def strike (custom : Option (Envelope → Bool)) (n : UInt8) :
    Consumer (List UInt8) (List UInt8) UInt8 :=
  { mail .sync with
    filter := ⟨[], "", [], custom⟩
    onExhausted := .compensate
    compensate := some fun _ _ _ => .ok [n] }

/-- Its workflow. -/
def striking (custom : Option (Envelope → Bool)) (n : UInt8) :
    Workflow Unit (List UInt8) (List UInt8) UInt8 :=
  { Workflow.new (runtime Unit true 1) codec (fun _ _ => false) false false with
    subscribers := [strike custom n]
    accepted := fun _ hs => List.mem_singleton.1 hs ▸
      ⟨(by decide : "mail" ≠ ""), fun _ => rfl, fun _ => rfl⟩
    distinct := List.nodup_singleton _ }

/-- A note that the subscriber is handed is struck out. -/
theorem strike_leads {custom : Option (Envelope → Bool)} {n m : UInt8} {w : List UInt8}
    (hmatch : custom.all (· (noteAt (w.length + 1) m)) = true) :
    (striking custom n).Leads backend (w, [m]) (w ++ [m], [n]) := by
  have hselect : Subscriber.select (striking custom n).glob (strike custom n).toSubscriber
      [noteAt (w.length + 1) m] [m] = ([noteAt (w.length + 1) m], [m]) := by
    simp [Subscriber.select, EventFilter.matches, strike, hmatch]
  refine ⟨w ++ [m], w ++ [m], _, [noteAt (w.length + 1) m], some (1 :: (w ++ [m])), w ++ [m], [m],
    ⟨w, .refl, List.cons_ne_nil _ _, rfl, rfl⟩, ?_, ⟨.refl, w, [m], [], ?_, rfl, rfl, rfl⟩,
    ⟨w ++ [m], .refl, rfl, .refl⟩, ⟨rfl, rfl⟩, strike custom n, List.mem_singleton.2 rfl, rfl, rfl,
    ?_, _, rfl, rfl⟩
  · simp
  · simp
  · rw [hselect]
    exact List.cons_ne_nil _ _

theorem prefix_of_moves {w w' : List UInt8} (h : backend.Moves w w') : w <+: w' := by
  induction h with
  | refl => exact List.prefix_rfl
  | tail _ hstep ih =>
    obtain ⟨cmd, result, -, rfl, -⟩ := hstep
    exact ih.trans (List.prefix_append _ _)

/-- The events of a command are those for its notes. -/
theorem envelopes_of_appends {w a b : List UInt8} {m : UInt8} {result : AppendResult}
    {envs : List Envelope} (happends : backend.appends w [m] result a) (hmoves : backend.Moves a b)
    (henvs : backend.envelopes b result envs) : envs = [noteAt (w.length + 1) m] := by
  obtain ⟨-, rfl, rfl⟩ := happends
  obtain ⟨before, notes, after, rfl, hstart, hend, rfl⟩ := henvs
  have hlen : w.length = before.length := Nat.succ.inj hstart
  obtain ⟨more, hb⟩ := prefix_of_moves hmoves
  rw [List.append_assoc, List.append_assoc] at hb
  obtain ⟨rfl, hnotes⟩ := List.append_inj hb hlen
  have hone : notes.length = 1 := by simpa using hend.symm
  obtain ⟨m', rfl⟩ := List.length_eq_one_iff.1 hone
  obtain ⟨rfl, -⟩ := List.cons.inj hnotes
  rfl

/-- Notes other than the one they are struck out by. -/
def others : Option (Envelope → Bool) := some fun env => env.payload != [9]

end Journal

end EventStore
