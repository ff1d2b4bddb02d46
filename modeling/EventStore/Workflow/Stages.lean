import EventStore.Prog.History
import EventStore.Workflow.HandleCmd

/-!
# The stages of a command

A call of `HandleCmd` that has come to an end has gone through its stages in order: the append, the
two reads, the loop over the subscribers, the loop over the futures and the loop over the exhausted
ones.  Each loop may end early.  What a stage has asked for, and what it hands on, is said here once
for each of them.

* `dispatch_ends`, `waitAll_ends` : the first two loops.
* `deliver_ends` : the stages up to the exhausted ones, one after the other.
-/

namespace EventStore

variable {K S C E : Type}

/-- A request with its answer. -/
abbrev BusEvent (S C E : Type) := (op : BusOp S C E) × op.Answer

/-- A future that says that the subscriber is exhausted, with the last error. -/
def BusOp.exhaustion : (op : BusOp S C E) → op.Answer → Option (Handoff S C E × String)
  | .wait d, r =>
    match (r : Except Err String) with
    | .ok raw => if raw = "" then none else some (d, raw)
    | .error _ => none
  | _, _ => none

theorem BusOp.exhaustion_eq_some {op : BusOp S C E} {a : op.Answer} {d : Handoff S C E}
    {e : String} (h : op.exhaustion a = some (d, e)) :
    (⟨op, a⟩ : BusEvent S C E) = ⟨.wait d, (.ok e : Except Err String)⟩ ∧ e ≠ "" := by
  cases op with
  | wait d' =>
    cases (a : Except Err String) with
    | error err => cases h
    | ok raw =>
      simp only [BusOp.exhaustion] at h
      split_ifs at h with hraw
      cases h
      exact ⟨rfl, hraw⟩
  | append | readEnvelopes | readState | runSync | spawn | attempts | policy | insertDLQ | load =>
    cases h

/-- How a subscriber is handed something: as a child workflow, or as a step. -/
def Handoff.request (d : Handoff S C E) : BusOp S C E :=
  if d.sub.mode = .async then .spawn d.toParcel else .runSync d

namespace Workflow

variable {W : Workflow K S C E} {depth : ℕ} {level : Level} {sid : StreamID}
  {envs : List Envelope} {state : S} {events : List E} {t : List (BusEvent S C E)}

/-- `HandleCmd` of a compensating command. -/
abbrev recurse (W : Workflow K S C E) (depth : ℕ) (level : Level) (sid : StreamID) (cmd : C) :
    BusProg S C E S :=
  W.handleCmd depth level sid cmd ""

/-- What a subscriber is to be handed: the events it matches, if there are any. -/
def handoff (W : Workflow K S C E) (level : Level) (envs : List Envelope) (state : S)
    (events : List E) (s : Consumer S C E) : Option (Handoff S C E) :=
  if hne : (s.select W.glob envs events).1 = [] then none
  else some ⟨⟨level, s, (s.select W.glob envs events).1, hne⟩, state,
    (s.select W.glob envs events).2⟩

/-- All that is to be handed to subscribers. -/
def handoffs (W : Workflow K S C E) (level : Level) (envs : List Envelope) (state : S)
    (events : List E) : List (Handoff S C E) :=
  W.subscribers.filterMap (W.handoff level envs state events)

theorem mem_handoffs {d : Handoff S C E} : d ∈ W.handoffs level envs state events ↔
    ∃ s ∈ W.subscribers, ∃ hne, d = ⟨⟨level, s, (s.select W.glob envs events).1, hne⟩, state,
      (s.select W.glob envs events).2⟩ := by
  refine List.mem_filterMap.trans (exists_congr fun s => and_congr_right fun _ => ?_)
  unfold handoff
  split_ifs with hnil
  · exact ⟨fun h => (by cases h), fun h => absurd hnil h.1⟩
  · exact ⟨fun h => ⟨hnil, (Option.some.inj h).symm⟩, fun h => congrArg some h.2.symm⟩

/-- The requests have all been made, and none of the child workflows failed to start. -/
structure AllStarted (ds : List (Handoff S C E)) (t : List (BusEvent S C E)) : Prop where
  requests : Prog.accesses t = ds.map Handoff.request
  started : ∀ p (e : Err), (⟨.spawn p, (.error e : Except Err Unit)⟩ : BusEvent S C E) ∉ t

/-- The first loop: all subscribers that match something, unless a child workflow does not start. -/
theorem dispatch_ends {subs : List (Consumer S C E)} {r : Except Err (List (Handoff S C E))}
    (h : (W.dispatch level envs state events subs).Ends t r) :
    AllStarted (subs.filterMap (W.handoff level envs state events)) t ∧
        r = .ok ((subs.filterMap (W.handoff level envs state events)).filter
          fun d => d.sub.mode = .sync) ∨
      Prog.accesses t <+: (subs.filterMap (W.handoff level envs state events)).map Handoff.request ∧
        ∃ p e, (⟨.spawn p, (.error e : Except Err Unit)⟩ : BusEvent S C E) ∈ t ∧ r = .error e := by
  induction subs generalizing t r with
  | nil =>
    obtain ⟨rfl, rfl⟩ := Prog.Ends.of_ret h
    exact Or.inl ⟨⟨rfl, fun _ _ => List.not_mem_nil⟩, rfl⟩
  | cons sub subs ih =>
    rw [dispatch] at h
    dsimp only at h
    split_ifs at h with hne hmode
    · have hnone : W.handoff level envs state events sub = none := dif_pos hne
      rw [List.filterMap_cons_none hnone]
      exact ih h
    · let d : Handoff S C E := ⟨⟨level, sub, (sub.select W.glob envs events).1, hne⟩, state,
        (sub.select W.glob envs events).2⟩
      have hsome : W.handoff level envs state events sub = some d := dif_neg hne
      have hreq : d.request = .spawn d.toParcel := if_pos hmode
      have hasync : (decide (d.sub.mode = .sync)) = false := by simp [d, hmode]
      obtain ⟨a, t, rfl, hnext⟩ := Prog.Ends.of_access h
      rw [List.filterMap_cons_some hsome, List.map_cons, hreq,
        List.filter_cons_of_neg (by simp [hasync])]
      rcases Prog.Ends.of_ofExcept_bind hnext with ⟨u, rfl, hrest⟩ | ⟨e, rfl, rfl, rfl⟩
      · rcases ih hrest with ⟨⟨hreqs, hok⟩, rfl⟩ | ⟨hreqs, p, e, hmem, rfl⟩
        · refine Or.inl ⟨⟨?_, fun p e hmem => ?_⟩, rfl⟩
          · rw [List.map_cons, hreq, ← hreqs]
            rfl
          · rcases List.mem_cons.1 hmem with he | hmem
            · cases he
            · exact hok p e hmem
        · refine Or.inr ⟨List.cons_prefix_cons.2 ⟨rfl, hreqs⟩, p, e, ?_, rfl⟩
          exact List.mem_cons_of_mem _ hmem
      · exact Or.inr ⟨List.cons_prefix_cons.2 ⟨rfl, List.nil_prefix⟩, _, e, List.mem_cons_self, rfl⟩
    · let d : Handoff S C E := ⟨⟨level, sub, (sub.select W.glob envs events).1, hne⟩, state,
        (sub.select W.glob envs events).2⟩
      have hsome : W.handoff level envs state events sub = some d := dif_neg hne
      have hreq : d.request = .runSync d := if_neg hmode
      have hsync : d.sub.mode = .sync := by
        cases hm : d.sub.mode with
        | sync => rfl
        | async => exact absurd hm hmode
      obtain ⟨a, t, rfl, hnext⟩ := Prog.Ends.of_access h
      rw [List.filterMap_cons_some hsome, List.map_cons, hreq,
        List.filter_cons_of_pos (by simp [hsync])]
      rcases Prog.Ends.of_bind hnext with ⟨t₁, t₂, ds, rfl, hrest, hret⟩ | ⟨e, rfl, hrest⟩
      · obtain ⟨rfl, rfl⟩ := Prog.Ends.of_ret hret
        rw [List.append_nil]
        rcases ih hrest with ⟨⟨hreqs, hok⟩, hds⟩ | ⟨-, p, e, -, he⟩
        · refine Or.inl ⟨⟨?_, fun p e hmem => ?_⟩, ?_⟩
          · rw [List.map_cons, hreq, ← hreqs]
            rfl
          · rcases List.mem_cons.1 hmem with he | hmem
            · cases he
            · exact hok p e hmem
          · rw [Except.ok.inj hds]
        · cases he
      · rcases ih hrest with ⟨-, he⟩ | ⟨hreqs, p, e', hmem, he⟩
        · cases he
        · refine Or.inr ⟨List.cons_prefix_cons.2 ⟨rfl, hreqs⟩, p, e', ?_, he⟩
          exact List.mem_cons_of_mem _ hmem

/-- The second loop: all futures, unless one has no result. -/
theorem waitAll_ends {ds : List (Handoff S C E)} {r : Except Err (List (Handoff S C E × String))}
    (h : (waitAll ds).Ends t r) :
    (Prog.accesses t = ds.map BusOp.wait ∧
        ∀ d (e : Err), (⟨.wait d, (.error e : Except Err String)⟩ : BusEvent S C E) ∉ t) ∧
        r = .ok (t.filterMap fun e => e.1.exhaustion e.2) ∨
      Prog.accesses t <+: ds.map BusOp.wait ∧ (∃ d e,
        (⟨.wait d, (.error e : Except Err String)⟩ : BusEvent S C E) ∈ t) ∧ ∃ e, r = .error e := by
  induction ds generalizing t r with
  | nil =>
    obtain ⟨rfl, rfl⟩ := Prog.Ends.of_ret h
    exact Or.inl ⟨⟨rfl, fun _ _ => List.not_mem_nil⟩, rfl⟩
  | cons d ds ih =>
    obtain ⟨a, t, rfl, hnext⟩ := Prog.Ends.of_access h
    cases (a : Except Err String) with
    | error e =>
      obtain ⟨rfl, rfl⟩ := Prog.Ends.of_fail hnext
      refine Or.inr ⟨List.cons_prefix_cons.2 ⟨rfl, List.nil_prefix⟩, ⟨d, e, ?_⟩, _, rfl⟩
      exact List.mem_cons_self
    | ok raw =>
      change (waitAll ds >>= fun rest =>
        Prog.ret (if raw = "" then rest else (d, raw) :: rest)).Ends t r at hnext
      rcases Prog.Ends.of_bind hnext with ⟨t₁, t₂, xs, rfl, hrest, hret⟩ | ⟨e, rfl, hrest⟩
      · obtain ⟨rfl, rfl⟩ := Prog.Ends.of_ret hret
        rw [List.append_nil]
        rcases ih hrest with ⟨⟨hreqs, hok⟩, hxs⟩ | ⟨-, -, e, he⟩
        · refine Or.inl ⟨⟨?_, fun d' e hmem => ?_⟩, ?_⟩
          · rw [List.map_cons, ← hreqs]
            rfl
          · rcases List.mem_cons.1 hmem with he | hmem
            · cases he
            · exact hok d' e hmem
          · rw [Except.ok.inj hxs, List.filterMap_cons]
            simp only [BusOp.exhaustion]
            split_ifs <;> rfl
        · cases he
      · rcases ih hrest with ⟨-, he⟩ | ⟨hreqs, ⟨d', e', hmem⟩, he⟩
        · cases he
        · refine Or.inr ⟨List.cons_prefix_cons.2 ⟨rfl, hreqs⟩, ⟨d', e', ?_⟩, he⟩
          exact List.mem_cons_of_mem _ hmem

/-! ### The whole call -/

/-- The state and the events of a command, as they are read back. -/
structure ReadsBack (W : Workflow K S C E) (raw : Except Err (Option Bytes)) (envs : List Envelope)
    (state : S) (events : List E) : Prop where
  state : Except.bind raw W.runtime.decodeState = .ok state
  events : decodeEvents W.codec 0 envs = .ok events

/-- How the reads and the first two loops end. -/
inductive Delivers (W : Workflow K S C E) (level : Level) (envs : List Envelope)
    (raw : Except Err (Option Bytes)) : List (BusEvent S C E) →
      Except Err (S × List (Handoff S C E × String)) → Prop
  | unread {e : Err} : (¬ ∃ state events, W.ReadsBack raw envs state events) →
      Delivers W level envs raw [] (.error e)
  | spawning {state : S} {events : List E} {t : List (BusEvent S C E)} {e : Err} :
      W.ReadsBack raw envs state events →
      (W.dispatch level envs state events W.subscribers).Ends t (.error e) →
      Delivers W level envs raw t (.error e)
  | waiting {state : S} {events : List E} {t₁ t₂ : List (BusEvent S C E)}
      {ds : List (Handoff S C E)} {e : Err} : W.ReadsBack raw envs state events →
      (W.dispatch level envs state events W.subscribers).Ends t₁ (.ok ds) →
      (waitAll ds).Ends t₂ (.error e) → Delivers W level envs raw (t₁ ++ t₂) (.error e)
  | delivered {state : S} {events : List E} {t₁ t₂ : List (BusEvent S C E)}
      {ds : List (Handoff S C E)} {xs : List (Handoff S C E × String)} :
      W.ReadsBack raw envs state events →
      (W.dispatch level envs state events W.subscribers).Ends t₁ (.ok ds) →
      (waitAll ds).Ends t₂ (.ok xs) → Delivers W level envs raw (t₁ ++ t₂) (.ok (state, xs))

theorem deliver_ends {result : AppendResult} {r : Except Err (S × List (Handoff S C E × String))}
    (h : (W.deliver level sid result).Ends t r) :
    ∃ read t', t = ⟨.readEnvelopes level sid result, read⟩ :: t' ∧
      (∀ envs, read = Except.ok envs → ∃ raw t'', t' = ⟨.readState level sid, raw⟩ :: t'' ∧
        W.Delivers level envs raw t'' r) ∧
      ∀ e, read = Except.error e → t' = [] ∧ r = .error e := by
  obtain ⟨read, t, rfl, hread⟩ := Prog.Ends.of_access h
  refine ⟨read, t, rfl, ?_, fun e he => by rw [he] at hread; exact Prog.Ends.of_fail hread⟩
  rintro envs rfl
  obtain ⟨raw, t, rfl, hstate⟩ := Prog.Ends.of_access hread
  refine ⟨raw, t, rfl, ?_⟩
  rcases Prog.Ends.of_ofExcept_bind hstate with ⟨state, hraw, hdecode⟩ | ⟨e, hraw, rfl, rfl⟩
  · rcases Prog.Ends.of_ofExcept_bind hdecode with
      ⟨events, hevents, hloops⟩ | ⟨e, hevents, rfl, rfl⟩
    · have hdec : decodeEvents W.codec 0 envs = .ok events := by
        cases hd : decodeEvents W.codec 0 envs with
        | error e =>
          rw [hd] at hevents
          cases hevents
        | ok events' =>
          rw [hd] at hevents
          cases hevents
          rfl
      rcases Prog.Ends.of_bind hloops with ⟨t₁, t₂, ds, rfl, hdis, hrest⟩ | ⟨e, rfl, hdis⟩
      · rcases Prog.Ends.of_bind hrest with ⟨t₂, t₃, xs, rfl, hwait, hret⟩ | ⟨e, rfl, hwait⟩
        · obtain ⟨rfl, rfl⟩ := Prog.Ends.of_ret hret
          rw [List.append_nil]
          exact .delivered ⟨hraw, hdec⟩ hdis hwait
        · exact .waiting ⟨hraw, hdec⟩ hdis hwait
      · exact .spawning ⟨hraw, hdec⟩ hdis
    · refine .unread ?_
      rintro ⟨state', events', hreads⟩
      rw [hreads.events] at hevents
      cases hevents
  · refine .unread ?_
    rintro ⟨state', events', hreads⟩
    have hstate' : Except.bind (raw : Except Err (Option Bytes)) W.runtime.decodeState =
      .ok state' := hreads.state
    rw [hstate'] at hraw
    cases hraw

end Workflow

end EventStore
