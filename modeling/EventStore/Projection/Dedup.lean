import EventStore.Es.Tamper
import EventStore.Projection.Runtime

/-!
# Deduplication around a handler

Deliveries to handlers in `projection.WithDedup` run beside each other, in steps: the lookup, the
inner handler, the mark.  Each may fail, a delivery that crashes takes no more steps, and
`CleanupProcessedEvents` runs at any time.  No event is swallowed, and a mark holds later
deliveries back; but several may look before the first one marks.
-/

namespace EventStore

/-- The projection's name, the tenant and the event: a primary key. -/
abbrev ProcessedKey := String × String × UUID

/-- A row of `processed_events`. -/
structure ProcessedRow where
  key : ProcessedKey
  processedAt : Time

abbrev ProcessedEvents := Table ProcessedRow fun r r' => r.key = r'.key

inductive DedupPhase where
  | looking
  | handling
  | marking
  | returned (result : Except Err Unit)

/-- A call of the handler `WithDedup` returns. -/
structure DedupCall where
  name : String
  env : Envelope
  phase : DedupPhase

inductive DedupAct where
  | lookup (failure : Option Err)
  | inner (failure : Option Err)
  | mark (now : Time) (outcome : Outcome)

/-- The table, the deliveries, and the keys whose inner handler has returned nil. -/
structure DedupSys where
  processed : ProcessedEvents
  calls : ℕ → Option DedupCall
  handled : List ProcessedKey

inductive DedupStep where
  | deliver (i : ℕ) (name : String) (env : Envelope)
  | act (i : ℕ) (a : DedupAct)
  | cleanup (name : String) (old : Time → Bool)

namespace ProcessedEvents

variable (T : ProcessedEvents) (k : ProcessedKey)

def hasProcessedEvent : Bool := T.rows.any fun r => decide (r.key = k)

/-- `ON CONFLICT DO NOTHING`. -/
def markProcessedEvent (now : Time) : ProcessedEvents := (T.insert ⟨k, now⟩).getD T

/-- `old` is the comparison of `processed_at` with the cutoff. -/
def cleanupProcessedEvents (name : String) (old : Time → Bool) : ProcessedEvents :=
  T.delete fun r => decide (r.key.1 = name) && old r.processedAt

end ProcessedEvents

def DedupCall.key (c : DedupCall) : ProcessedKey := (c.name, c.env.tenantID, c.env.eventID)

/-- `WithDedup`: the next phase, the table, and the key that is handled. -/
def DedupCall.step (T : ProcessedEvents) (c : DedupCall) (a : DedupAct) :
    Option (DedupPhase × ProcessedEvents × List ProcessedKey) :=
  match c.phase, a with
  | .looking, .lookup (some e) => some (.returned (.error (.wrap "dedup: lookup" e)), T, [])
  | .looking, .lookup none =>
    some (if T.hasProcessedEvent c.key then .returned (.ok ()) else .handling, T, [])
  | .handling, .inner (some e) => some (.returned (.error e), T, [])
  | .handling, .inner none => some (.marking, T, [c.key])
  | .marking, .mark now .done => some (.returned (.ok ()), T.markProcessedEvent c.key now, [])
  | .marking, .mark now (.failed e executed) =>
    some (.returned (.error (.wrap "dedup: mark" e)),
      if executed then T.markProcessedEvent c.key now else T, [])
  | _, _ => none

/-- The next state, if any. -/
def DedupSys.next (s : DedupSys) : DedupStep → Option DedupSys
  | .deliver i name env =>
    if (s.calls i).isSome then none
    else some { s with calls := Function.update s.calls i (some ⟨name, env, .looking⟩) }
  | .act i a =>
    (s.calls i).bind fun c => (c.step s.processed a).map fun out =>
      ⟨out.2.1, Function.update s.calls i (some { c with phase := out.1 }), s.handled ++ out.2.2⟩
  | .cleanup name old => some { s with processed := s.processed.cleanupProcessedEvents name old }

/-- Deliveries beside each other. -/
def dedupSystem : TS DedupSys DedupStep where
  init s := s = ⟨.empty, fun _ => none, []⟩
  step s l s' := s.next l = some s'

/-! ### The table -/

namespace ProcessedEvents

variable {T : ProcessedEvents} {k k' : ProcessedKey} {now : Time} {name : String}
  {old : Time → Bool}

theorem has_iff : T.hasProcessedEvent k ↔ ∃ r ∈ T.rows, r.key = k := by
  simp [hasProcessedEvent]

theorem has_mark : (T.markProcessedEvent k now).hasProcessedEvent k' ↔
    T.hasProcessedEvent k' ∨ k = k' := by
  unfold markProcessedEvent
  cases hi : T.insert ⟨k, now⟩ with
  | none =>
    obtain ⟨r, hr, hk⟩ := Table.insert_eq_none_iff.1 hi
    have hhas : T.hasProcessedEvent k := has_iff.2 ⟨r, hr, hk⟩
    grind
  | some T' => simp [has_iff, (Table.insert_eq_some_iff.1 hi).2, or_and_right, exists_or]

theorem has_cleanup : (T.cleanupProcessedEvents name old).hasProcessedEvent k ↔
    ∃ r ∈ T.rows, (r.key.1 = name → old r.processedAt = false) ∧ r.key = k := by
  simp [has_iff, cleanupProcessedEvents, and_assoc, imp_iff_not_or]

end ProcessedEvents

/-! ### Runs -/

/-- What a step does to the marks, and the ways to the mark and to nil. -/
theorem DedupCall.step_spec {T T' : ProcessedEvents} {c : DedupCall} {a : DedupAct}
    {ph : DedupPhase} {ks : List ProcessedKey} (h : c.step T a = some (ph, T', ks)) :
    (∀ k, T.hasProcessedEvent k → T'.hasProcessedEvent k ∧ (c.key = k → ph ≠ .handling)) ∧
    (∀ k, T'.hasProcessedEvent k → T.hasProcessedEvent k ∨ c.phase = .marking ∧ c.key = k) ∧
    (ph = .marking ∨ ph = .returned (.ok ()) →
      T.hasProcessedEvent c.key ∨ c.key ∈ ks ∨ c.phase = .marking) := by
  unfold step at h
  grind [ProcessedEvents.has_mark]

namespace DedupSys

variable {s s' : DedupSys} {l : DedupStep} {k : ProcessedKey} {i : ℕ}

/-- What is marked was handled, and so was what a delivery marks or returns nil for. -/
structure Inv (s : DedupSys) : Prop where
  rows : ∀ k, s.processed.hasProcessedEvent k → k ∈ s.handled
  calls : ∀ i c, s.calls i = some c → c.phase = .marking ∨ c.phase = .returned (.ok ()) →
    c.key ∈ s.handled

theorem Inv.next (hi : s.Inv) (h : s.next l = some s') : s'.Inv := by
  cases l with
  | deliver j name env =>
    obtain ⟨-, h⟩ := Option.ite_none_left_eq_some.1 h
    cases h
    exact ⟨hi.rows, by grind [hi.calls]⟩
  | act j a =>
    obtain ⟨c, hc, h⟩ := Option.bind_eq_some_iff.1 h
    obtain ⟨⟨ph, T, ks⟩, hstep, rfl⟩ := Option.map_eq_some_iff.1 h
    obtain ⟨-, hrows, hcalls⟩ := DedupCall.step_spec hstep
    refine ⟨by grind [hi.rows, hi.calls], fun i d hd hp => ?_⟩
    simp only [Function.update_apply] at hd
    split_ifs at hd
    · cases hd
      grind [hi.rows, hi.calls, DedupCall.key]
    · exact List.mem_append_left _ (hi.calls i d hd hp)
  | cleanup name old =>
    cases h
    refine ⟨fun k hk => ?_, hi.calls⟩
    obtain ⟨r, hr, -, hk⟩ := ProcessedEvents.has_cleanup.1 hk
    exact hi.rows k (ProcessedEvents.has_iff.2 ⟨r, hr, hk⟩)

/-- The key is marked, and delivery `i` is not at the inner handler for it. -/
def Blocked (s : DedupSys) (k : ProcessedKey) (i : ℕ) : Prop :=
  s.processed.hasProcessedEvent k ∧
    ∀ c, s.calls i = some c → c.key = k → c.phase ≠ .handling

theorem Blocked.next (hb : s.Blocked k i) (hl : ∀ old, l ≠ .cleanup k.1 old)
    (h : s.next l = some s') : s'.Blocked k i := by
  obtain ⟨hT, hcalls⟩ := hb
  cases l with
  | deliver j name env =>
    obtain ⟨-, h⟩ := Option.ite_none_left_eq_some.1 h
    cases h
    exact ⟨hT, by grind⟩
  | act j a =>
    obtain ⟨c, hc, h⟩ := Option.bind_eq_some_iff.1 h
    obtain ⟨⟨ph, T, ks⟩, hstep, rfl⟩ := Option.map_eq_some_iff.1 h
    have hs := (DedupCall.step_spec hstep).1 k hT
    exact ⟨hs.1, by grind [DedupCall.key]⟩
  | cleanup name old =>
    cases h
    obtain ⟨r, hr, rfl⟩ := ProcessedEvents.has_iff.1 hT
    exact ⟨ProcessedEvents.has_cleanup.2 ⟨r, hr, fun hn => absurd (hn ▸ rfl) (hl old), rfl⟩, hcalls⟩

/-- **No event is swallowed.**  A delivery returns nil only for an event that its inner handler has
handled, then or before. -/
theorem delivered_handled (hs : dedupSystem.Reachable s) {c : DedupCall}
    (hc : s.calls i = some c) (hr : c.phase = .returned (.ok ())) : c.key ∈ s.handled := by
  have hi : s.Inv := by
    refine hs.invariant (fun s h => ?_) fun s l s' _ hi h => hi.next h
    subst h
    exact ⟨by simp [ProcessedEvents.has_iff], by simp⟩
  exact hi.calls i c hc (.inr hr)

def delivery (i : ℕ) : List DedupStep :=
  [.deliver i "p" (.bare 1 []), .act i (.lookup none), .act i (.inner none), .act i (.mark 0 .done)]

theorem delivered_handled_delivery : ∃ s, TS.exec next ⟨.empty, fun _ => none, []⟩ (delivery 0) =
    some s ∧ ∃ c, s.calls 0 = some c ∧ c.key ∈ s.handled :=
  ⟨_, rfl, _, rfl, delivered_handled (.exec (.init rfl) (fun _ _ _ _ h => h)
    (rfl : TS.exec next _ (delivery 0) = _)) (i := 0) rfl rfl⟩

/-- **A mark holds later deliveries back** from the inner handler, until a cleanup. -/
theorem marked_blocks {ls : List DedupStep} (h : dedupSystem.Run s ls s') (hb : s.Blocked k i)
    (hl : ∀ old, .cleanup k.1 old ∉ ls) : s'.Blocked k i := by
  induction h with
  | done => exact hb
  | snoc _ hst ih => exact (ih (by grind)).next (by grind) hst

theorem marked_blocks_delivery : ∃ (s s' : DedupSys) (k : _), s.Blocked k 1 ∧
    TS.exec next s ((delivery 1).take 2) = some s' ∧ s'.Blocked k 1 := by
  have hb : Blocked ⟨.markProcessedEvent .empty ("p", "acme", ⟨""⟩) 0, fun _ => none, []⟩
      ("p", "acme", ⟨""⟩) 1 := ⟨by decide, by simp⟩
  exact ⟨_, _, _, hb, rfl, marked_blocks (.exec (fun _ _ _ _ h => h)
    (rfl : TS.exec next _ ((delivery 1).take 2) = _)) hb (by simp [delivery])⟩

end DedupSys

end EventStore
