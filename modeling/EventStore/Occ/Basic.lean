import EventStore.LTS.Basic
import Mathlib.Data.List.Induction

/-!
# Histories of committed batches

A store of many logs is written in batches.  A *history* is the list of the batches in the order
in which they were committed; each names its log (`key`), the command it answers and the items it
adds.  `logOf` is the content of one log.

The specification of a store whose batches are decided on the log they extend is `serial law`: a
system that adds one batch at a time, each lawful for the content its log has at that moment.
`serial_reachable_iff` says what its histories are: every batch is lawful for exactly the items
that precede it.
-/

namespace EventStore

namespace Occ

variable {ι κ γ ε : Type*}

/-- A batch: who committed it, to which log, for which command, and its items. -/
structure Batch (ι κ γ ε : Type*) where
  /-- The call that committed the batch. -/
  call : ι
  /-- The log it was committed to. -/
  key : κ
  /-- The command it answers. -/
  cmd : γ
  /-- The items it adds. -/
  items : List ε

variable [DecidableEq κ]

/-- The content of one log after a history. -/
def logOf (hist : List (Batch ι κ γ ε)) (k : κ) : List ε :=
  hist.flatMap fun b => if b.key = k then b.items else []

/-- One batch at a time, each lawful for the content of its log. -/
def serial (law : κ → List ε → γ → List ε → Prop) :
    TS (List (Batch ι κ γ ε)) (Batch ι κ γ ε) where
  init hist := hist = []
  step hist b hist' := law b.key (logOf hist b.key) b.cmd b.items ∧ hist' = hist ++ [b]

variable {hist : List (Batch ι κ γ ε)} {b : Batch ι κ γ ε} {k : κ}

theorem logOf_concat_self : logOf (hist ++ [b]) b.key = logOf hist b.key ++ b.items := by
  simp [logOf]

theorem logOf_concat_ne (h : b.key ≠ k) : logOf (hist ++ [b]) k = logOf hist k := by
  simp [logOf, h]

/-- What a log held before is a prefix of what it holds after. -/
theorem logOf_prefix : logOf hist k <+: logOf (hist ++ [b]) k := by
  rw [logOf, logOf, List.flatMap_append]
  exact List.prefix_append ..

/-- **The histories of the specification**: every batch is lawful for the items before it. -/
theorem serial_reachable_iff {law : κ → List ε → γ → List ε → Prop} :
    (serial law).Reachable hist ↔ ∀ pre b post, hist = pre ++ b :: post →
      law b.key (logOf pre b.key) b.cmd b.items := by
  constructor
  · intro h
    induction h with
    | init h₀ =>
      intro pre b post he
      rw [show _ = [] from h₀] at he
      simp at he
    | @step hist hist' b _ hstep ih =>
      obtain ⟨hlaw, rfl⟩ := hstep
      intro pre b' post he
      -- the batch is the new one, or it stands in the old history
      cases post using List.reverseRecOn with
      | nil =>
        obtain ⟨rfl, hb⟩ := List.append_inj' he rfl
        rw [← (List.cons.inj hb).1]
        exact hlaw
      | append_singleton post c =>
        rw [← List.cons_append, ← List.append_assoc] at he
        exact ih pre b' post (List.append_inj' he rfl).1
  · intro h
    induction hist using List.reverseRecOn with
    | nil => exact .init rfl
    | append_singleton hist b ih =>
      refine .step (ih fun pre b' post he => ?_) ⟨h hist b [] rfl, rfl⟩
      exact h pre b' (post ++ [b]) (by rw [he]; simp)

end Occ

end EventStore
