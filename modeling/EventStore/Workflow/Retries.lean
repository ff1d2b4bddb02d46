import EventStore.Workflow.HandleCmd

/-!
# The retries of a subscriber

`runRetries` counts its attempts in an `int` and compares with `MaxRetries + 1`, in the same type.
The sum wraps around for the greatest `MaxRetries`, and the counter for the one before it.

* `Retried` : what `runRetries` does, if it comes to an end.
* `exists_retried_iff` : `runRetries` comes to an end whatever the attempts do, if and only if the
  counter does not wrap around.
-/

namespace EventStore

/-- The loop of `runRetries`; `outcome n` is the message of the error of the attempt after `n`
others, if it fails.  The result is the number of attempts and the last error; there is none if the
fuel does not suffice. -/
def retryLoop (outcome : ℕ → Option String) (maxRetries : Int64) :
    (fuel : ℕ) → (attempt : Int64) → (made : ℕ) → (lastErr : Option String) →
      Option (ℕ × Option String)
  | 0, _, _, _ => none
  | fuel + 1, attempt, made, lastErr =>
    if maxRetries < 0 ∨ attempt ≤ maxRetries + 1 then
      match outcome made with
      | none => some (made + 1, none)
      | some err => retryLoop outcome maxRetries fuel (attempt + 1) (made + 1) (some err)
    else some (made, lastErr)

/-- `runRetries`. -/
def runRetries (outcome : ℕ → Option String) (maxRetries : Int64) (fuel : ℕ) :
    Option (ℕ × Option String) :=
  retryLoop outcome maxRetries fuel 1 0 none

/-- `runRetries` comes to an end after `k` attempts, with this error or none. -/
def Retried (outcome : ℕ → Option String) (maxRetries : Int64) (k : ℕ) (err : Option String) :
    Prop :=
  ∃ fuel, runRetries outcome maxRetries fuel = some (k, err)

/-- The number of attempts that a budget of `maxRetries` retries stands for. -/
def attemptBudget (maxRetries : Int64) : ℕ := maxRetries.toInt.toNat + 1

section Retries

variable {outcome : ℕ → Option String} {maxRetries attempt : Int64} {fuel made k : ℕ}
  {lastErr err : Option String}

theorem retryLoop_succ (fuel : ℕ) (attempt : Int64) (made : ℕ) (lastErr : Option String) :
    retryLoop outcome maxRetries (fuel + 1) attempt made lastErr =
      if maxRetries < 0 ∨ attempt ≤ maxRetries + 1 then
        match outcome made with
        | none => some (made + 1, none)
        | some err => retryLoop outcome maxRetries fuel (attempt + 1) (made + 1) (some err)
      else some (made, lastErr) := rfl

/-- A success ends the loop. -/
theorem retryLoop_success (hgo : maxRetries < 0 ∨ attempt ≤ maxRetries + 1)
    (hout : outcome made = none) :
    retryLoop outcome maxRetries (fuel + 1) attempt made lastErr = some (made + 1, none) := by
  rw [retryLoop_succ, if_pos hgo, hout]

/-- After a failure it goes on. -/
theorem retryLoop_failure (hgo : maxRetries < 0 ∨ attempt ≤ maxRetries + 1) {e : String}
    (hout : outcome made = some e) :
    retryLoop outcome maxRetries (fuel + 1) attempt made lastErr =
      retryLoop outcome maxRetries fuel (attempt + 1) (made + 1) (some e) := by
  rw [retryLoop_succ, if_pos hgo, hout]

theorem retryLoop_stop (hstop : ¬ (maxRetries < 0 ∨ attempt ≤ maxRetries + 1)) :
    retryLoop outcome maxRetries (fuel + 1) attempt made lastErr = some (made, lastErr) := by
  rw [retryLoop_succ, if_neg hstop]

/-! ### The counter -/

theorem toInt_succ {x : Int64} (h : x.toInt + 1 < 2 ^ 63) : (x + 1).toInt = x.toInt + 1 := by
  have hlow := x.le_toInt
  rw [Int64.toInt_add, show (1 : Int64).toInt = 1 from rfl, Int.bmod_eq_of_le] <;> omega

theorem toInt_succ_max {x : Int64} (h : x.toInt + 1 = 2 ^ 63) : (x + 1).toInt = -2 ^ 63 := by
  rw [Int64.toInt_add, show (1 : Int64).toInt = 1 from rfl, h]
  rfl

/-- The condition of the loop, for a counter that has not passed the budget. -/
theorem within_budget (hpos : 0 ≤ maxRetries.toInt) (hfits : maxRetries.toInt + 1 < 2 ^ 63)
    (hmade : made < attemptBudget maxRetries) (hattempt : attempt.toInt = made + 1) :
    maxRetries < 0 ∨ attempt ≤ maxRetries + 1 := by
  refine Or.inr (Int64.le_iff_toInt_le.2 ?_)
  rw [toInt_succ hfits, hattempt]
  unfold attemptBudget at hmade
  omega

/-! ### Coming to an end -/

/-- With as many attempts as there can be, the counter never passes the budget. -/
theorem retryLoop_forever (hmax : maxRetries.toInt = 2 ^ 63 - 2) (hfail : ∀ i, outcome i ≠ none) :
    retryLoop outcome maxRetries fuel attempt made lastErr = none := by
  induction fuel generalizing attempt made lastErr with
  | zero => rfl
  | succ fuel ih =>
    have hgo : maxRetries < 0 ∨ attempt ≤ maxRetries + 1 := by
      have hlt := attempt.toInt_lt
      refine Or.inr (Int64.le_iff_toInt_le.2 ?_)
      rw [toInt_succ (by omega)]
      omega
    obtain ⟨e, he⟩ := Option.ne_none_iff_exists'.1 (hfail made)
    rw [retryLoop_failure hgo he]
    exact ih

/-- A counter that can pass the budget ends the loop. -/
theorem exists_retryLoop (hpos : 0 ≤ maxRetries.toInt) (hfits : maxRetries.toInt < 2 ^ 63 - 2)
    (left : ℕ) (hleft : made + left = attemptBudget maxRetries)
    (hattempt : attempt.toInt = made + 1) :
    ∃ k err, retryLoop outcome maxRetries (left + 1) attempt made lastErr = some (k, err) := by
  induction left generalizing attempt made lastErr with
  | zero =>
    have hstop : ¬ (maxRetries < 0 ∨ attempt ≤ maxRetries + 1) := by
      unfold attemptBudget at hleft
      rw [Int64.lt_iff_toInt_lt, Int64.le_iff_toInt_le, toInt_succ (by omega),
        show (0 : Int64).toInt = 0 from rfl]
      omega
    exact ⟨made, lastErr, retryLoop_stop hstop⟩
  | succ left ih =>
    have hgo := within_budget hpos (by omega) (by omega) hattempt
    cases hout : outcome made with
    | none => exact ⟨made + 1, none, retryLoop_success hgo hout⟩
    | some e =>
      rw [retryLoop_failure hgo hout]
      refine ih (by omega) ?_
      unfold attemptBudget at hleft
      rw [toInt_succ (by omega), hattempt]
      push_cast
      rfl

/-- **`runRetries` comes to an end whatever the attempts do, if and only if the counter can pass the
budget.** -/
theorem exists_retried_iff (hpos : 0 ≤ maxRetries.toInt) :
    (∀ outcome, ∃ k err, Retried outcome maxRetries k err) ↔ maxRetries.toInt ≠ 2 ^ 63 - 2 := by
  constructor
  · intro h hmax
    obtain ⟨k, err, fuel, hrun⟩ := h fun _ => some "failed"
    rw [runRetries, retryLoop_forever hmax fun _ => Option.some_ne_none _] at hrun
    cases hrun
  · intro hne outcome
    have hlt := maxRetries.toInt_lt
    rcases lt_or_ge maxRetries.toInt (2 ^ 63 - 2) with hfits | hwraps
    · have hrun : ∃ k err, runRetries outcome maxRetries (attemptBudget maxRetries + 1) =
          some (k, err) := exists_retryLoop hpos hfits _ (Nat.zero_add _) rfl
      obtain ⟨k, err, hrun⟩ := hrun
      exact ⟨k, err, _, hrun⟩
    · have hstop : ¬ (maxRetries < 0 ∨ (1 : Int64) ≤ maxRetries + 1) := by
        rw [Int64.lt_iff_toInt_lt, Int64.le_iff_toInt_le, toInt_succ_max (by omega),
          show (0 : Int64).toInt = 0 from rfl, show (1 : Int64).toInt = 1 from rfl]
        omega
      exact ⟨0, none, 1, retryLoop_stop hstop⟩

end Retries

end EventStore
