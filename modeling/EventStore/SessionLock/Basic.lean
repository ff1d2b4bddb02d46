import Mathlib.Data.List.Perm.Basic
import Mathlib.Data.List.Nodup

/-!
# Locks that belong to sessions

Locks of a server that are taken by its sessions, as the advisory locks of a database are: a session
may take a lock several times and then has to give it back as often, no two sessions hold a lock at
the same time, and a session that ends gives back what it holds.

`SessionLocks σ ι` has what is held as a list, with one entry for each time a lock was taken.  The
operations are `tryLock`, `unlock` and `close`.  For a part of the sessions (those of one client,
`SessionLocks.heldBy`) there is a lemma for each operation of one of them, and one for each
operation of another session.
-/

namespace EventStore

/-- The locks the sessions of a server hold. -/
structure SessionLocks (σ ι : Type*) where
  /-- A session and a lock it holds, once for each time it has taken the lock. -/
  held : List (σ × ι)
  /-- A lock is held by one session. -/
  exclusive : ∀ p ∈ held, ∀ q ∈ held, p.2 = q.2 → p.1 = q.1

namespace SessionLocks

variable {σ ι : Type*}

/-- Nobody holds a lock. -/
def empty : SessionLocks σ ι := ⟨[], by simp⟩

/-- Nobody holds the lock. -/
def Free (L : SessionLocks σ ι) (l : ι) : Prop := ∀ c, (c, l) ∉ L.held

variable [DecidableEq σ]

/-- The session ends. -/
def close (L : SessionLocks σ ι) (c : σ) : SessionLocks σ ι :=
  ⟨L.held.filter fun p => decide (p.1 ≠ c), fun p hp q hq =>
    L.exclusive p (List.mem_filter.1 hp).1 q (List.mem_filter.1 hq).1⟩

/-- What the sessions of a list hold. -/
def heldBy (L : SessionLocks σ ι) (cs : List σ) : List (σ × ι) :=
  L.held.filter fun p => decide (p.1 ∈ cs)

section Close

variable {L : SessionLocks σ ι} {c : σ} {l : ι} {cs : List σ}

theorem mem_heldBy {p : σ × ι} : p ∈ L.heldBy cs ↔ p ∈ L.held ∧ p.1 ∈ cs := by
  simp [heldBy]

/-- Another session ends. -/
theorem heldBy_close_of_not_mem (hc : c ∉ cs) : (L.close c).heldBy cs = L.heldBy cs := by
  rw [heldBy, heldBy, close, List.filter_filter]
  refine List.filter_congr fun p _ => ?_
  by_cases hp : p.1 = c
  · simp [hp, hc]
  · simp [hp]

/-- One of the sessions ends. -/
theorem heldBy_close_filter :
    (L.close c).heldBy (cs.filter (· ≠ c)) = (L.heldBy cs).filter fun p => decide (p.1 ≠ c) := by
  simp only [heldBy, close, List.filter_filter]
  refine List.filter_congr fun p _ => ?_
  by_cases hp : p.1 = c <;> simp [hp]

/-- A session that holds nothing joins. -/
theorem heldBy_cons (h : ∀ p ∈ L.held, p.1 ≠ c) : L.heldBy (c :: cs) = L.heldBy cs := by
  refine List.filter_congr fun p hp => ?_
  simp [h p hp]

/-- With its session gone a lock is free. -/
theorem free_close (h : (c, l) ∈ L.held) : (L.close c).Free l := by
  intro c' hc'
  obtain ⟨hmem, hne⟩ := List.mem_filter.1 hc'
  exact of_decide_eq_true hne (L.exclusive _ hmem _ h rfl)

end Close

/-! ### Taking and giving back -/

variable [DecidableEq ι]

/-- The session takes the lock, unless another one holds it. -/
def tryLock (L : SessionLocks σ ι) (c : σ) (l : ι) : Option (SessionLocks σ ι) :=
  if h : ∀ p ∈ L.held, p.2 = l → p.1 = c then
    some ⟨(c, l) :: L.held, by
      intro p hp q hq hpq
      rcases List.mem_cons.1 hp with rfl | hp
      · rcases List.mem_cons.1 hq with rfl | hq
        · rfl
        · exact (h q hq hpq.symm).symm
      · rcases List.mem_cons.1 hq with rfl | hq
        · exact h p hp hpq
        · exact L.exclusive p hp q hq hpq⟩
  else none

/-- The session gives the lock back once. -/
def unlock (L : SessionLocks σ ι) (c : σ) (l : ι) : SessionLocks σ ι :=
  ⟨L.held.erase (c, l), fun p hp q hq =>
    L.exclusive p (List.mem_of_mem_erase hp) q (List.mem_of_mem_erase hq)⟩

variable {L L' : SessionLocks σ ι} {c : σ} {l : ι} {cs : List σ}

@[simp] theorem held_unlock : (L.unlock c l).held = L.held.erase (c, l) := rfl

theorem held_tryLock (h : L.tryLock c l = some L') : L'.held = (c, l) :: L.held := by
  unfold tryLock at h
  split_ifs at h
  rw [← Option.some.inj h]

/-- A lock nobody holds can be taken. -/
theorem Free.tryLock (h : L.Free l) (c : σ) : (L.tryLock c l).isSome = true := by
  have hh : ∀ p ∈ L.held, p.2 = l → p.1 = c := by
    rintro ⟨c', l'⟩ hp rfl
    exact absurd hp (h c')
  rw [SessionLocks.tryLock, dif_pos hh]
  rfl

/-- One of the sessions takes a lock. -/
theorem heldBy_tryLock_of_mem (h : L.tryLock c l = some L') (hc : c ∈ cs) :
    L'.heldBy cs = (c, l) :: L.heldBy cs := by
  rw [heldBy, held_tryLock h, List.filter_cons_of_pos (by simpa using hc)]
  rfl

/-- Another session takes a lock. -/
theorem heldBy_tryLock_of_not_mem (h : L.tryLock c l = some L') (hc : c ∉ cs) :
    L'.heldBy cs = L.heldBy cs := by
  rw [heldBy, held_tryLock h, List.filter_cons_of_neg (by simpa using hc)]
  rfl

/-- One of the sessions gives a lock back. -/
theorem heldBy_unlock_of_mem (h : (c, l) ∈ L.held) (hc : c ∈ cs) :
    (L.heldBy cs).Perm ((c, l) :: (L.unlock c l).heldBy cs) := by
  have hperm := (List.perm_cons_erase h).filter fun p => decide (p.1 ∈ cs)
  rwa [List.filter_cons_of_pos (by simpa using hc)] at hperm

/-- Another session gives a lock back. -/
theorem heldBy_unlock_of_not_mem (hc : c ∉ cs) :
    (L.heldBy cs).Perm ((L.unlock c l).heldBy cs) := by
  by_cases h : (c, l) ∈ L.held
  · have hperm := (List.perm_cons_erase h).filter fun p => decide (p.1 ∈ cs)
    rwa [List.filter_cons_of_neg (by simpa using hc)] at hperm
  · unfold heldBy
    rw [held_unlock, List.erase_of_not_mem h]

/-- A lock taken once is free when it has been given back. -/
theorem free_unlock (h : (c, l) ∈ L.held) (h1 : L.held.count (c, l) = 1) :
    (L.unlock c l).Free l := by
  intro c' hc'
  rw [held_unlock] at hc'
  obtain rfl : c' = c := L.exclusive _ (List.mem_of_mem_erase hc') _ h rfl
  have hcount : (L.held.erase (c', l)).count (c', l) = 0 := by
    rw [List.count_erase_self, h1]
  have := List.count_pos_iff.2 hc'
  omega

end SessionLocks

end EventStore
