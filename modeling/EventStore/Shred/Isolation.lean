import EventStore.Lens.Basic
import EventStore.Shred.FirstUse

/-!
# One subject does not see another

The calls of a history on one subject should not notice the calls on another one: they return what
they would return without them.  What a call on a subject reads and changes is the row of the
subject and the entry of the cache at its place (`within_apply`), and the random bytes it is given.
Two subjects have different rows, but they may have the same place: `cacheKey` writes the tenant and
the subject one after the other with a `|` between them.

* `isolated_iff` : **the calls on one subject are unaffected by those on another one if and only if
  the two have different places in the cache.**
-/

namespace EventStore

namespace Shred

variable {π : Type} [DecidableEq π]

/-- What a call works on: the row of the subject, the entry at its place in the cache of a process,
and the random bytes. -/
structure SubjectView where
  row : Option SubjectKey
  cached : Option Bytes
  random : ℕ → UInt8

section Pair

variable {α β γ : Type} [DecidableEq α] [DecidableEq β]

/-- A function set to the value it has. -/
theorem ite_pair_self (f : α → β → γ) (a : α) (b : β) :
    (fun x y => if x = a ∧ y = b then f a b else f x y) = f := by
  funext x y
  by_cases h : x = a ∧ y = b
  · rw [if_pos h, h.1, h.2]
  · rw [if_neg h]

/-- A function set twice. -/
theorem ite_pair_pair (f : α → β → γ) (a : α) (b : β) (c d : γ) :
    (fun x y => if x = a ∧ y = b then c else if x = a ∧ y = b then d else f x y) =
      fun x y => if x = a ∧ y = b then c else f x y := by
  funext x y
  by_cases h : x = a ∧ y = b
  · rw [if_pos h, if_pos h]
  · rw [if_neg h, if_neg h, if_neg h]

end Pair

/-- The part of the state a call on a subject works on. -/
def subjectLens (j : π) (t s : String) : Lens (Keys π) SubjectView where
  get k := ⟨k.subjectKeys t s, k.caches j (cacheKey t s), k.random⟩
  set v k :=
    { subjectKeys := fun t' s' => if t' = t ∧ s' = s then v.row else k.subjectKeys t' s'
      caches := fun i key => if i = j ∧ key = cacheKey t s then v.cached else k.caches i key
      random := v.random }
  get_set v k := by simp
  set_get k := by
    simp only [ite_pair_self]
  set_set v w k := by
    simp only [ite_pair_pair]

theorem set_row (j : π) (t s : String) (k : Keys π) (row : SubjectKey) :
    (subjectLens j t s).set { (subjectLens j t s).get k with row := some row } k =
      k.setRow t s row := by
  simp only [subjectLens, Keys.setRow, ite_pair_self]

theorem set_cached (j : π) (t s : String) (k : Keys π) (dek : Option Bytes) :
    (subjectLens j t s).set { (subjectLens j t s).get k with cached := dek } k =
      k.setCache j (cacheKey t s) dek := by
  simp only [subjectLens, Keys.setCache, ite_pair_self]

theorem set_random (j : π) (t s : String) (k : Keys π) (random : ℕ → UInt8) :
    (subjectLens j t s).set { (subjectLens j t s).get k with random := random } k =
      { k with random := random } := by
  simp only [subjectLens, ite_pair_self]

/-! ### The calls -/

/-- What `RewrapDEKs` does with one row: it wraps the key of the subject once more. -/
def Instance.rewrapRow (V : Instance π) (tenant subject : String) : EStateM Err (Keys π) Unit := do
  match ← V.getSubjectKey tenant subject with
  | none => return ()
  | some row =>
    if row.shredded then return ()
    else do
      let dek ← EStateM.ofExcept ((V.kms.unwrapDEK tenant row.dekWrapped row.kekVersion).mapError
        (.wrap s!"shred: unwrap DEK for {subject}"))
      let (wrapped, kekVersion) ← EStateM.ofExcept ((V.kms.wrapDEK tenant dek).mapError
        (.wrap s!"shred: re-wrap DEK for {subject}"))
      V.upsertSubjectKey tenant subject wrapped kekVersion

/-- The calls on a subject. -/
inductive SubjectCall where
  | ensureSubjectKey
  | encryptField (plaintext : Bytes)
  | decryptField (sealed : Bytes)
  | forgetSubject
  | rewrapRow
  deriving DecidableEq

/-- What a call does; it returns bytes or nothing. -/
def SubjectCall.apply (V : Instance π) (t s : String) :
    SubjectCall → EStateM Err (Keys π) (Option Bytes)
  | .ensureSubjectKey => do return some (← V.ensureSubjectKey t s)
  | .encryptField plaintext => do return some (← V.encryptField t s plaintext)
  | .decryptField sealed => do return some (← V.decryptField t s sealed)
  | .forgetSubject => do V.forgetSubject t s; return none
  | .rewrapRow => do V.rewrapRow t s; return none

section Within

variable {V : Instance π} {t s : String}

theorem within_readRandom (j : π) (n : ℕ) :
    (subjectLens j t s).Within (readRandom n : EStateM Err (Keys π) Bytes) := by
  refine ⟨fun v => (.ok ((List.range n).map v.random),
    { v with random := fun i => v.random (n + i) }), fun k => ?_⟩
  rw [set_random]
  rfl

theorem within_cacheGet (j : π) : (subjectLens j t s).Within (cacheGet j t s) := by
  refine ⟨fun v => (.ok v.cached, v), fun k => ?_⟩
  rw [Lens.set_get]
  rfl

theorem within_cacheSet (j : π) (dek : Bytes) :
    (subjectLens j t s).Within (cacheSet j t s dek) := by
  refine ⟨fun v => (.ok (), { v with cached := some dek }), fun k => ?_⟩
  rw [set_cached]
  rfl

theorem within_cacheForget (j : π) : (subjectLens j t s).Within (cacheForget j t s) := by
  refine ⟨fun v => (.ok (), { v with cached := none }), fun k => ?_⟩
  rw [set_cached]
  rfl

theorem within_getSubjectKey : (subjectLens V.process t s).Within (V.getSubjectKey t s) := by
  cases hf : V.readFault with
  | some msg =>
    refine ⟨fun v => (.error (.text msg), v), fun k => ?_⟩
    rw [Lens.set_get]
    simp only [Instance.getSubjectKey, hf]
    rfl
  | none =>
    refine ⟨fun v => (.ok v.row, v), fun k => ?_⟩
    rw [Lens.set_get]
    simp only [Instance.getSubjectKey, hf]
    rfl

/-- The row `UpsertSubjectKey` leaves. -/
def SubjectKey.upserted (w : Bytes) (version : UInt32) (row : Option SubjectKey) : SubjectKey :=
  ⟨w, version, (row.map SubjectKey.shredded).getD false⟩

/-- The row `ForgetSubject` leaves. -/
def SubjectKey.forgotten (row : SubjectKey) : SubjectKey :=
  { row with dekWrapped := [], shredded := true }

theorem within_upsertSubjectKey (w : Bytes) (version : UInt32) :
    (subjectLens V.process t s).Within (V.upsertSubjectKey t s w version) := by
  cases hf : V.writeFault with
  | some msg =>
    refine ⟨fun v => (.error (.text msg), v), fun k => ?_⟩
    rw [Lens.set_get]
    simp only [Instance.upsertSubjectKey, hf]
    rfl
  | none =>
    refine ⟨fun v => (.ok (), { v with row := some (.upserted w version v.row) }), fun k => ?_⟩
    rw [set_row]
    simp only [Instance.upsertSubjectKey, hf, subjectLens]
    cases k.subjectKeys t s <;> rfl

theorem within_forgetRow : (subjectLens V.process t s).Within (V.forgetRow t s) := by
  cases hf : V.writeFault with
  | some msg =>
    refine ⟨fun v => (.error (.text msg), v), fun k => ?_⟩
    rw [Lens.set_get]
    simp only [Instance.forgetRow, hf]
    rfl
  | none =>
    refine ⟨fun v => (.ok (), { v with row := v.row.map .forgotten }), fun k => ?_⟩
    simp only [Instance.forgetRow, hf]
    cases hrow : k.subjectKeys t s with
    | none =>
      have hsame : { (subjectLens V.process t s).get k with
          row := ((subjectLens V.process t s).get k).row.map .forgotten } =
          (subjectLens V.process t s).get k := by
        simp [subjectLens, hrow]
      rw [hsame, Lens.set_get]
      rfl
    | some row =>
      have hnew : ((subjectLens V.process t s).get k).row.map .forgotten =
          some row.forgotten := by
        simp [subjectLens, hrow]
      rw [hnew, set_row]
      rfl

theorem within_ensureSubjectKey :
    (subjectLens V.process t s).Within (V.ensureSubjectKey t s) := by
  refine Lens.within_bind (within_cacheGet _) fun cached => ?_
  cases cached with
  | some dek => exact Lens.within_pure dek
  | none =>
    refine Lens.within_bind within_getSubjectKey fun found => ?_
    cases found with
    | none =>
      refine Lens.within_bind (within_readRandom _ 32) fun dek => ?_
      refine Lens.within_bind (Lens.within_ofExcept _) fun wrapped => ?_
      refine Lens.within_bind (within_upsertSubjectKey _ _) fun _ => ?_
      exact Lens.within_bind (within_cacheSet _ dek) fun _ => Lens.within_pure dek
    | some row =>
      dsimp only
      split_ifs
      · exact Lens.within_throw _
      · refine Lens.within_bind (Lens.within_ofExcept _) fun dek => ?_
        exact Lens.within_bind (within_cacheSet _ dek) fun _ => Lens.within_pure dek

theorem within_encryptField (pt : Bytes) :
    (subjectLens V.process t s).Within (V.encryptField t s pt) := by
  refine Lens.within_bind within_ensureSubjectKey fun dek => ?_
  refine Lens.within_bind (Lens.within_ofExcept _) fun _ => ?_
  exact Lens.within_bind (within_readRandom _ nonceSize) fun _ => Lens.within_pure _

theorem within_decryptField (ct : Bytes) :
    (subjectLens V.process t s).Within (V.decryptField t s ct) := by
  refine Lens.within_bind (within_cacheGet _) fun cached => ?_
  cases cached with
  | some dek => exact Lens.within_ofExcept _
  | none =>
    refine Lens.within_bind within_getSubjectKey fun found => ?_
    cases found with
    | none => exact Lens.within_throw _
    | some row =>
      dsimp only
      split_ifs
      · exact Lens.within_throw _
      · refine Lens.within_bind (Lens.within_ofExcept _) fun dek => ?_
        exact Lens.within_bind (within_cacheSet _ dek) fun _ => Lens.within_ofExcept _

theorem within_rewrapRow : (subjectLens V.process t s).Within (V.rewrapRow t s) := by
  refine Lens.within_bind within_getSubjectKey fun found => ?_
  cases found with
  | none => exact Lens.within_pure ()
  | some row =>
    dsimp only
    split_ifs
    · exact Lens.within_pure ()
    · refine Lens.within_bind (Lens.within_ofExcept _) fun dek => ?_
      exact Lens.within_bind (Lens.within_ofExcept _) fun _ => within_upsertSubjectKey _ _

/-- **A call reads and changes the row and the place of its subject only.** -/
theorem within_apply (c : SubjectCall) : (subjectLens V.process t s).Within (c.apply V t s) := by
  cases c with
  | ensureSubjectKey => exact Lens.within_bind within_ensureSubjectKey fun _ => Lens.within_pure _
  | encryptField pt => exact Lens.within_bind (within_encryptField pt) fun _ => Lens.within_pure _
  | decryptField ct => exact Lens.within_bind (within_decryptField ct) fun _ => Lens.within_pure _
  | forgetSubject =>
    refine Lens.within_bind ?_ fun _ => Lens.within_pure none
    exact Lens.within_bind within_forgetRow fun _ => within_cacheForget _
  | rewrapRow => exact Lens.within_bind within_rewrapRow fun _ => Lens.within_pure none

end Within

/-! ### Histories -/

/-- A step of a history: a call on a subject, with the random bytes it is given, or `ClearCache`. -/
inductive HistoryStep (π : Type) where
  | call (V : Instance π) (random : ℕ → UInt8) (tenant subject : String) (c : SubjectCall)
  | clearCache (j : π)

/-- The empty cache of a process. -/
def Keys.clearCache (k : Keys π) (j : π) : Keys π :=
  { k with caches := fun i key => if i = j then none else k.caches i key }

namespace HistoryStep

/-- The state after a step. -/
def after (k : Keys π) : HistoryStep π → Keys π
  | .call V random t s c => (EStateM.split (c.apply V t s { k with random := random })).2
  | .clearCache j => k.clearCache j

omit [DecidableEq π] in
/-- The step is a call on the subject. -/
def on (t s : String) : HistoryStep π → Bool
  | .call _ _ t' s' _ => decide (t' = t ∧ s' = s)
  | .clearCache _ => false

/-- What the step returns, if it is a call on the subject. -/
def result? (t s : String) (k : Keys π) : HistoryStep π → Option (Except Err (Option Bytes))
  | .call V random t' s' c =>
    if t' = t ∧ s' = s then
      some (EStateM.split (c.apply V t' s' { k with random := random })).1
    else none
  | .clearCache _ => none

end HistoryStep

/-- What the calls on a subject return in a history. -/
def results (t s : String) (k : Keys π) : List (HistoryStep π) → List (Except Err (Option Bytes))
  | [] => []
  | step :: rest => (step.result? t s k).toList ++ results t s (step.after k) rest

/-- The history without the calls on a subject. -/
def without (t s : String) (history : List (HistoryStep π)) : List (HistoryStep π) :=
  history.filter fun step => !step.on t s

/-- The two states are the same at a place of the caches, and for the subjects that have it. -/
structure AlikeAt (place : String) (k k' : Keys π) : Prop where
  rows : ∀ t s, cacheKey t s = place → k.subjectKeys t s = k'.subjectKeys t s
  caches : ∀ j, k.caches j place = k'.caches j place

namespace AlikeAt

variable {place t s : String} {k k' k'' : Keys π}

omit [DecidableEq π] in
theorem symm (h : AlikeAt place k k') : AlikeAt place k' k :=
  ⟨fun t s ht => (h.rows t s ht).symm, fun j => (h.caches j).symm⟩

omit [DecidableEq π] in
theorem trans (h : AlikeAt place k k') (h' : AlikeAt place k' k'') : AlikeAt place k k'' :=
  ⟨fun t s ht => (h.rows t s ht).trans (h'.rows t s ht), fun j => (h.caches j).trans (h'.caches j)⟩

/-- The part of a subject with another place. -/
theorem set_ne (hne : cacheKey t s ≠ place) (j : π) (v : SubjectView) (k : Keys π) :
    AlikeAt place ((subjectLens j t s).set v k) k := by
  constructor
  · intro t' s' ht
    have hsubject : ¬ (t' = t ∧ s' = s) := by
      rintro ⟨rfl, rfl⟩
      exact hne ht
    simp [subjectLens, hsubject]
  · intro i
    simp [subjectLens, hne.symm]

/-- The same part is set in both. -/
theorem set (h : AlikeAt place k k') (j : π) (t s : String) (v : SubjectView) :
    AlikeAt place ((subjectLens j t s).set v k) ((subjectLens j t s).set v k') := by
  constructor
  · intro t' s' ht
    by_cases hsubject : t' = t ∧ s' = s
    · simp [subjectLens, hsubject]
    · simp [subjectLens, hsubject, h.rows t' s' ht]
  · intro i
    by_cases hi : i = j ∧ place = cacheKey t s
    · simp [subjectLens, hi]
    · simp [subjectLens, hi, h.caches i]

theorem clearCache (h : AlikeAt place k k') (j : π) :
    AlikeAt place (k.clearCache j) (k'.clearCache j) := by
  refine ⟨h.rows, fun i => ?_⟩
  by_cases hi : i = j
  · simp [Keys.clearCache, hi]
  · simp [Keys.clearCache, hi, h.caches i]

/-- A call on a subject with another place does not matter. -/
theorem after_ne (hne : cacheKey t s ≠ place) (V : Instance π) (random : ℕ → UInt8)
    (c : SubjectCall) (k : Keys π) :
    AlikeAt place ((HistoryStep.call V random t s c).after k) k := by
  obtain ⟨v, hv⟩ := (within_apply (V := V) (t := t) (s := s) c).state { k with random := random }
  rw [HistoryStep.after, hv]
  exact (set_ne hne V.process v _).trans ⟨fun _ _ _ => rfl, fun _ => rfl⟩

/-- A call on a subject at the place does the same in both. -/
theorem call_eq (h : AlikeAt place k k') (hplace : cacheKey t s = place) (V : Instance π)
    (random : ℕ → UInt8) (c : SubjectCall) :
    (EStateM.split (c.apply V t s { k with random := random })).1 =
        (EStateM.split (c.apply V t s { k' with random := random })).1 ∧
      AlikeAt place ((HistoryStep.call V random t s c).after k)
        ((HistoryStep.call V random t s c).after k') := by
  have hview : (subjectLens V.process t s).get { k with random := random } =
      (subjectLens V.process t s).get { k' with random := random } := by
    simp [subjectLens, h.rows t s hplace, hplace, h.caches]
  obtain ⟨r, v, hk, hk'⟩ := (within_apply c).agree hview
  have hrandom : AlikeAt place { k with random := random } { k' with random := random } :=
    ⟨h.rows, h.caches⟩
  simp only [HistoryStep.after, hk, hk', true_and]
  exact hrandom.set V.process t s v

end AlikeAt

section Isolated

variable {t s t' s' : String} {k k' : Keys π}

/-- What the calls on a subject return does not depend on the calls on one with another place. -/
theorem results_without (hplace : cacheKey t' s' ≠ cacheKey t s) (h : AlikeAt (cacheKey t s) k k')
    (history : List (HistoryStep π)) :
    results t s k history = results t s k' (without t' s' history) := by
  induction history generalizing k k' with
  | nil => rfl
  | cons step rest ih =>
    cases step with
    | clearCache j => exact ih (h.clearCache j)
    | call V random a b c =>
      by_cases hab : a = t' ∧ b = s'
      · -- the call is left out, and it is not on the subject
        obtain ⟨rfl, rfl⟩ := hab
        have hno : ¬ (a = t ∧ b = s) := by
          rintro ⟨rfl, rfl⟩
          exact hplace rfl
        have hout : without a b (.call V random a b c :: rest) = without a b rest :=
          List.filter_cons_of_neg (by simp [HistoryStep.on])
        rw [results, HistoryStep.result?, if_neg hno, hout]
        exact ih ((AlikeAt.after_ne hplace V random c k).trans h)
      · have hin : without t' s' (.call V random a b c :: rest) =
            .call V random a b c :: without t' s' rest :=
          List.filter_cons_of_pos (by simp [HistoryStep.on, hab])
        rw [hin, results, results]
        by_cases hp : cacheKey a b = cacheKey t s
        · obtain ⟨hr, halike⟩ := h.call_eq hp V random c
          rw [ih halike, HistoryStep.result?, HistoryStep.result?, hr]
        · have hno : ¬ (a = t ∧ b = s) := by
            rintro ⟨rfl, rfl⟩
            exact hp rfl
          rw [HistoryStep.result?, HistoryStep.result?, if_neg hno, if_neg hno]
          have hk := AlikeAt.after_ne hp V random c k
          have hk' := AlikeAt.after_ne hp V random c k'
          rw [ih (hk.trans (h.trans hk'.symm))]

/-- A shredder of a process whose key store does not hide the keys, on a database that works. -/
def openInstance (j : π) : Instance π :=
  ⟨j, ⟨fun _ dek => .ok (dek, 1), fun _ wrapped _ => .ok wrapped⟩, Vault.crypto, none, none⟩

/-- No keys yet. -/
def noKeys (π : Type) : Keys π := ⟨fun _ _ => none, fun _ _ => none, fun _ => 0⟩

/-- Something is encrypted for one subject, and then decrypted for another. -/
def crossing (j : π) (t s t' s' : String) : List (HistoryStep π) :=
  [.call (openInstance j) (fun _ => 0) t' s' (.encryptField []),
    .call (openInstance j) (fun _ => 0) t s (.decryptField [])]

theorem results_crossing (j : π) (hne : ¬ (t' = t ∧ s' = s))
    (hplace : cacheKey t' s' = cacheKey t s) :
    results t s (noKeys π) (crossing j t s t' s') ≠
      results t s (noKeys π) (without t' s' (crossing j t s t' s')) := by
  have hne' : ¬ (t = t' ∧ s = s') := fun h => hne ⟨h.1.symm, h.2.symm⟩
  have hout : without t' s' (crossing j t s t' s') =
      [.call (openInstance j) (fun _ => 0) t s (.decryptField [])] := by
    rw [crossing, without, List.filter_cons_of_neg (by simp [HistoryStep.on]),
      List.filter_cons_of_pos (by simp [HistoryStep.on, hne']), List.filter_nil]
  -- the first call leaves its key at the place of the second subject
  have hcached : ((HistoryStep.call (openInstance j) (fun _ => 0) t' s' (.encryptField [])).after
      (noKeys π)).caches j (cacheKey t s) = some ((List.range 32).map fun _ => 0) := by
    rw [← hplace]
    exact if_pos ⟨rfl, rfl⟩
  rw [hout]
  simp only [crossing, results, HistoryStep.result?, if_neg hne, and_self, if_true]
  generalize (HistoryStep.call (openInstance j) (fun _ => 0) t' s' (.encryptField [])).after
    (noKeys π) = k at hcached
  have hfirst : (EStateM.split ((SubjectCall.decryptField []).apply (openInstance j) t s
      { k with random := fun _ => 0 })).1 =
      .error (.wrap "empty ciphertext" (.sentinel .cryptoIntegrity)) := by
    simp [SubjectCall.apply, Instance.decryptField, EStateM.bind_apply, cacheGet, openInstance,
      hcached, aesGCMOpenField, EStateM.ofExcept, EStateM.split]
  rw [hfirst]
  intro h
  cases h

/-- **The calls on a subject are unaffected by those on another one if and only if the two have
different places in the cache.** -/
theorem isolated_iff [Inhabited π] (hne : ¬ (t' = t ∧ s' = s)) :
    (∀ (k : Keys π) (history : List (HistoryStep π)), (∀ j key, k.caches j key = none) →
      results t s k history = results t s k (without t' s' history)) ↔
      cacheKey t' s' ≠ cacheKey t s := by
  constructor
  · intro h hplace
    exact results_crossing default hne hplace (h (noKeys π) _ fun _ _ => rfl)
  · intro hplace k history _
    exact results_without hplace ⟨fun _ _ _ => rfl, fun _ => rfl⟩ history

end Isolated

/-- Two subjects of one tenant. -/
theorem isolated_iff_alice_bob : ¬ ("acme" = "acme" ∧ "bob" = "alice") ∧
    results "acme" "alice" (noKeys Unit) (crossing () "acme" "alice" "acme" "bob") =
      results "acme" "alice" (noKeys Unit)
        (without "acme" "bob" (crossing () "acme" "alice" "acme" "bob")) :=
  ⟨by decide, (isolated_iff (by decide)).2 (by decide) _ _ fun _ _ => rfl⟩

/-- The subject `b|c` of the tenant `a` has no key, but decrypts what was encrypted for the subject
`c` of the tenant `a|b`. -/
theorem isolation_broken :
    ∃ (sealed : Bytes) (history : List (HistoryStep Unit)),
      results "a|b" "c" (noKeys Unit) history = [.ok (some sealed)] ∧
      results "a" "b|c" (noKeys Unit) history = [.ok (some [5])] ∧
      results "a" "b|c" (noKeys Unit) (without "a|b" "c" history) =
        [.error (.text "shred: no DEK for subject \"b|c\"")] := by
  refine ⟨wireV1AESGCM :: (List.replicate nonceSize 0 ++
    Vault.crypto.gcmSeal (List.replicate 32 0) [] [5]),
    [.call (openInstance ()) (fun _ => 0) "a|b" "c" (.encryptField [5]),
      .call (openInstance ()) (fun _ => 0) "a" "b|c" (.decryptField
        (wireV1AESGCM :: (List.replicate nonceSize 0 ++
          Vault.crypto.gcmSeal (List.replicate 32 0) [] [5])))], ?_, ?_, ?_⟩
  all_goals decide +kernel

end Shred

end EventStore
