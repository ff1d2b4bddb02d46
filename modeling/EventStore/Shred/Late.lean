import Mathlib.Data.Fintype.Basic
import EventStore.Shred.Permanence

/-!
# Calls after a forget

A call of `EncryptField` or `DecryptField` that begins after `ForgetSubject` has returned should
fail.  `ForgetSubject` updates the row of the subject and then takes the key out of the cache of its
process.  A later call succeeds if it finds a key in the cache, or no row in the table, and so it
does when

* the subject had no row: there was nothing to update, and the next `EncryptField` makes a key;
* a call that had read the row, or that had found none, was still on its way to the cache: it puts
  its key there after the eviction;
* another subject has the same place in the cache, since `cacheKey` joins two strings.

`Calm` excludes the three, in the state before the step in question, and then (`late_call_fails`)
**every later call of the process fails, `DecryptField` with `ErrShredded`**, whatever else goes on
in this and in other processes.
-/

namespace EventStore

namespace Shred

variable {ι π σ τ α β : Type} [DecidableEq ι] [DecidableEq π] {K : Kms.KeyStore σ} {G : Crypto}
  {p j : π} {t u t' u' : String} {d : Deployment π σ τ} {s s' : KeyThreads ι π σ τ}
  {l : ThreadStep ι (KeyCall π)}

/-- The subject is shredded, and its place in the cache of the process is empty. -/
structure GoneAt (p : π) (t u : String) (d : Deployment π σ τ) : Prop where
  shredded : Shredded t u d
  cache : d.caches p (cacheKey t u) = none

/-- The call uses the key of the subject in the process. -/
def KeyCall.uses (p : π) (t u : String) : KeyCall π → Prop
  | .encryptField j t' u' _ | .decryptField j t' u' _ | .ensureSubjectKey j t' u' =>
    j = p ∧ t' = t ∧ u' = u
  | _ => False

/-- A call at this operation has read the table and not yet written the cache: it unwraps the key it
has found, or it generates, wraps and stores a fresh one, or it has a key to put into the cache. -/
def KeyAccess.holds : KeyAccess π → Bool
  | .readRandom n => n == 32
  | .wrapDEK .. | .unwrapDEK .. | .upsertSubjectKey .. | .cacheSet .. => true
  | _ => false

/-- A call that uses the subject is between its read of the table and its write of the cache. -/
def Holding (p : π) (t u : String) (s : KeyThreads ι π σ τ) (i : ι) : Prop :=
  ∃ c q a, s.calls i = some (c, q) ∧ c.uses p t u ∧ q.head? = some a ∧ a.holds = true

/-- The steps after which later calls fail: no other subject with the same place in the cache is
used, `ForgetSubject` meets a row, and it evicts the key while no call is on its way to the
cache. -/
def Calm (p : π) (t u : String) (s : KeyThreads ι π σ τ) : ThreadStep ι (KeyCall π) → Prop
  | .begin _ c => ∀ t' u', c.uses p t' u' → cacheKey t' u' = cacheKey t u → t' = t ∧ u' = u
  | .step i => ∀ q, s.calls i = some (.forgetSubject p t u, q) →
      (q.head? = some (.forgetSubject t u) → s.shared.faults 0 = none →
        s.shared.table.get t u ≠ none) ∧
      (q.head? = some (.cacheForget p t u) → ∀ k, ¬ Holding p t u s k)

section Decidable

variable (p t u)

instance (c : KeyCall π) : Decidable (c.uses p t u) :=
  match c with
  | .encryptField j t' u' _ | .decryptField j t' u' _ | .ensureSubjectKey j t' u' =>
    inferInstanceAs (Decidable (j = p ∧ t' = t ∧ u' = u))
  | .forgetSubject .. | .clearCache _ | .rewrapDEKs .. | .rotateKEK _ => isFalse id

/-- The subject a call uses in the process. -/
def KeyCall.subject? : KeyCall π → Option (String × String)
  | .encryptField j t' u' _ | .decryptField j t' u' _ | .ensureSubjectKey j t' u' =>
    if j = p then some (t', u') else none
  | _ => none

variable {p t u} in
theorem KeyCall.uses_iff {c : KeyCall π} : c.uses p t u ↔ c.subject? p = some (t, u) := by
  cases c <;> simp [KeyCall.uses, KeyCall.subject?]

instance (s : KeyThreads ι π σ τ) (i : ι) : Decidable (Holding p t u s i) :=
  decidable_of_iff (∃ x ∈ s.calls i, x.1.uses p t u ∧ ∃ a ∈ x.2.head?, a.holds = true) <| by
    constructor
    · rintro ⟨⟨c, q⟩, hi, hu, a, ha, hh⟩
      exact ⟨c, q, a, hi, hu, ha, hh⟩
    · rintro ⟨c, q, a, hi, hu, ha, hh⟩
      exact ⟨(c, q), hi, hu, a, ha, hh⟩

instance [Fintype ι] (s : KeyThreads ι π σ τ) (l : ThreadStep ι (KeyCall π)) :
    Decidable (Calm p t u s l) :=
  match l with
  | .begin _ c =>
    decidable_of_iff (∀ x ∈ c.subject? p, cacheKey x.1 x.2 = cacheKey t u → x.1 = t ∧ x.2 = u) <| by
      constructor
      · intro h t' u' hu
        exact h (t', u') (KeyCall.uses_iff.1 hu)
      · intro h x hx
        exact h x.1 x.2 (KeyCall.uses_iff.2 hx)
  | .step i =>
    decidable_of_iff (∀ x ∈ s.calls i, x.1 = .forgetSubject p t u →
      (x.2.head? = some (.forgetSubject t u) → s.shared.faults 0 = none →
        s.shared.table.get t u ≠ none) ∧
      (x.2.head? = some (.cacheForget p t u) → ∀ k, ¬ Holding p t u s k)) <| by
      constructor
      · intro h q hq
        exact h _ hq rfl
      · rintro h ⟨c, q⟩ hx rfl
        exact h q hx

end Decidable

/-! ### The cache -/

/-- The operation does not write the place of the subject in the cache. -/
def Elsewhere (p : π) (t u : String) : KeyAccess π → Prop
  | .cacheSet j t' u' _ => ¬ (j = p ∧ cacheKey t' u' = cacheKey t u)
  | _ => True

omit [DecidableEq π] in
@[simp] theorem caches_callKMS (x : EStateM Err σ α) : (d.callKMS x).2.caches = d.caches := by
  unfold Deployment.callKMS
  cases x d.kms <;> rfl

omit [DecidableEq π] in
@[simp] theorem caches_query (x : α) (T : KeyTable τ) : (d.query x T).2.caches = d.caches := by
  unfold Deployment.query
  cases d.faults 0 <;> rfl

/-- A place in a cache that is not written stays empty. -/
theorem cache_act (a : KeyAccess π) (ha : Elsewhere p t u a)
    (h : d.caches p (cacheKey t u) = none) :
    (Deployment.act K a d).2.caches p (cacheKey t u) = none := by
  cases a with
  | cacheGet | readRandom => exact h
  | cacheSet j t' u' dek =>
    exact (if_neg fun hc => ha ⟨hc.1.symm, hc.2.symm⟩).trans h
  | cacheForget j t' u' =>
    simp only [Deployment.act, Deployment.setCache, h, ite_self]
  | newCache j => simp only [Deployment.act, h, ite_self]
  | getSubjectKey | upsertSubjectKey | forgetSubject | listStaleSubjectKeys =>
    simp only [Deployment.act, caches_query, h]
  | wrapDEK | unwrapDEK | currentKEKVersion | rotateKEK =>
    simp only [Deployment.act, caches_callKMS, h]

theorem GoneAt.act (a : KeyAccess π) (d : Deployment π σ τ) (ha : Elsewhere p t u a)
    (h : GoneAt p t u d) : GoneAt p t u (Deployment.act K a d).2 :=
  ⟨h.shredded.act a, cache_act a ha h.cache⟩

/-! ### Calls on other subjects -/

section Elsewhere

open KeyProg

omit [DecidableEq π] in
theorem createSubjectKey_elsewhere (h : ¬ (j = p ∧ cacheKey t' u' = cacheKey t u)) :
    (createSubjectKey j t' u' : KeyProg π τ Bytes).Only (Elsewhere p t u) := by
  refine ⟨trivial, fun dek => ⟨trivial, fun wrapped => ?_⟩⟩
  cases wrapped with
  | error e => trivial
  | ok w =>
    refine ⟨trivial, fun stored => ?_⟩
    cases stored with
    | error e => trivial
    | ok => exact ⟨h, fun _ => trivial⟩

omit [DecidableEq π] in
theorem unwrapSubjectKey_elsewhere (h : ¬ (j = p ∧ cacheKey t' u' = cacheKey t u)) (row : KeyRow τ)
    (e : Err) : (unwrapSubjectKey j t' u' row e : KeyProg π τ Bytes).Only (Elsewhere p t u) := by
  refine ⟨trivial, fun unwrapped => ?_⟩
  cases unwrapped with
  | error e' => trivial
  | ok dek => exact ⟨h, fun _ => trivial⟩

omit [DecidableEq π] in
theorem ensureSubjectKey_elsewhere (h : ¬ (j = p ∧ cacheKey t' u' = cacheKey t u)) :
    (ensureSubjectKey j t' u' : KeyProg π τ Bytes).Only (Elsewhere p t u) := by
  refine ⟨trivial, fun cached => ?_⟩
  cases cached with
  | some dek => trivial
  | none =>
    refine ⟨trivial, fun found => ?_⟩
    rcases found with e | _ | row
    · trivial
    · exact createSubjectKey_elsewhere h
    · exact Prog.only_ite trivial (unwrapSubjectKey_elsewhere h row _)

omit [DecidableEq π] in
theorem sealField_elsewhere (dek pt : Bytes) :
    (sealField G dek pt : KeyProg π τ Bytes).Only (Elsewhere p t u) :=
  (Prog.only_ofExcept _).bind fun _ => ⟨trivial, fun _ => trivial⟩

omit [DecidableEq π] in
theorem decryptField_elsewhere (h : ¬ (j = p ∧ cacheKey t' u' = cacheKey t u)) (sealed : Bytes) :
    (decryptField G j t' u' sealed : KeyProg π τ Bytes).Only (Elsewhere p t u) := by
  refine ⟨trivial, fun cached => ?_⟩
  cases cached with
  | some dek => exact Prog.only_ofExcept _
  | none =>
    refine ⟨trivial, fun found => ?_⟩
    rcases found with e | _ | row
    · trivial
    · trivial
    · exact Prog.only_ite trivial
        ((unwrapSubjectKey_elsewhere h row _).bind fun _ => Prog.only_ofExcept _)

omit [DecidableEq π] in
theorem rewrapLoop_elsewhere {current : UInt32} {pageSize : ℤ} (budget : ℕ)
    (page : List (KeyRow τ)) (total : ℕ) :
    (rewrapLoop t' current pageSize budget page total : KeyProg π τ _).Only (Elsewhere p t u) := by
  induction budget generalizing page total with
  | zero => cases page <;> trivial
  | succ budget ih =>
    cases page with
    | nil =>
      refine ⟨trivial, fun stale => ?_⟩
      rcases stale with e | _ | ⟨row, rows⟩
      · trivial
      · trivial
      · exact ih _ _
    | cons row page =>
      refine ⟨trivial, fun unwrapped => ?_⟩
      cases unwrapped with
      | error e => trivial
      | ok dek =>
        refine ⟨trivial, fun wrapped => ?_⟩
        cases wrapped with
        | error e => trivial
        | ok w =>
          refine ⟨trivial, fun stored => ?_⟩
          cases stored with
          | error e => trivial
          | ok => exact ih _ _

omit [DecidableEq π] in
/-- A call that does not use a subject with that place in the cache leaves the place alone. -/
theorem prog_elsewhere {c : KeyCall π}
    (h : ∀ t' u', c.uses p t' u' → cacheKey t' u' ≠ cacheKey t u) :
    (c.prog G : KeyProg π τ KeyReply).Only (Elsewhere p t u) := by
  cases c with
  | encryptField j t' u' pt =>
    have hne : ¬ (j = p ∧ cacheKey t' u' = cacheKey t u) := fun hc => h t' u' ⟨hc.1, rfl, rfl⟩ hc.2
    exact ((ensureSubjectKey_elsewhere hne).bind fun dek => sealField_elsewhere dek pt).bind
      fun _ => trivial
  | decryptField j t' u' ct =>
    have hne : ¬ (j = p ∧ cacheKey t' u' = cacheKey t u) := fun hc => h t' u' ⟨hc.1, rfl, rfl⟩ hc.2
    exact (decryptField_elsewhere hne ct).bind fun _ => trivial
  | ensureSubjectKey j t' u' =>
    have hne : ¬ (j = p ∧ cacheKey t' u' = cacheKey t u) := fun hc => h t' u' ⟨hc.1, rfl, rfl⟩ hc.2
    exact (ensureSubjectKey_elsewhere hne).bind fun _ => trivial
  | forgetSubject j t' u' =>
    refine ⟨trivial, fun forgotten => ?_⟩
    cases forgotten with
    | error e => trivial
    | ok => exact ⟨trivial, fun _ => trivial⟩
  | clearCache j => exact ⟨trivial, fun _ => trivial⟩
  | rewrapDEKs t' pageSize budget =>
    refine Prog.Only.bind ⟨trivial, fun current => ?_⟩ fun _ => trivial
    cases current with
    | error e => trivial
    | ok current => exact Prog.only_ite trivial (rewrapLoop_elsewhere budget _ _)
  | rotateKEK t' =>
    exact ⟨trivial, fun version => (Prog.only_ofExcept version).bind fun _ => trivial⟩

end Elsewhere

/-! ### Later calls on the subject -/

section Subject

open KeyProg

/-- The operation looks for the key of the subject. -/
def Looks (p : π) (t u : String) (a : KeyAccess π) : Prop :=
  a = .cacheGet p t u ∨ a = .getSubjectKey t u

/-- The database fails with such errors only. -/
def FaultsIn (F : String → Prop) (d : Deployment π σ τ) : Prop :=
  ∀ n msg, d.faults n = some msg → F msg

omit [DecidableEq π] in
theorem faultsIn_query {F : String → Prop} (h : FaultsIn F d) (x : α) (T : KeyTable τ) :
    FaultsIn F (d.query x T).2 := by
  unfold Deployment.query
  cases d.faults 0 <;> exact fun n => h (n + 1)

omit [DecidableEq π] in
theorem faultsIn_callKMS {F : String → Prop} (h : FaultsIn F d) (x : EStateM Err σ α) :
    FaultsIn F (d.callKMS x).2 := by
  unfold Deployment.callKMS
  cases x d.kms <;> exact h

theorem FaultsIn.act {F : String → Prop} (a : KeyAccess π) (d : Deployment π σ τ)
    (h : FaultsIn F d) : FaultsIn F (Deployment.act K a d).2 := by
  cases a with
  | cacheGet | cacheSet | cacheForget | newCache | readRandom => exact h
  | getSubjectKey | upsertSubjectKey | forgetSubject | listStaleSubjectKeys =>
    exact faultsIn_query h _ _
  | wrapDEK | unwrapDEK | currentKEKVersion | rotateKEK => exact faultsIn_callKMS h _

/-- The program, started when the key is gone, looks for it and ends with `Q`. -/
def EndsLate (K : Kms.KeyStore σ) (p : π) (t u : String) (F : String → Prop)
    (Q : Except Err α → Prop) (q : KeyProg π τ α) : Prop :=
  q.Guards (Deployment.act (π := π) (τ := τ) K) (Looks p t u)
    (fun d => GoneAt p t u d ∧ FaultsIn F d) Q

variable {F : String → Prop} {Q : Except Err α → Prop}

/-- A later call finds the shredded row. -/
theorem endsLate_get {g : Except Err (Option (KeyRow τ)) → KeyProg π τ α}
    (herr : ∀ msg, F msg → EndsLate K p t u F Q (g (.error (.text msg))))
    (hrow : ∀ row, row.shreddedAt.isSome = true → EndsLate K p t u F Q (g (.ok (some row)))) :
    EndsLate K p t u F Q (getSubjectKey t u >>= g) := by
  intro d hd
  refine ⟨Or.inr rfl, ⟨hd.1.act _ _ trivial, hd.2.act _ _⟩, ?_⟩
  obtain ⟨row, hget, hsh⟩ := hd.1.shredded
  simp only [Deployment.act, Deployment.query, hget]
  cases hfault : d.faults 0 with
  | some msg => exact herr msg (hd.2 0 msg hfault)
  | none => exact hrow row hsh

/-- A later call misses the cache. -/
theorem endsLate_cacheGet {f : Option Bytes → KeyProg π τ α} (h : EndsLate K p t u F Q (f none)) :
    EndsLate K p t u F Q (KeyProg.cacheGet p t u >>= f) := by
  intro d hd
  have hmiss : (Deployment.act K (.cacheGet p t u) d).1 = none := hd.1.cache
  rw [← hmiss] at h
  exact ⟨Or.inl rfl, hd, h⟩

theorem ensureSubjectKey_late :
    EndsLate K p t u F (fun r => ∃ e, r = .error e)
      (ensureSubjectKey p t u : KeyProg π τ Bytes) := by
  refine endsLate_cacheGet (endsLate_get (fun msg _ => ⟨_, rfl⟩) fun row hsh => ?_)
  simp only [hsh, if_true]
  exact ⟨_, rfl⟩

theorem encryptField_late (pt : Bytes) :
    EndsLate K p t u F (fun r => ∃ e, r = .error e)
      (encryptField G p t u pt : KeyProg π τ Bytes) := by
  refine ensureSubjectKey_late.bind (fun dek h => ?_) fun e _ => ⟨e, rfl⟩
  obtain ⟨e, he⟩ := h
  cases he

/-- `DecryptField` says `ErrShredded`, unless the database fails. -/
theorem decryptField_late (sealed : Bytes) :
    EndsLate K p t u F
      (fun r => r = .error (.sentinel .shredded) ∨ ∃ msg, F msg ∧ r = .error (.text msg))
      (decryptField G p t u sealed : KeyProg π τ Bytes) := by
  refine endsLate_cacheGet (endsLate_get (fun msg hF => Or.inr ⟨msg, hF, rfl⟩) fun row hsh => ?_)
  simp only [hsh, if_true]
  exact Or.inl rfl

/-- How a later call ends: with an error, which for `DecryptField` is `ErrShredded` or one of the
database. -/
def Refused (F : String → Prop) (c : KeyCall π) (r : Except Err KeyReply) : Prop :=
  ∃ e, r = .error e ∧ ∀ j t u ct, c = .decryptField j t u ct →
    e = .sentinel .shredded ∨ ∃ msg, F msg ∧ e = .text msg

theorem prog_late {c : KeyCall π} (hc : c.uses p t u) :
    EndsLate K p t u F (Refused F c) (c.prog G : KeyProg π τ KeyReply) := by
  cases c with
  | encryptField j t' u' pt =>
    obtain ⟨rfl, rfl, rfl⟩ := hc
    refine (encryptField_late pt).bind (fun b h => ?_) fun e _ => ⟨e, rfl, fun _ _ _ _ h => ?_⟩
    · obtain ⟨e, he⟩ := h
      cases he
    · cases h
  | decryptField j t' u' ct =>
    obtain ⟨rfl, rfl, rfl⟩ := hc
    refine (decryptField_late ct).bind (fun b h => ?_) fun e h => ⟨e, rfl, fun _ _ _ _ _ => ?_⟩
    · rcases h with h | ⟨msg, -, h⟩ <;> cases h
    · rcases h with h | ⟨msg, hF, h⟩
      · exact Or.inl (Except.error.inj h)
      · exact Or.inr ⟨msg, hF, Except.error.inj h⟩
  | ensureSubjectKey j t' u' =>
    obtain ⟨rfl, rfl, rfl⟩ := hc
    refine ensureSubjectKey_late.bind (fun b h => ?_) fun e _ => ⟨e, rfl, fun _ _ _ _ h => ?_⟩
    · obtain ⟨e, he⟩ := h
      cases he
    · cases h
  | forgetSubject | clearCache | rewrapDEKs | rotateKEK => exact absurd hc id

end Subject

/-! ### Calls in flight -/

section InFlight

open KeyProg

/-- What is left of a call does not put the key back, unless the call is on its way to the cache. -/
def Settled (K : Kms.KeyStore σ) (p : π) (t u : String) (q : KeyProg π τ α) : Prop :=
  (∀ a, q.head? = some a → a.holds = false) →
    q.Guards (Deployment.act (π := π) (τ := τ) K) (fun _ => True) (GoneAt p t u) fun _ => True

/-- A call on its way to the cache. -/
theorem settled_holds {a : KeyAccess π} {next : a.Answer τ → KeyProg π τ α} (ha : a.holds = true)
    (hnext : ∀ r, (next r).Always (Settled K p t u)) :
    (Prog.access a next : KeyProg π τ α).Always (Settled K p t u) := by
  refine ⟨fun h => ?_, hnext⟩
  rw [h a rfl] at ha
  cases ha

theorem settled_only {q : KeyProg π τ α} (h : q.Only (Elsewhere p t u)) :
    q.Always (Settled K p t u) :=
  (h.guards (GoneAt.act (K := K))).imp fun _ hq _ => hq

theorem createSubjectKey_settled :
    (createSubjectKey p t u : KeyProg π τ Bytes).Always (Settled K p t u) := by
  refine settled_holds rfl fun dek => settled_holds rfl fun wrapped => ?_
  cases wrapped with
  | error e => exact fun _ => trivial
  | ok w =>
    refine settled_holds rfl fun stored => ?_
    cases stored with
    | error e => exact fun _ => trivial
    | ok => exact settled_holds rfl fun _ _ => trivial

theorem unwrapSubjectKey_settled (row : KeyRow τ) (e : Err) :
    (unwrapSubjectKey p t u row e : KeyProg π τ Bytes).Always (Settled K p t u) := by
  refine settled_holds rfl fun unwrapped => ?_
  cases unwrapped with
  | error e' => exact fun _ => trivial
  | ok dek => exact settled_holds rfl fun _ _ => trivial

/-- What ends late does not put the key back. -/
theorem EndsLate.settled {Q : Except Err α → Prop} {q : KeyProg π τ α}
    (h : EndsLate K p t u (fun _ => True) Q q) : Settled K p t u q := by
  have hI : (fun d : Deployment π σ τ => GoneAt p t u d ∧ FaultsIn (fun _ => True) d) =
      GoneAt p t u := by
    funext d
    simp [FaultsIn]
  intro _
  unfold EndsLate at h
  rw [hI] at h
  exact h.mono (fun _ _ => trivial) fun _ _ => trivial

/-- The cache is looked up, and then the table. -/
theorem settled_lookup {f : Option Bytes → KeyProg π τ α}
    {g : Except Err (Option (KeyRow τ)) → KeyProg π τ α} (hf : f none = getSubjectKey t u >>= g)
    (hlate : EndsLate K p t u (fun _ => True) (fun _ => True) (getSubjectKey t u >>= g))
    (hhit : ∀ dek, (f (some dek)).Always (Settled K p t u))
    (hgot : ∀ r, (g r).Always (Settled K p t u)) :
    (KeyProg.cacheGet p t u >>= f).Always (Settled K p t u) := by
  have hmiss : (f none).Always (Settled K p t u) := by
    rw [hf]
    exact ⟨hlate.settled, hgot⟩
  refine ⟨(endsLate_cacheGet (hf ▸ hlate)).settled, fun cached => ?_⟩
  cases cached with
  | some dek => exact hhit dek
  | none => exact hmiss

theorem ensureSubjectKey_settled :
    (ensureSubjectKey p t u : KeyProg π τ Bytes).Always (Settled K p t u) := by
  refine settled_lookup rfl (endsLate_get (fun msg _ => trivial) fun row hsh => ?_)
    (fun dek _ => trivial) fun found => ?_
  · simp only [hsh, if_true]
    trivial
  · rcases found with e | _ | row
    · exact fun _ => trivial
    · exact createSubjectKey_settled
    · exact Prog.always_ite (fun _ => trivial) (unwrapSubjectKey_settled row _)

/-- What follows a settled program and does not write the cache. -/
theorem settled_bind {q : KeyProg π τ α} {f : α → KeyProg π τ β}
    (hq : q.Always (Settled K p t u)) (hf : ∀ x, (f x).Only (Elsewhere p t u)) :
    (q >>= f).Always (Settled K p t u) := by
  refine hq.bind (fun e _ => trivial) (fun a next h hhead => ?_) fun x => settled_only (hf x)
  have hguards := h fun a' ha' => hhead a' ha'
  exact hguards.bind (fun x _ => ((hf x).guards GoneAt.act).self) fun _ _ => trivial

theorem decryptField_settled (sealed : Bytes) :
    (decryptField G p t u sealed : KeyProg π τ Bytes).Always (Settled K p t u) := by
  refine settled_lookup rfl (endsLate_get (fun msg _ => trivial) fun row hsh => ?_)
    (fun dek => settled_only (Prog.only_ofExcept _)) fun found => ?_
  · simp only [hsh, if_true]
    trivial
  · rcases found with e | _ | row
    · exact fun _ => trivial
    · exact fun _ => trivial
    · exact Prog.always_ite (fun _ => trivial)
        (settled_bind (unwrapSubjectKey_settled row _) fun _ => Prog.only_ofExcept _)

/-- What is left of a call: if it is one on the subject, then it does not put the key back, unless
it is on its way to the cache; if not, then it does not put it back. -/
def Left (K : Kms.KeyStore σ) (p : π) (t u : String) (c : KeyCall π) (q : KeyProg π τ KeyReply) :
    Prop :=
  (c.uses p t u → ∀ a, q.head? = some a → a.holds = false) →
    q.Guards (Deployment.act (π := π) (τ := τ) K) (fun _ => True) (GoneAt p t u) fun _ => True

theorem prog_left {c : KeyCall π}
    (hc : ∀ t' u', c.uses p t' u' → cacheKey t' u' = cacheKey t u → t' = t ∧ u' = u) :
    (c.prog G : KeyProg π τ KeyReply).Always (Left K p t u c) := by
  by_cases hu : c.uses p t u
  · have hsettled : (c.prog G : KeyProg π τ KeyReply).Always (Settled K p t u) := by
      cases c with
      | encryptField j t' u' pt =>
        obtain ⟨rfl, rfl, rfl⟩ := hu
        exact settled_bind (settled_bind ensureSubjectKey_settled fun dek =>
          sealField_elsewhere dek pt) fun _ => trivial
      | decryptField j t' u' ct =>
        obtain ⟨rfl, rfl, rfl⟩ := hu
        exact settled_bind (decryptField_settled ct) fun _ => trivial
      | ensureSubjectKey j t' u' =>
        obtain ⟨rfl, rfl, rfl⟩ := hu
        exact settled_bind ensureSubjectKey_settled fun _ => trivial
      | forgetSubject | clearCache | rewrapDEKs | rotateKEK => exact absurd hu id
    exact hsettled.imp fun q hq h => hq (h hu)
  · have helsewhere : ∀ t' u', c.uses p t' u' → cacheKey t' u' ≠ cacheKey t u := by
      intro t' u' huse hkey
      obtain ⟨rfl, rfl⟩ := hc t' u' huse hkey
      exact hu huse
    exact ((prog_elsewhere helsewhere).guards GoneAt.act).imp fun q hq _ => hq

end InFlight

/-! ### The invariant -/

/-- No call puts the key back. -/
def KeptGone (K : Kms.KeyStore σ) (p : π) (t u : String) (s : KeyThreads ι π σ τ) : Prop :=
  s.Guarded (Deployment.act K) (fun _ _ _ => True) (GoneAt p t u) fun _ _ _ => True

/-- Where a `ForgetSubject` of the process is, and what holds there. -/
inductive ForgetAt (K : Kms.KeyStore σ) (G : Crypto) (p : π) (t u : String)
    (s : KeyThreads ι π σ τ) : KeyProg π τ KeyReply → Prop
  | begun : ForgetAt K G p t u s ((KeyCall.forgetSubject p t u).prog G)
  | forgotten {next : (KeyAccess.cacheForget p t u).Answer τ → KeyProg π τ KeyReply} :
      (∀ r, next r = .ret .done) → Shredded t u s.shared →
      ForgetAt K G p t u s (.access (.cacheForget p t u) next)
  | returned : KeptGone K p t u s → ForgetAt K G p t u s (.ret .done)
  | failed (e : Err) : ForgetAt K G p t u s (.fail e)

/-- What holds in calm runs. -/
structure CalmInv (K : Kms.KeyStore σ) (G : Crypto) (p : π) (t u : String)
    (s : KeyThreads ι π σ τ) : Prop where
  left : ∀ i c q, s.calls i = some (c, q) → q.Always (Left K p t u c)
  forget : ∀ i q, s.calls i = some (.forgetSubject p t u, q) → ForgetAt K G p t u s q

omit [DecidableEq ι] [DecidableEq π] in
theorem head_prog {c : KeyCall π} (hc : c.uses p t u) {a : KeyAccess π}
    (ha : (c.prog G : KeyProg π τ KeyReply).head? = some a) : a.holds = false := by
  cases c with
  | encryptField | decryptField | ensureSubjectKey =>
    cases ha
    rfl
  | forgetSubject | clearCache | rewrapDEKs | rotateKEK => exact absurd hc id

theorem KeptGone.step (h : KeptGone K p t u s) (hs : (keySystem K G).step s l s')
    (hc : Calm p t u s l) : KeptGone K p t u s' := by
  refine Threads.Guarded.step h hs fun i c hl _ => ?_
  subst hl
  exact (prog_left (K := K) (G := G) hc).self fun hu a ha => head_prog hu ha

/-- The eviction, when no call is on its way to the cache. -/
theorem keptGone_evict {next : (KeyAccess.cacheForget p t u).Answer τ → KeyProg π τ KeyReply}
    {i : ι} (h : CalmInv K G p t u s) (hi : s.calls i = some (.forgetSubject p t u, .access _ next))
    (hnext : ∀ r, next r = .ret .done) (hsh : Shredded t u s.shared)
    (hcalm : ∀ k, ¬ Holding p t u s k) (hs : (keySystem K G).step s (.step i) s') :
    KeptGone K p t u s' := by
  cases Threads.moves hs with
  | step hi' =>
    rw [hi] at hi'
    cases hi'
    refine ⟨⟨hsh.act _, if_pos ⟨rfl, rfl⟩⟩, fun k c q hk => ?_⟩
    rw [Threads.calls_setCall] at hk
    split_ifs at hk with hki
    · cases hk
      rw [hnext]
      trivial
    · refine (h.left k c q hk).self fun hu a ha => ?_
      by_contra hholds
      exact hcalm k ⟨c, q, a, hk, hu, ha, by simpa using hholds⟩

/-- The call that moves is the forget. -/
theorem ForgetAt.move {q : KeyProg π τ KeyReply} {i : ι} (h : CalmInv K G p t u s)
    (hi : s.calls i = some (.forgetSubject p t u, q)) (hq : ForgetAt K G p t u s q)
    (hs : (keySystem K G).step s (.step i) s') (hcalm : Calm p t u s (.step i))
    {q' : KeyProg π τ KeyReply} (hq' : s'.calls i = some (.forgetSubject p t u, q')) :
    ForgetAt K G p t u s' q' := by
  obtain ⟨hrow, hquiet⟩ := hcalm q hi
  cases hq with
  | begun =>
    cases Threads.moves hs with
    | step hi' =>
      rw [hi] at hi'
      cases hi'
      rw [Threads.calls_setCall, if_pos rfl] at hq'
      cases hf : s.shared.faults 0 with
      | some msg =>
        have hact : Deployment.act K (.forgetSubject t u) s.shared =
          (.error (.text msg), s.shared.queried s.shared.table) := Deployment.query_fails hf _ _
        rw [hact] at hq'
        cases hq'
        exact .failed _
      | none =>
        -- the update meets a row, and marks it
        obtain ⟨row, hget⟩ := Option.ne_none_iff_exists'.1 (hrow rfl hf)
        have hact : Deployment.act K (.forgetSubject t u) s.shared = (.ok (),
          s.shared.queried (s.shared.table.forget t u (s.shared.clock 0))) :=
          Deployment.query_ok hf _ _
        rw [hact] at hq'
        cases hq'
        refine .forgotten (fun _ => rfl) ?_
        simp only [hact]
        refine ⟨{ row with dekWrapped := [], shreddedAt := some (s.shared.clock 0) }, ?_, rfl⟩
        simp only [Deployment.queried, KeyTable.get_forget, hget, Option.map_some]
  | forgotten hnext hsh =>
    have hgone := keptGone_evict h hi hnext hsh (hquiet rfl) hs
    cases Threads.moves hs with
    | step hi' =>
      rw [hi] at hi'
      cases hi'
      rw [Threads.calls_setCall, if_pos rfl, hnext] at hq'
      cases hq'
      exact .returned hgone
  | returned hgone =>
    cases Threads.moves hs with
    | step hi' =>
      rw [hi] at hi'
      cases hi'
  | failed e =>
    cases Threads.moves hs with
    | step hi' =>
      rw [hi] at hi'
      cases hi'

/-- Another call moves. -/
theorem ForgetAt.stay {q : KeyProg π τ KeyReply} (hq : ForgetAt K G p t u s q)
    (hs : (keySystem K G).step s l s') (hcalm : Calm p t u s l) : ForgetAt K G p t u s' q := by
  cases hq with
  | begun => exact .begun
  | forgotten hnext hsh => exact .forgotten hnext (hsh.step hs)
  | returned hgone => exact .returned (hgone.step hs hcalm)
  | failed e => exact .failed e

theorem CalmInv.step (h : CalmInv K G p t u s) (hs : (keySystem K G).step s l s')
    (hcalm : Calm p t u s l) : CalmInv K G p t u s' := by
  refine ⟨Threads.always_step h.left hs fun i c hl => ?_, fun i q hi => ?_⟩
  · subst hl
    exact prog_left hcalm
  · -- the call was a forget before, or begins as one
    cases Threads.moves hs with
    | @begin j c hj =>
      have hi' := hi
      rw [Threads.calls_setCall] at hi'
      split_ifs at hi'
      · cases hi'
        exact .begun
      · exact (h.forget i q hi').stay hs hcalm
    | @step j c a next hj =>
      have hi' := hi
      rw [Threads.calls_setCall] at hi'
      split_ifs at hi' with hij
      · subst hij
        cases hi'
        exact (h.forget i _ hj).move h hj hs hcalm hi
      · exact (h.forget i q hi').stay hs hcalm

theorem CalmInv.of_reachable (h : ((keySystem K G).restrict (Calm p t u)).Reachable s) :
    CalmInv K G p t u s := by
  induction h with
  | init hi =>
    obtain ⟨d, -, rfl⟩ := hi
    refine ⟨fun i c q hc => ?_, fun i q hc => ?_⟩ <;> cases hc
  | step _ hs ih => exact ih.step hs.2 hs.1

/-- **A call that begins after `ForgetSubject` has returned fails, whatever else goes on;
`DecryptField` with `ErrShredded`, if the database does not fail.** -/
theorem late_call_fails (hr : ((keySystem K G).restrict (Calm p t u)).Reachable s) {j : ι}
    (hj : s.calls j = some (.forgetSubject p t u, .ret .done)) {i : ι} (hi : s.calls i = none)
    {ls : List (ThreadStep ι (KeyCall π))}
    (hrun : ((keySystem K G).restrict (Calm p t u)).Run s ls s') {c : KeyCall π}
    {q : KeyProg π τ KeyReply} (hc : s'.calls i = some (c, q)) (hu : c.uses p t u) :
    ∃ e d', q.run (Deployment.act K) s'.shared = .error e d' ∧
      ∀ ct, c = .decryptField p t u ct → e = .sentinel .shredded ∨
        ∃ n msg, s.shared.faults n = some msg ∧ e = .text msg := by
  let F : String → Prop := fun msg => ∃ n, s.shared.faults n = some msg
  let Q : ι → KeyCall π → Except Err KeyReply → Prop := fun k c r =>
    s.calls k = none → c.uses p t u → Refused F c r
  have hkept : KeptGone K p t u s := by
    cases (CalmInv.of_reachable hr).forget j _ hj with
    | returned h => exact h
  have hstart : s.Guarded (Deployment.act K) (fun _ _ _ => True)
      (fun d => GoneAt p t u d ∧ FaultsIn F d) Q := by
    refine ⟨⟨hkept.shared, fun n msg hn => ⟨n, hn⟩⟩, fun k c q hk => ?_⟩
    refine ((hkept.calls k c q hk).and FaultsIn.act).mono (fun _ _ => trivial) fun r _ hnone => ?_
    rw [hk] at hnone
    cases hnone
  have hend := hrun.invariant hstart fun s₁ l s₂ h hs => h.step hs.2 fun k c hl _ => ?_
  · have hQ : Refused F c _ := (hend.calls i c q hc).run hend.shared hi hu
    obtain ⟨e, he, hdec⟩ := hQ
    cases hq : q.run (Deployment.act K) s'.shared with
    | ok x d' => rw [hq] at he; cases he
    | error e' d' =>
      rw [hq] at he
      cases he
      refine ⟨_, d', rfl, fun ct hct => ?_⟩
      rcases hdec p t u ct hct with h | ⟨msg, ⟨n, hn⟩, h⟩
      · exact Or.inl h
      · exact Or.inr ⟨n, msg, hn, h⟩
  · -- a call that begins
    subst hl
    by_cases hu' : c.uses p t u
    · exact (prog_late hu').mono (fun _ _ => trivial) fun r hr _ _ => hr
    · have hleft := (prog_left (K := K) (G := G) (τ := τ) hs.1).self fun hu a ha => head_prog hu ha
      exact (hleft.and FaultsIn.act).mono (fun _ _ => trivial) fun _ _ _ hu => absurd hu hu'

/-! ### Later calls that succeed -/

namespace Vault

/-- What a program has returned. -/
def reply? : KeyProg Unit ℕ KeyReply → Option KeyReply
  | .ret r => some r
  | .fail _ | .access .. => none

theorem reply?_eq_some {q : KeyProg Unit ℕ KeyReply} {r : KeyReply} (h : reply? q = some r) :
    q = .ret r := by
  cases q <;> cases h
  rfl

/-- The call and what it has returned. -/
def replied (s : Calls) (i : Fin 5) : Option (KeyCall Unit × Option KeyReply) :=
  (s.calls i).map fun x => (x.1, reply? x.2)

theorem of_replied {s : Calls} {i : Fin 5} {c : KeyCall Unit} {r : KeyReply}
    (h : replied s i = some (c, some r)) : s.calls i = some (c, .ret r) := by
  obtain ⟨⟨c', q⟩, hc, h⟩ := Option.map_eq_some_iff.1 h
  cases h' : reply? q with
  | none => simp [h'] at h
  | some r' =>
    simp only [h', Prod.mk.injEq, Option.some.injEq] at h
    rw [hc, reply?_eq_some h', h.1, h.2]

/-- The subject is forgotten by the call `i`, a later call `j` on it begins, and it returns some
bytes. -/
def Succeeds (i j : Fin 5) (t u : String) (b : Bytes) : Prop :=
  ∃ (s s' : Calls) (ls : List CallStep) (c : KeyCall Unit),
    (keySystem (Kms.inproc crypto) crypto).Reachable s ∧
    s.calls i = some (.forgetSubject () t u, .ret .done) ∧ s.calls j = none ∧
    (keySystem (Kms.inproc crypto) crypto).Run s ls s' ∧
    s'.calls j = some (c, .ret (.bytes b)) ∧ c.uses () t u

theorem succeeds {t u : String} {b : Bytes} (before later : List CallStep) (c : KeyCall Unit)
    (hc : c.uses () t u)
    (h : ((after before).bind fun s => (TS.exec step s later).map fun s' =>
      decide (replied s 3 = some (.forgetSubject () t u, some .done)) && (s.calls 4).isNone &&
        decide (replied s' 4 = some (c, some (.bytes b)))) = some true) :
    Succeeds 3 4 t u b := by
  obtain ⟨s, hs, h⟩ := Option.bind_eq_some_iff.1 h
  obtain ⟨s', hs', h⟩ := Option.map_eq_some_iff.1 h
  simp only [Bool.and_eq_true, decide_eq_true_eq, Option.isNone_iff_eq_none] at h
  obtain ⟨⟨hforget, hnone⟩, hreply⟩ := h
  exact ⟨s, s', later, c, reachable_after hs, of_replied hforget, hnone,
    TS.Run.exec (fun _ _ _ _ h => h) hs', of_replied hreply, hc⟩

/-- Some of the random bytes, from the `n`th on. -/
def bytesFrom (n len : ℕ) : Bytes := (List.range len).map fun i => UInt8.ofNat (n + i)

/-- The byte 5, sealed with the random bytes from the `n`th on: first the key, then the nonce. -/
def sealedFive (n : ℕ) : Bytes :=
  wireV1AESGCM :: (bytesFrom (n + 32) nonceSize ++ crypto.gcmSeal (bytesFrom n 32) [] [5])

end Vault

/-- Three later calls that succeed.  The subject had no row when it was forgotten, and a key is made
for it afterwards.  A `DecryptField` had read the row before, and caches the key after the eviction:
the next one returns the plaintext.  And another subject has the same place in the cache. -/
theorem late_call_succeeds :
    (∃ b, Vault.Succeeds 3 4 "acme" "alice" b) ∧ Vault.Succeeds 3 4 "acme" "alice" [5] ∧
      ∃ b, Vault.Succeeds 3 4 "a" "b|c" b := by
  refine ⟨⟨Vault.sealedFive 0, ?_⟩, ?_, ⟨Vault.sealedFive 44, ?_⟩⟩
  · refine Vault.succeeds (.begin 3 (.forgetSubject () "acme" "alice") :: Vault.steps 3 2)
      (.begin 4 (.encryptField () "acme" "alice" [5]) :: Vault.steps 4 7)
      (.encryptField () "acme" "alice" [5]) ⟨rfl, rfl, rfl⟩ ?_
    decide +kernel
  · refine Vault.succeeds (.begin 0 (.encryptField () "acme" "alice" [5]) :: Vault.steps 0 7 ++
        .begin 1 (.clearCache ()) :: Vault.steps 1 1 ++
        .begin 2 (.decryptField () "acme" "alice" (Vault.sealedFive 0)) :: Vault.steps 2 3 ++
        .begin 3 (.forgetSubject () "acme" "alice") :: Vault.steps 3 2)
      [.step 2, .begin 4 (.decryptField () "acme" "alice" (Vault.sealedFive 0)), .step 4]
      (.decryptField () "acme" "alice" (Vault.sealedFive 0)) ⟨rfl, rfl, rfl⟩ ?_
    decide +kernel
  · refine Vault.succeeds (.begin 0 (.encryptField () "a" "b|c" [5]) :: Vault.steps 0 7 ++
        .begin 3 (.forgetSubject () "a" "b|c") :: Vault.steps 3 2)
      (.begin 1 (.ensureSubjectKey () "a|b" "c") :: Vault.steps 1 6 ++
        .begin 4 (.encryptField () "a" "b|c" [5]) :: Vault.steps 4 2)
      (.encryptField () "a" "b|c" [5]) ⟨rfl, rfl, rfl⟩ ?_
    decide +kernel

/-- The subject is forgotten when nothing else goes on, and a later `DecryptField` is refused. -/
theorem late_call_fails_quiet : ∃ (s' : Vault.Calls) (q : KeyProg Unit ℕ KeyReply),
    s'.calls 4 = some (.decryptField () "acme" "alice" (Vault.sealedFive 0), q) ∧
      ∃ e d', q.run (Deployment.act (Kms.inproc Vault.crypto)) s'.shared = .error e d' ∧
        (e = .sentinel .shredded ∨ ∃ msg, e = .text msg) := by
  let T : TS Vault.Calls Vault.CallStep :=
    (keySystem (Kms.inproc Vault.crypto) Vault.crypto).restrict (Calm () "acme" "alice")
  let calm := TS.guarded (Calm () "acme" "alice") Vault.step
  let before : List Vault.CallStep :=
    .begin 0 (.encryptField () "acme" "alice" [5]) :: Vault.steps 0 7 ++
      .begin 3 (.forgetSubject () "acme" "alice") :: Vault.steps 3 2
  let later : List Vault.CallStep :=
    [.begin 4 (.decryptField () "acme" "alice" (Vault.sealedFive 0)), .step 4]
  have hstep : ∀ (s : Vault.Calls) l s', calm s l = some s' → T.step s l s' :=
    fun _ _ _ h => TS.step_guarded (fun h => h) h
  have hend : ((TS.exec calm (.start Vault.empty) before).bind fun s =>
      (TS.exec calm s later).map fun s' =>
        decide (Vault.replied s 3 = some (.forgetSubject () "acme" "alice", some .done)) &&
          (s.calls 4).isNone && decide ((s'.calls 4).map Prod.fst =
            some (.decryptField () "acme" "alice" (Vault.sealedFive 0)))) = some true := by
    decide +kernel
  obtain ⟨s, hs, hend⟩ := Option.bind_eq_some_iff.1 hend
  obtain ⟨s', hs', hend⟩ := Option.map_eq_some_iff.1 hend
  simp only [Bool.and_eq_true, decide_eq_true_eq, Option.isNone_iff_eq_none] at hend
  obtain ⟨⟨hforget, hnone⟩, hcall⟩ := hend
  obtain ⟨⟨c, q⟩, hc, rfl⟩ := Option.map_eq_some_iff.1 hcall
  have hr : T.Reachable s :=
    TS.Reachable.exec (.init ⟨Vault.empty, trivial, rfl⟩) (fun l _ s s' => hstep s l s') hs
  have hrun : T.Run s later s' := TS.Run.exec (fun l _ s s' => hstep s l s') hs'
  obtain ⟨e, d', hfail, hshredded⟩ :=
    late_call_fails hr (Vault.of_replied hforget) hnone hrun hc ⟨rfl, rfl, rfl⟩
  refine ⟨s', q, hc, e, d', hfail, ?_⟩
  obtain h | ⟨_, msg, _, h⟩ := hshredded _ rfl
  exacts [.inl h, .inr ⟨msg, h⟩]

end Shred

end EventStore
