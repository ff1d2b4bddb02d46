import EventStore.Shred.Calls

/-!
# The life of a key

One shredder with the key store in memory, and one call after the other.  To its caller a subject
has a key in one of three states: not yet made, live, or gone.  Where the key is, which version it
is wrapped with and what the cache holds does not show.

* `Life`, `Lives.next` : these states, and what a call does to them.
* `Holds A n d` : the table, the cache and the key store hold the keys as `A` says, and no tenant
  has more than `n` KEKs and a first one.
* `Holds.next` : **every call keeps it**, `RewrapDEKs` also if it is interrupted.
* `sealed_lifecycle` : so a sealed value is opened until its subject is forgotten, and by nobody
  else.
-/

namespace EventStore

namespace Shred

open Kms (Inproc)

/-! ### The abstract model -/

/-- The key of a subject. -/
inductive Life where
  | unborn
  | live (dek : Bytes)
  | gone
  deriving DecidableEq

/-- The keys of all subjects, by tenant and subject. -/
abbrev Lives := String → String → Life

/-- The key of one subject is set. -/
def Lives.set (A : Lives) (t u : String) (l : Life) : Lives :=
  fun t' u' => if t' = t ∧ u' = u then l else A t' u'

/-- A key is made for a subject that has none. -/
def Life.make (fresh : Bytes) : Life → Life
  | .unborn => .live fresh
  | .live dek => .live dek
  | .gone => .gone

/-- A live key is destroyed. -/
def Life.destroy : Life → Life
  | .unborn => .unborn
  | .live _ => .gone
  | .gone => .gone

/-- What a call does to the keys, where `fresh` is the key it makes, if it makes one. -/
def Lives.next (A : Lives) (fresh : Bytes) : KeyCall Unit → Lives
  | .encryptField _ t u _ | .ensureSubjectKey _ t u => A.set t u ((A t u).make fresh)
  | .forgetSubject _ t u => A.set t u (A t u).destroy
  | .decryptField .. | .clearCache _ | .rewrapDEKs .. | .rotateKEK _ => A

/-- The keys a call makes. -/
def Lives.made (A : Lives) (fresh : Bytes) : KeyCall Unit → List Bytes
  | .encryptField _ t u _ | .ensureSubjectKey _ t u => if A t u = .unborn then [fresh] else []
  | _ => []

section Lives

variable {A : Lives} {t u t' u' : String} {fresh k : Bytes} {l : Life}

theorem Lives.set_same : A.set t u l t u = l := if_pos ⟨rfl, rfl⟩

theorem Lives.set_ne (h : ¬ (t' = t ∧ u' = u)) : A.set t u l t' u' = A t' u' := if_neg h

theorem Lives.set_of_eq (h : A t u = l) : A.set t u l = A := by
  funext t' u'
  unfold Lives.set
  split_ifs with hsame
  · rw [hsame.1, hsame.2, h]
  · rfl

end Lives

/-! ### Where the keys are -/

/-- The bytes a key is made of. -/
def Deployment.freshKey {π σ τ : Type} (d : Deployment π σ τ) : Bytes :=
  (List.range 32).map d.random

variable {τ : Type}

/-- The key of the subject is where its life says. -/
def HoldsKey (G : Crypto) (d : Deployment Unit Inproc τ) (t u : String) : Life → Prop
  | .unborn => d.table.get t u = none ∧ d.caches () (cacheKey t u) = none
  | .live dek =>
    (∃ row, d.table.get t u = some row ∧ row.shreddedAt = none ∧
      Inproc.Unwraps G d.kms t row.dekWrapped row.kekVersion dek) ∧
    (∀ k, d.caches () (cacheKey t u) = some k → k = dek) ∧ dek.length = 32
  | .gone =>
    (∃ row, d.table.get t u = some row ∧ row.shreddedAt.isSome) ∧
    d.caches () (cacheKey t u) = none

/-- The tenant does not have the character that separates it from the subject in the cache. -/
def NoBar (t : String) : Prop := '|' ∉ t.toList

instance (t : String) : Decidable (NoBar t) := inferInstanceAs (Decidable (¬ _))

/-- Two subjects do not share a place in the cache. -/
theorem cacheKey_inj {t u t' u' : String} (ht : NoBar t) (ht' : NoBar t')
    (h : cacheKey t u = cacheKey t' u') : t = t' ∧ u = u' := by
  have hlist : ∀ a b : String, (cacheKey a b).toList = a.toList ++ '|' :: b.toList := by
    intro a b
    simp [cacheKey, String.toList_append]
  -- the tenant is what stands before the first bar
  have htake : ∀ a b : String, NoBar a →
      (cacheKey a b).toList.takeWhile (· ≠ '|') = a.toList := by
    intro a b ha
    have hne : ∀ c ∈ a.toList, decide (c ≠ '|') = true := by
      intro c hc
      exact decide_eq_true fun he => ha (he ▸ hc)
    rw [hlist, List.takeWhile_append_of_pos hne]
    simp
  have htenant : t = t' := by
    rw [← String.toList_inj, ← htake t u ht, ← htake t' u' ht', h]
  subst htenant
  have hsubject := congrArg String.toList h
  rw [hlist, hlist, List.append_cancel_left_eq, List.cons.injEq, String.toList_inj] at hsubject
  exact ⟨rfl, hsubject.2⟩

/-- The keys are where `A` says, no query fails, and every tenant has at most `n` KEKs and a first
one. -/
structure Holds (G : Crypto) (A : Lives) (n : String → ℕ) (d : Deployment Unit Inproc τ) :
    Prop where
  keys : ∀ t u, NoBar t → HoldsKey G d t u (A t u)
  sized : d.kms.Sized
  keks : ∀ t, (d.kms.keks t).length ≤ n t + 1
  faults : ∀ i, d.faults i = none

section Frame

variable {G : Crypto} {A : Lives} {n : String → ℕ} {d d' : Deployment Unit Inproc τ}
  {t u : String} {l : Life}

/-- A key stays where it is if its row and its place in the cache stay and KEKs are only added. -/
theorem HoldsKey.frame (h : HoldsKey G d t u l) (hrow : d'.table.get t u = d.table.get t u)
    (hcache : d'.caches () (cacheKey t u) = d.caches () (cacheKey t u))
    (hgrows : d.kms.Grows d'.kms) : HoldsKey G d' t u l := by
  cases l with
  | unborn => exact ⟨hrow.trans h.1, hcache.trans h.2⟩
  | live dek =>
    obtain ⟨⟨row, hget, hnone, hunwraps⟩, hcached, hlen⟩ := h
    exact ⟨⟨row, hrow.trans hget, hnone, hunwraps.mono hgrows⟩, fun k hk =>
      hcached k (hcache.symm.trans hk), hlen⟩
  | gone =>
    obtain ⟨⟨row, hget, hsome⟩, hcached⟩ := h
    exact ⟨⟨row, hrow.trans hget, hsome⟩, hcache.trans hcached⟩

/-- What else the state has to do with the keys. -/
structure Kept (n : String → ℕ) (d d' : Deployment Unit Inproc τ) : Prop where
  grows : d.kms.Grows d'.kms
  sized : d'.kms.Sized
  keks : ∀ t, (d'.kms.keks t).length ≤ n t + 1
  faults : ∀ i, d'.faults i = none

/-- A change at one subject. -/
theorem Holds.set (h : Holds G A n d) (ht : NoBar t) (hkept : Kept n d d')
    (hrows : ∀ t' u', ¬ (t' = t ∧ u' = u) → d'.table.get t' u' = d.table.get t' u')
    (hcaches : ∀ key, key ≠ cacheKey t u → d'.caches () key = d.caches () key)
    (hkey : HoldsKey G d' t u l) : Holds G (A.set t u l) n d' := by
  refine ⟨fun t' u' ht' => ?_, hkept.sized, hkept.keks, hkept.faults⟩
  by_cases hsame : t' = t ∧ u' = u
  · obtain ⟨rfl, rfl⟩ := hsame
    rwa [Lives.set_same]
  · rw [Lives.set_ne hsame]
    refine (h.keys t' u' ht').frame (hrows t' u' hsame) (hcaches _ ?_) hkept.grows
    exact fun he => hsame (cacheKey_inj ht' ht he)

/-- A change at one subject that its life does not show. -/
theorem Holds.same (h : Holds G A n d) (ht : NoBar t) (hkept : Kept n d d')
    (hrows : ∀ t' u', ¬ (t' = t ∧ u' = u) → d'.table.get t' u' = d.table.get t' u')
    (hcaches : ∀ key, key ≠ cacheKey t u → d'.caches () key = d.caches () key)
    (hkey : HoldsKey G d' t u (A t u)) : Holds G A n d' := by
  have hset := h.set ht hkept hrows hcaches hkey
  rwa [Lives.set_of_eq rfl] at hset

/-- A change that no subject sees. -/
theorem Holds.frame (h : Holds G A n d) (hkept : Kept n d d') (htable : d'.table = d.table)
    (hcaches : d'.caches = d.caches) : Holds G A n d' := by
  refine ⟨fun t u ht => ?_, hkept.sized, hkept.keks, hkept.faults⟩
  exact (h.keys t u ht).frame (by rw [htable]) (by rw [hcaches]) hkept.grows

theorem Holds.kept (h : Holds G A n d) (hkms : d'.kms = d.kms)
    (hfaults : ∀ i, d'.faults i = none) : Kept n d d' :=
  ⟨hkms ▸ Inproc.Grows.refl _, hkms ▸ h.sized, hkms ▸ h.keks, hfaults⟩

/-- A query that changes nothing. -/
theorem Holds.queried (h : Holds G A n d) : Holds G A n (d.queried d.table) :=
  h.frame (h.kept rfl fun i => h.faults (i + 1)) rfl rfl

/-- The key of a subject is put into the cache. -/
theorem Holds.cached (h : Holds G A n d) (ht : NoBar t) {dek : Bytes} (hlive : A t u = .live dek) :
    Holds G A n (d.setCache () (cacheKey t u) (some dek)) := by
  refine h.same (u := u) ht (h.kept rfl h.faults) (fun _ _ _ => rfl) (fun key hne => ?_) ?_
  · exact if_neg fun hc => hne hc.2
  · have hkey := h.keys t u ht
    rw [hlive] at hkey ⊢
    obtain ⟨hrow, -, hlen⟩ := hkey
    refine ⟨hrow, fun k hk => ?_, hlen⟩
    simpa [Deployment.setCache] using hk.symm

/-- A key is written, wrapped as it unwraps in the key store then, for a subject whose row is not
shredded. -/
theorem Holds.upserted (h : Holds G A n d) (ht : NoBar t) (hkept : Kept n d d')
    {w dek : Bytes} {v : UInt32} {now : τ}
    (htable : d'.table = d.table.upsert t u w v now) (hcaches : d'.caches = d.caches)
    (hunwraps : Inproc.Unwraps G d'.kms t w v dek) (hlen : dek.length = 32)
    (hlife : A t u = .unborn ∨ A t u = .live dek) : Holds G (A.set t u (.live dek)) n d' := by
  refine h.set ht hkept (fun t' u' hne => ?_) (fun key _ => by rw [hcaches]) ?_
  · rw [htable, KeyTable.get_upsert_ne hne]
  · have hkey := h.keys t u ht
    rcases hlife with hlife | hlife
    · rw [hlife] at hkey
      refine ⟨⟨_, by rw [htable, KeyTable.get_upsert], ?_, ?_⟩, fun k hk => ?_, hlen⟩
      · simp [KeyTable.written, hkey.1]
      · simpa [KeyTable.written, hkey.1] using hunwraps
      · rw [hcaches, hkey.2] at hk
        cases hk
    · rw [hlife] at hkey
      obtain ⟨⟨row, hget, hnone, -⟩, hcached, -⟩ := hkey
      refine ⟨⟨_, by rw [htable, KeyTable.get_upsert], ?_, ?_⟩, fun k hk => ?_, hlen⟩
      · simp [KeyTable.written, hget, hnone]
      · simpa [KeyTable.written, hget] using hunwraps
      · exact hcached k (hcaches ▸ hk)

/-- A key store call that only adds KEKs. -/
theorem Holds.kms (h : Holds G A n d) {x : Inproc} (hgrows : d.kms.Grows x) (hsized : x.Sized)
    (hkeks : ∀ t, (x.keks t).length ≤ n t + 1) : Holds G A n { d with kms := x } :=
  h.frame ⟨hgrows, hsized, hkeks, h.faults⟩ rfl rfl

theorem Holds.random (h : Holds G A n d) (random : ℕ → UInt8) :
    Holds G A n { d with random := random } :=
  h.frame (h.kept rfl h.faults) rfl rfl

end Frame

/-! ### The methods -/

/-- A method on its own, with the key store in memory. -/
abbrev alone {α : Type} (G : Crypto) (p : KeyProg Unit τ α) (d : Deployment Unit Inproc τ) :
    EStateM.Result Err (Deployment Unit Inproc τ) α :=
  p.run (Deployment.act (Kms.inproc G)) d

section Methods

variable {α : Type} {G : Crypto} {A : Lives} {n : String → ℕ} {d : Deployment Unit Inproc τ}
  {t u : String} {dek : Bytes}

/-- `WrapDEK` gives what unwraps to the key. -/
theorem Holds.wrapDEK (h : Holds G A n d) (hG : G.Lawful) (hmax : n t + 1 < 2 ^ 32) (dek : Bytes) :
    ∃ w v x, d.callKMS ((Kms.inproc G).wrapDEK t dek) = (.ok (w, v), { d with kms := x }) ∧
      Inproc.Unwraps G x t w v dek ∧ Kept n d { d with kms := x } := by
  obtain ⟨w, v, x, hwrap, hunwraps, hgrows, hsized, hkeks⟩ :=
    Inproc.wrapDEK_eq (t := t) hG h.sized ((h.keks t).trans_lt hmax) dek
  refine ⟨w, v, x, ?_, hunwraps, hgrows, hsized, fun t' => ?_, h.faults⟩
  · simp only [Kms.inproc, Deployment.callKMS, hwrap]
  · have hlen := h.keks t'
    exact (hkeks t').trans (max_le (by omega) hlen)

/-- `UnwrapDEK` of what unwraps. -/
theorem callKMS_unwrapDEK {w : Bytes} {v : UInt32} (h : Inproc.Unwraps G d.kms t w v dek) :
    d.callKMS ((Kms.inproc G).unwrapDEK t w v) = (.ok dek, d) := by
  have hrun : Inproc.unwrapDEK G t w v d.kms = .ok dek d.kms := by
    rw [Inproc.unwrapDEK, EStateM.bind_apply]
    exact EStateM.ofExcept_eq_ok.2 ⟨h, rfl⟩
  simp only [Kms.inproc, Deployment.callKMS, hrun]

/-- The end of `EnsureSubjectKey`, when the key store and the database do not fail. -/
theorem run_createSubjectKey {w : Bytes} {v : UInt32} {d₂ d₃ : Deployment Unit Inproc τ}
    (hwrap : Deployment.callKMS { d with random := fun i => d.random (32 + i) }
      ((Kms.inproc G).wrapDEK t d.freshKey) = (.ok (w, v), d₂))
    (hupsert : d₂.query () (d₂.table.upsert t u w v (d₂.clock 0)) = (.ok (), d₃)) :
    alone G (KeyProg.createSubjectKey () t u) d =
      .ok d.freshKey (d₃.setCache () (cacheKey t u) (some d.freshKey)) := by
  rw [Deployment.freshKey] at hwrap ⊢
  rw [alone, KeyProg.createSubjectKey, KeyProg.run_readRandom, KeyProg.run_wrapDEK, hwrap]
  simp only [KeyProg.run_upsertSubjectKey, hupsert]
  rfl

/-- `EnsureSubjectKey` for a subject without a key, when nothing fails. -/
theorem run_ensureSubjectKey_new {w : Bytes} {v : UInt32} {d₂ d₃ : Deployment Unit Inproc τ}
    (hcache : d.caches () (cacheKey t u) = none) (hget : d.table.get t u = none)
    (hfault : d.faults 0 = none)
    (hwrap : Deployment.callKMS { d.queried d.table with random := fun i => d.random (32 + i) }
      ((Kms.inproc G).wrapDEK t d.freshKey) = (.ok (w, v), d₂))
    (hupsert : d₂.query () (d₂.table.upsert t u w v (d₂.clock 0)) = (.ok (), d₃)) :
    alone G (KeyProg.ensureSubjectKey () t u) d =
      .ok d.freshKey (d₃.setCache () (cacheKey t u) (some d.freshKey)) := by
  rw [alone, KeyProg.ensureSubjectKey, KeyProg.run_cacheGet, hcache]
  simp only [KeyProg.run_getSubjectKey, Deployment.query_ok hfault, hget]
  exact run_createSubjectKey hwrap hupsert

/-- A live key is found, in the cache or in its row. -/
theorem Holds.find (h : Holds G A n d) (ht : NoBar t) (hlive : A t u = .live dek) (e : Err) :
    d.caches () (cacheKey t u) = some dek ∨
      d.caches () (cacheKey t u) = none ∧ ∃ row, d.table.get t u = some row ∧
        row.shreddedAt.isSome = false ∧
        ∃ d', alone G (KeyProg.unwrapSubjectKey () t u row e) (d.queried d.table) = .ok dek d' ∧
          Holds G A n d' := by
  have hkey := h.keys t u ht
  rw [hlive] at hkey
  obtain ⟨⟨row, hget, hnone, hunwraps⟩, hcached, -⟩ := hkey
  cases hcache : d.caches () (cacheKey t u) with
  | some k => exact Or.inl (by rw [hcached k hcache])
  | none =>
    refine Or.inr ⟨rfl, row, hget, by rw [hnone]; rfl,
      (d.queried d.table).setCache () (cacheKey t u) (some dek), ?_, h.queried.cached ht hlive⟩
    have hcall := callKMS_unwrapDEK (d := d.queried d.table) hunwraps
    rw [alone, KeyProg.unwrapSubjectKey, KeyProg.run_unwrapDEK, hcall]
    rfl

/-- `EnsureSubjectKey` returns a live key. -/
theorem Holds.ensureSubjectKey_live (h : Holds G A n d) (ht : NoBar t)
    (hlive : A t u = .live dek) :
    ∃ d', alone G (KeyProg.ensureSubjectKey () t u) d = .ok dek d' ∧ Holds G A n d' := by
  rcases h.find ht hlive (.wrap s!"unwrap DEK for {u}" (.sentinel .kmsUnavailable)) with
    hcache | ⟨hcache, row, hget, hnone, d', hunwrap, hd'⟩
  · refine ⟨d, ?_, h⟩
    rw [alone, KeyProg.ensureSubjectKey, KeyProg.run_cacheGet, hcache]
    rfl
  · refine ⟨d', ?_, hd'⟩
    rw [alone, KeyProg.ensureSubjectKey, KeyProg.run_cacheGet, hcache]
    simp only [KeyProg.run_getSubjectKey, Deployment.query_ok (h.faults 0), hget, hnone]
    exact hunwrap

/-- `EnsureSubjectKey` refuses a subject whose key is gone. -/
theorem Holds.ensureSubjectKey_gone (h : Holds G A n d) (ht : NoBar t) (hgone : A t u = .gone) :
    ∃ e d', alone G (KeyProg.ensureSubjectKey () t u) d = .error e d' ∧ Holds G A n d' := by
  have hkey := h.keys t u ht
  rw [hgone] at hkey
  obtain ⟨⟨row, hget, hsome⟩, hcache⟩ := hkey
  refine ⟨.text s!"shred: subject \"{u}\" has been shredded", d.queried d.table, ?_, h.queried⟩
  rw [alone, KeyProg.ensureSubjectKey, KeyProg.run_cacheGet, hcache]
  simp only [KeyProg.run_getSubjectKey, Deployment.query_ok (h.faults 0), hget, hsome]
  rfl

/-- `EnsureSubjectKey` makes a key for a subject that has none. -/
theorem Holds.ensureSubjectKey_unborn (h : Holds G A n d) (hG : G.Lawful) (ht : NoBar t)
    (hmax : n t + 1 < 2 ^ 32) (hunborn : A t u = .unborn) :
    ∃ d', alone G (KeyProg.ensureSubjectKey () t u) d = .ok d.freshKey d' ∧
      Holds G (A.set t u (.live d.freshKey)) n d' := by
  have hkey := h.keys t u ht
  rw [hunborn] at hkey
  obtain ⟨hget, hcache⟩ := hkey
  let d₁ : Deployment Unit Inproc τ :=
    { d.queried d.table with random := fun i => d.random (32 + i) }
  have h₁ : Holds G A n d₁ := h.queried.random _
  obtain ⟨w, v, x, hcall, hunwraps, hkept⟩ := h₁.wrapDEK hG hmax d.freshKey
  let d₂ : Deployment Unit Inproc τ := { d₁ with kms := x }
  let d₃ := d₂.queried (d₂.table.upsert t u w v (d₂.clock 0))
  have hkept₃ : Kept n d₁ d₃ :=
    ⟨hkept.grows, hkept.sized, hkept.keks, fun i => h.faults (i + 1 + 1)⟩
  have h₃ : Holds G (A.set t u (.live d.freshKey)) n d₃ :=
    h₁.upserted ht hkept₃ rfl rfl hunwraps (by simp [Deployment.freshKey]) (Or.inl hunborn)
  refine ⟨d₃.setCache () (cacheKey t u) (some d.freshKey), ?_, h₃.cached ht Lives.set_same⟩
  have hquery : d₂.query () (d₂.table.upsert t u w v (d₂.clock 0)) = (.ok (), d₃) :=
    Deployment.query_ok (h.faults 1) _ _
  exact run_ensureSubjectKey_new hcache hget (h.faults 0) hcall hquery

/-- The bytes a nonce is made of. -/
def Deployment.freshNonce (d : Deployment Unit Inproc τ) : Bytes :=
  (List.range nonceSize).map d.random

/-- `EncryptField` after its key was found or made. -/
theorem run_encryptField {d₁ : Deployment Unit Inproc τ} (hlen : dek.length = 32)
    (hensure : alone G (KeyProg.ensureSubjectKey () t u) d = .ok dek d₁) (pt : Bytes) :
    alone G (KeyProg.encryptField G () t u pt) d =
      .ok (wireV1AESGCM :: (d₁.freshNonce ++ G.gcmSeal dek d₁.freshNonce pt))
        { d₁ with random := fun i => d₁.random (nonceSize + i) } := by
  have hvalid : validKeySize dek = true := by simp [validKeySize, hlen]
  simp only [alone] at hensure ⊢
  rw [KeyProg.encryptField, Prog.run_bind, EStateM.bind_apply, hensure]
  simp only [KeyProg.sealField, Kms.newCipher_eq_ok.2 hvalid]
  rfl

theorem Holds.length_live (h : Holds G A n d) (ht : NoBar t) (hlive : A t u = .live dek) :
    dek.length = 32 := by
  have hkey := h.keys t u ht
  rw [hlive] at hkey
  exact hkey.2.2

/-- `EncryptField` seals under the key that was found or made. -/
theorem Holds.encryptField {d₁ : Deployment Unit Inproc τ} (h : Holds G A n d₁)
    (hlen : dek.length = 32)
    (hensure : alone G (KeyProg.ensureSubjectKey () t u) d = .ok dek d₁) (pt : Bytes) :
    ∃ ct d', alone G (KeyProg.encryptField G () t u pt) d = .ok ct d' ∧ SealedUnder G dek pt ct ∧
      Holds G A n d' :=
  ⟨_, _, run_encryptField hlen hensure pt,
    ⟨d₁.freshNonce, by simp [Deployment.freshNonce], rfl⟩, h.random _⟩

/-- `EncryptField` refuses a subject whose key is gone. -/
theorem Holds.encryptField_gone (h : Holds G A n d) (ht : NoBar t) (hgone : A t u = .gone)
    (pt : Bytes) :
    ∃ e d', alone G (KeyProg.encryptField G () t u pt) d = .error e d' ∧ Holds G A n d' := by
  obtain ⟨e, d', hensure, hd'⟩ := h.ensureSubjectKey_gone ht hgone
  refine ⟨e, d', ?_, hd'⟩
  rw [alone, KeyProg.encryptField, Prog.run_bind, EStateM.bind_apply]
  simp only [alone] at hensure
  rw [hensure]

/-- `DecryptField` opens with a live key. -/
theorem Holds.decryptField_live (h : Holds G A n d) (ht : NoBar t) (hlive : A t u = .live dek)
    (ct : Bytes) :
    ∃ d', alone G (KeyProg.decryptField G () t u ct) d =
        EStateM.ofExcept (aesGCMOpenField G dek ct) d' ∧ Holds G A n d' := by
  have hopen : ∀ d' : Deployment Unit Inproc τ,
      alone G (.ofExcept (aesGCMOpenField G dek ct)) d' =
        EStateM.ofExcept (aesGCMOpenField G dek ct) d' := by
    intro d'
    cases aesGCMOpenField G dek ct <;> rfl
  rcases h.find ht hlive (.sentinel .kmsUnavailable) with
    hcache | ⟨hcache, row, hget, hnone, d', hunwrap, hd'⟩
  · refine ⟨d, ?_, h⟩
    rw [alone, KeyProg.decryptField, KeyProg.run_cacheGet, hcache]
    exact hopen d
  · refine ⟨d', ?_, hd'⟩
    rw [alone, KeyProg.decryptField, KeyProg.run_cacheGet, hcache]
    simp only [KeyProg.run_getSubjectKey, Deployment.query_ok (h.faults 0), hget, hnone]
    simp only [alone] at hunwrap
    rw [if_neg Bool.false_ne_true, Prog.run_bind, EStateM.bind_apply, hunwrap]
    exact hopen d'

/-- `DecryptField` for a subject whose key is gone. -/
theorem Holds.decryptField_gone (h : Holds G A n d) (ht : NoBar t) (hgone : A t u = .gone)
    (ct : Bytes) :
    ∃ d', alone G (KeyProg.decryptField G () t u ct) d = .error (.sentinel .shredded) d' ∧
      Holds G A n d' := by
  have hkey := h.keys t u ht
  rw [hgone] at hkey
  obtain ⟨⟨row, hget, hsome⟩, hcache⟩ := hkey
  refine ⟨d.queried d.table, ?_, h.queried⟩
  rw [alone, KeyProg.decryptField, KeyProg.run_cacheGet, hcache]
  simp only [KeyProg.run_getSubjectKey, Deployment.query_ok (h.faults 0), hget, hsome]
  rfl

/-- `DecryptField` for a subject that has no key. -/
theorem Holds.decryptField_unborn (h : Holds G A n d) (ht : NoBar t) (hunborn : A t u = .unborn)
    (ct : Bytes) :
    ∃ e d', alone G (KeyProg.decryptField G () t u ct) d = .error e d' ∧ Holds G A n d' := by
  have hkey := h.keys t u ht
  rw [hunborn] at hkey
  obtain ⟨hget, hcache⟩ := hkey
  refine ⟨.text s!"shred: no DEK for subject \"{u}\"", d.queried d.table, ?_, h.queried⟩
  rw [alone, KeyProg.decryptField, KeyProg.run_cacheGet, hcache]
  simp only [KeyProg.run_getSubjectKey, Deployment.query_ok (h.faults 0), hget]
  rfl

/-- `ForgetSubject` destroys a live key. -/
theorem Holds.forgetSubject (h : Holds G A n d) (ht : NoBar t) :
    ∃ d', alone G (KeyProg.forgetSubject () t u) d = .ok () d' ∧
      Holds G (A.set t u (A t u).destroy) n d' := by
  let T := d.table.forget t u (d.clock 0)
  refine ⟨(d.queried T).setCache () (cacheKey t u) none, ?_, h.set ht
    (h.kept rfl fun i => h.faults (i + 1)) (fun t' u' hne => KeyTable.get_forget_ne hne _)
    (fun key hne => if_neg fun hc => hne hc.2) ?_⟩
  · rw [alone, KeyProg.forgetSubject, KeyProg.run_forgetRow, Deployment.query_ok (h.faults 0)]
    rfl
  · have hrow : T.get t u = (d.table.get t u).map fun r =>
        { r with dekWrapped := [], shreddedAt := some (d.clock 0) } := KeyTable.get_forget _
    have hcache : ((d.queried T).setCache () (cacheKey t u) none).caches () (cacheKey t u) =
        none := if_pos ⟨rfl, rfl⟩
    have hkey := h.keys t u ht
    cases hlife : A t u with
    | unborn =>
      rw [hlife] at hkey
      exact ⟨hrow.trans (by rw [hkey.1]; rfl), hcache⟩
    | live dek =>
      rw [hlife] at hkey
      obtain ⟨⟨row, hget, -, -⟩, -⟩ := hkey
      exact ⟨⟨_, hrow.trans (by rw [hget]; rfl), rfl⟩, hcache⟩
    | gone =>
      rw [hlife] at hkey
      obtain ⟨⟨row, hget, -⟩, -⟩ := hkey
      exact ⟨⟨_, hrow.trans (by rw [hget]; rfl), rfl⟩, hcache⟩

/-- `ClearCache` leaves the keys in the table. -/
theorem Holds.clearCache (h : Holds G A n d) :
    ∃ d', alone G (KeyProg.clearCache ()) d = .ok () d' ∧ Holds G A n d' := by
  refine ⟨{ d with caches := fun i key => if i = () then none else d.caches i key }, rfl,
    fun t u ht => ?_, h.sized, h.keks, h.faults⟩
  have hkey := h.keys t u ht
  cases hlife : A t u with
  | unborn =>
    rw [hlife] at hkey
    exact ⟨hkey.1, by simp⟩
  | live dek =>
    rw [hlife] at hkey
    obtain ⟨hrow, -, hlen⟩ := hkey
    exact ⟨hrow, fun k hk => by simp at hk, hlen⟩
  | gone =>
    rw [hlife] at hkey
    exact ⟨hkey.1, by simp⟩

theorem run_rotateKEK {v : UInt32} {x : Inproc} (h : Inproc.rotateKEK t d.kms = .ok v x) :
    alone G (KeyProg.rotateKEK t) d = .ok (.ok v) { d with kms := x } := by
  have hcall : d.callKMS ((Kms.inproc G).rotateKEK t) = (.ok v, { d with kms := x }) := by
    simp only [Kms.inproc, Deployment.callKMS, h]
  exact congrArg (fun y => EStateM.Result.ok y.1 y.2) hcall

/-- `RotateKEK` adds a KEK. -/
theorem Holds.rotateKEK (h : Holds G A n d) :
    ∃ v d', alone G (KeyProg.rotateKEK t) d = .ok (.ok v) d' ∧
      Holds G A (fun t' => n t' + if t' = t then 1 else 0) d' := by
  obtain ⟨v, x, hrotate, hgrows, hsized, hlen⟩ := Inproc.rotateKEK_eq (t := t) h.sized
  have hmore : Holds G A (fun t' => n t' + if t' = t then 1 else 0) d :=
    ⟨h.keys, h.sized, fun t' => (h.keks t').trans (by omega), h.faults⟩
  refine ⟨v, { d with kms := x }, run_rotateKEK hrotate, hmore.kms hgrows hsized fun t' => ?_⟩
  have := h.keks t'
  rw [hlen]
  omega

/-- A row that is not shredded is that of a live key. -/
theorem Holds.live_of_get (h : Holds G A n d) (ht : NoBar t) {row : KeyRow τ}
    (hget : d.table.get t u = some row) (hnone : row.shreddedAt = none) :
    ∃ dek, A t u = .live dek ∧
      Inproc.Unwraps G d.kms t row.dekWrapped row.kekVersion dek := by
  have hkey := h.keys t u ht
  cases hlife : A t u with
  | unborn =>
    rw [hlife] at hkey
    rw [hkey.1] at hget
    cases hget
  | live dek =>
    rw [hlife] at hkey
    obtain ⟨⟨row', hget', -, hunwraps⟩, -⟩ := hkey
    obtain rfl : row' = row := Option.some.inj (hget'.symm.trans hget)
    exact ⟨dek, rfl, hunwraps⟩
  | gone =>
    rw [hlife] at hkey
    obtain ⟨⟨row', hget', hsome⟩, -⟩ := hkey
    obtain rfl : row' = row := Option.some.inj (hget'.symm.trans hget)
    rw [hnone] at hsome
    cases hsome

/-- One row is wrapped once more. -/
theorem Holds.rewrapped (h : Holds G A n d) (hG : G.Lawful) (ht : NoBar t)
    (hmax : n t + 1 < 2 ^ 32) (hlive : A t u = .live dek) :
    ∃ w v d₂ d₃, d.callKMS ((Kms.inproc G).wrapDEK t dek) = (.ok (w, v), d₂) ∧
      d₂.query () (d₂.table.upsert t u w v (d₂.clock 0)) = (.ok (), d₃) ∧
      d.kms.Grows d₃.kms ∧ Holds G A n d₃ := by
  obtain ⟨w, v, x, hwrap, hunwraps, hkept⟩ := h.wrapDEK (t := t) hG hmax dek
  let d₂ : Deployment Unit Inproc τ := { d with kms := x }
  let d₃ := d₂.queried (d₂.table.upsert t u w v (d₂.clock 0))
  have hkept₃ : Kept n d d₃ := ⟨hkept.grows, hkept.sized, hkept.keks, fun i => h.faults (i + 1)⟩
  have h₃ : Holds G (A.set t u (.live dek)) n d₃ :=
    h.upserted ht hkept₃ rfl rfl hunwraps (h.length_live ht hlive) (Or.inr hlive)
  rw [Lives.set_of_eq hlive] at h₃
  have hfault : d₂.faults 0 = none := h.faults 0
  exact ⟨w, v, d₂, d₃, hwrap, Deployment.query_ok hfault _ _, hkept.grows, h₃⟩

theorem run_listStaleSubjectKeys {β : Type} (current : UInt32) (limit : ℤ)
    (f : Except Err (List (KeyRow τ)) → KeyProg Unit τ β) :
    alone G (KeyProg.listStaleSubjectKeys t current limit >>= f) d =
      alone G (f (d.query (d.table.listStale t current limit) d.table).1)
        (d.query (d.table.listStale t current limit) d.table).2 := rfl

/-- **The loop of `RewrapDEKs` keeps every key, wherever it is interrupted.** -/
theorem Holds.rewrapLoop (h : Holds G A n d) (hG : G.Lawful) (ht : NoBar t)
    (hmax : n t + 1 < 2 ^ 32) (current : UInt32) (pageSize : ℤ) (budget : ℕ)
    (page : List (KeyRow τ)) (total : ℕ)
    (hpage : ∀ row ∈ page, ∃ dek, A t row.subject = .live dek ∧
      Inproc.Unwraps G d.kms t row.dekWrapped row.kekVersion dek) :
    ∃ x d', alone G (KeyProg.rewrapLoop t current pageSize budget page total) d = .ok x d' ∧
      Holds G A n d' := by
  induction budget generalizing d page total with
  | zero =>
    cases page with
    | nil => exact ⟨_, d, rfl, h⟩
    | cons row page => exact ⟨_, d, rfl, h⟩
  | succ budget ih =>
    cases page with
    | nil =>
      -- a new page: its rows are those of live keys
      rw [KeyProg.rewrapLoop, run_listStaleSubjectKeys, Deployment.query_ok (h.faults 0)]
      cases hlist : d.table.listStale t current pageSize with
      | nil => exact ⟨(total, none), d.queried d.table, rfl, h.queried⟩
      | cons row rows =>
        refine ih h.queried (row :: rows) total fun row' hrow' => ?_
        obtain ⟨hget, -, hnone⟩ := KeyTable.of_mem_listStale (hlist ▸ hrow')
        exact h.live_of_get ht hget hnone
    | cons row page =>
      obtain ⟨dek, hlive, hunwraps⟩ := hpage row List.mem_cons_self
      obtain ⟨w, v, d₂, d₃, hwrap, hupsert, hgrows, h₃⟩ := h.rewrapped hG ht hmax hlive
      obtain ⟨x, d', hrest, hd'⟩ := ih h₃ page (total + 1) fun row' hrow' => by
        obtain ⟨dek', hlive', hunwraps'⟩ := hpage row' (List.mem_cons_of_mem _ hrow')
        exact ⟨dek', hlive', hunwraps'.mono hgrows⟩
      refine ⟨x, d', ?_, hd'⟩
      rw [alone, KeyProg.rewrapLoop, KeyProg.run_unwrapDEK, callKMS_unwrapDEK hunwraps]
      simp only [KeyProg.run_wrapDEK, hwrap, KeyProg.run_upsertSubjectKey, hupsert]
      exact hrest

theorem Holds.rewrapDEKs (h : Holds G A n d) (hG : G.Lawful) (ht : NoBar t)
    (hmax : n t + 1 < 2 ^ 32) (pageSize : ℤ) (budget : ℕ) :
    ∃ x d', alone G (KeyProg.rewrapDEKs t pageSize budget) d = .ok x d' ∧ Holds G A n d' := by
  have hcurrent : alone G (KeyProg.rewrapDEKs t pageSize budget) d =
      alone G (if d.kms.version t = 0 then pure (0, none)
        else KeyProg.rewrapLoop t (d.kms.version t) (if pageSize ≤ 0 then 100 else pageSize)
          budget [] 0) d := rfl
  rw [hcurrent]
  by_cases hzero : d.kms.version t = 0
  · rw [if_pos hzero]
    exact ⟨_, d, rfl, h⟩
  · rw [if_neg hzero]
    exact h.rewrapLoop hG ht hmax _ _ budget [] 0 (by simp)

end Methods

/-! ### Histories -/

/-- The tenant of a call. -/
def KeyCall.tenant? : KeyCall Unit → Option String
  | .encryptField _ t _ _ | .decryptField _ t _ _ | .ensureSubjectKey _ t _
  | .forgetSubject _ t _ | .rewrapDEKs t _ _ | .rotateKEK t => some t
  | .clearCache _ => none

/-- How often the KEK of a tenant is rotated. -/
def rotations (calls : List (KeyCall Unit)) (t : String) : ℕ := calls.count (.rotateKEK t)

/-- The state after a call. -/
def called (G : Crypto) (d : Deployment Unit Inproc τ) (c : KeyCall Unit) :
    Deployment Unit Inproc τ :=
  EStateM.after (alone G (c.prog G) d)

/-- The state after a history. -/
def history (G : Crypto) (calls : List (KeyCall Unit)) (d : Deployment Unit Inproc τ) :
    Deployment Unit Inproc τ :=
  calls.foldl (called G) d

/-- The key a call generates: `EnsureSubjectKey` does so for a subject it finds neither in the cache
nor in the table. -/
def Deployment.generates (d : Deployment Unit Inproc τ) : KeyCall Unit → List Bytes
  | .encryptField _ t u _ | .ensureSubjectKey _ t u =>
    if d.caches () (cacheKey t u) = none ∧ d.table.get t u = none then [d.freshKey] else []
  | _ => []

/-- The keys that are generated in a history. -/
def generated (G : Crypto) : List (KeyCall Unit) → Deployment Unit Inproc τ → List Bytes
  | [], _ => []
  | c :: calls, d => d.generates c ++ generated G calls (called G d c)

section Histories

variable {G : Crypto} {A : Lives} {n : String → ℕ} {d : Deployment Unit Inproc τ}

theorem after_map {α β : Type} (g : α → β) (p : KeyProg Unit τ α) :
    EStateM.after (alone G (g <$> p) d) = EStateM.after (alone G p d) := by
  rw [alone, Prog.map_eq, Prog.run_bind, EStateM.bind_apply, alone]
  cases p.run (Deployment.act (Kms.inproc G)) d <;> rfl

/-- A call that rotates no KEK leaves their number. -/
theorem rotations_eq_zero {c : KeyCall Unit} (hc : ∀ t, c ≠ .rotateKEK t) (t : String) :
    rotations [c] t = 0 := List.count_eq_zero.2 fun hmem => hc t (List.mem_singleton.1 hmem).symm

theorem rotations_cons (c : KeyCall Unit) (calls : List (KeyCall Unit)) (t : String) :
    rotations (c :: calls) t = rotations [c] t + rotations calls t := by
  rw [rotations, List.count_cons, rotations, rotations, List.count_cons, List.count_nil]
  omega

theorem Holds.of_no_rotation {d' : Deployment Unit Inproc τ} {c : KeyCall Unit}
    (h : Holds G A n d') (hc : ∀ t, c ≠ .rotateKEK t) :
    Holds G A (fun t => n t + rotations [c] t) d' := by
  simpa only [rotations_eq_zero hc, Nat.add_zero] using h

/-- `EnsureSubjectKey`: the subject has a live key then, or its key is gone. -/
theorem Holds.ensureSubjectKey (h : Holds G A n d) (hG : G.Lawful) {t u : String} (ht : NoBar t)
    (hmax : n t + 1 < 2 ^ 32) :
    (∃ dek d', alone G (KeyProg.ensureSubjectKey () t u) d = .ok dek d' ∧
        (A t u).make d.freshKey = .live dek ∧ Holds G (A.set t u ((A t u).make d.freshKey)) n d') ∨
      A t u = .gone := by
  cases hlife : A t u with
  | unborn =>
    obtain ⟨d', hensure, hd'⟩ := h.ensureSubjectKey_unborn hG ht hmax hlife
    exact Or.inl ⟨_, d', hensure, rfl, hd'⟩
  | live dek =>
    obtain ⟨d', hensure, hd'⟩ := h.ensureSubjectKey_live ht hlife
    exact Or.inl ⟨dek, d', hensure, rfl, by rwa [Life.make, Lives.set_of_eq hlife]⟩
  | gone => exact Or.inr rfl

/-- **Every call does to the keys what `Lives.next` says.** -/
theorem Holds.next (h : Holds G A n d) (hG : G.Lawful) (c : KeyCall Unit)
    (ht : ∀ t ∈ c.tenant?, NoBar t) (hmax : ∀ t, n t + 1 < 2 ^ 32) :
    Holds G (A.next d.freshKey c) (fun t => n t + rotations [c] t) (called G d c) := by
  unfold called
  cases c with
  | encryptField j t u pt =>
    refine Holds.of_no_rotation ?_ (by simp)
    rw [KeyCall.prog, after_map]
    rcases h.ensureSubjectKey hG (ht t rfl) (hmax t) (u := u) with
      ⟨dek, d₁, hensure, hlive, h₁⟩ | hgone
    · have hlen := h₁.length_live (ht t rfl) (Lives.set_same.trans hlive)
      obtain ⟨ct, d', hrun, -, hd'⟩ := h₁.encryptField hlen hensure pt
      rw [hrun]
      exact hd'
    · obtain ⟨e, d', hrun, hd'⟩ := h.encryptField_gone (ht t rfl) hgone pt
      rw [hrun, Lives.next, hgone, Life.make, Lives.set_of_eq hgone]
      exact hd'
  | decryptField j t u ct =>
    refine Holds.of_no_rotation ?_ (by simp)
    rw [KeyCall.prog, after_map]
    cases hlife : A t u with
    | unborn =>
      obtain ⟨e, d', hrun, hd'⟩ := h.decryptField_unborn (ht t rfl) hlife ct
      rw [hrun]
      exact hd'
    | live dek =>
      obtain ⟨d', hrun, hd'⟩ := h.decryptField_live (ht t rfl) hlife ct
      rw [hrun]
      cases aesGCMOpenField G dek ct <;> exact hd'
    | gone =>
      obtain ⟨d', hrun, hd'⟩ := h.decryptField_gone (ht t rfl) hlife ct
      rw [hrun]
      exact hd'
  | ensureSubjectKey j t u =>
    refine Holds.of_no_rotation ?_ (by simp)
    rw [KeyCall.prog, after_map]
    rcases h.ensureSubjectKey hG (ht t rfl) (hmax t) (u := u) with
      ⟨dek, d₁, hensure, -, h₁⟩ | hgone
    · rw [hensure]
      exact h₁
    · obtain ⟨e, d', hrun, hd'⟩ := h.ensureSubjectKey_gone (ht t rfl) hgone
      rw [hrun, Lives.next, hgone, Life.make, Lives.set_of_eq hgone]
      exact hd'
  | forgetSubject j t u =>
    refine Holds.of_no_rotation ?_ (by simp)
    obtain ⟨d', hrun, hd'⟩ := h.forgetSubject (u := u) (ht t rfl)
    rw [KeyCall.prog, after_map, hrun]
    exact hd'
  | clearCache j =>
    refine Holds.of_no_rotation ?_ (by simp)
    obtain ⟨d', hrun, hd'⟩ := h.clearCache
    rw [KeyCall.prog, after_map, hrun]
    exact hd'
  | rewrapDEKs t pageSize budget =>
    refine Holds.of_no_rotation ?_ (by simp)
    obtain ⟨x, d', hrun, hd'⟩ := h.rewrapDEKs hG (ht t rfl) (hmax t) pageSize budget
    rw [KeyCall.prog, after_map, hrun]
    exact hd'
  | rotateKEK t =>
    obtain ⟨v, d', hrun, hd'⟩ := h.rotateKEK (t := t)
    have hcount : ∀ t', rotations [.rotateKEK t] t' = if t' = t then 1 else 0 := by
      intro t'
      by_cases hsame : t' = t
      · simp [rotations, hsame]
      · simp [rotations, Ne.symm hsame, hsame]
    simp only [alone] at hrun
    rw [KeyCall.prog, alone, Prog.run_bind, EStateM.bind_apply, hrun]
    simp only [hcount]
    exact hd'

/-- The keys a call generates are those `Lives.made` says. -/
theorem Holds.generates (h : Holds G A n d) (c : KeyCall Unit) (ht : ∀ t ∈ c.tenant?, NoBar t) :
    d.generates c = A.made d.freshKey c := by
  have hnew : ∀ t u, NoBar t →
      (d.caches () (cacheKey t u) = none ∧ d.table.get t u = none ↔ A t u = .unborn) := by
    intro t u ht
    have hkey := h.keys t u ht
    cases hlife : A t u with
    | unborn =>
      rw [hlife] at hkey
      simp [hkey.1, hkey.2]
    | live dek =>
      rw [hlife] at hkey
      obtain ⟨⟨row, hget, -⟩, -⟩ := hkey
      simp [hget]
    | gone =>
      rw [hlife] at hkey
      obtain ⟨⟨row, hget, -⟩, -⟩ := hkey
      simp [hget]
  cases c with
  | encryptField j t u pt =>
    simp only [Deployment.generates, Lives.made, hnew t u (ht t rfl)]
  | ensureSubjectKey j t u =>
    simp only [Deployment.generates, Lives.made, hnew t u (ht t rfl)]
  | decryptField | forgetSubject | clearCache | rewrapDEKs | rotateKEK => rfl

/-- The keys after a history. -/
def livesAfter (G : Crypto) (A : Lives) : List (KeyCall Unit) → Deployment Unit Inproc τ → Lives
  | [], _ => A
  | c :: calls, d => livesAfter G (A.next d.freshKey c) calls (called G d c)

/-- **A history does to the keys what its calls do.** -/
theorem Holds.history (h : Holds G A n d) (hG : G.Lawful) {calls : List (KeyCall Unit)}
    (ht : ∀ c ∈ calls, ∀ t ∈ c.tenant?, NoBar t)
    (hmax : ∀ t, n t + rotations calls t + 1 < 2 ^ 32) :
    Holds G (livesAfter G A calls d) (fun t => n t + rotations calls t) (history G calls d) := by
  induction calls generalizing A n d with
  | nil => exact h
  | cons c calls ih =>
    have hcons := fun t => rotations_cons c calls t
    have hnext := h.next hG c (ht c List.mem_cons_self) fun t => by
      have := hmax t
      omega
    have hrest := ih hnext (fun c' hc' => ht c' (List.mem_cons_of_mem _ hc')) fun t => by
      have := hmax t
      rw [hcons] at this
      omega
    simp only [hcons, ← Nat.add_assoc]
    exact hrest

end Histories

/-! ### Whose key it is -/

/-- The key was generated, and no other subject has it. -/
structure Owned (A : Lives) (ks : List Bytes) (t u : String) (k : Bytes) : Prop where
  mem : k ∈ ks
  only : ∀ t' u', A t' u' = .live k → t' = t ∧ u' = u

/-- Every live key belongs to one subject. -/
def Apart (A : Lives) (ks : List Bytes) : Prop := ∀ t u k, A t u = .live k → Owned A ks t u k

section Owned

variable {A : Lives} {ks : List Bytes} {fresh k : Bytes} {t u : String} {c : KeyCall Unit}

/-- **What a call does to the key of one subject:** nothing, or it makes a key for this subject and
leaves the others, or it destroys the key. -/
theorem Lives.next_cases (A : Lives) (fresh : Bytes) (c : KeyCall Unit) (t u : String) :
    (A.next fresh c t u = A t u ∧ c ≠ .forgetSubject () t u) ∨
      (A.next fresh c t u = (A t u).make fresh ∧ c ≠ .forgetSubject () t u ∧
        (A t u = .unborn → fresh ∈ A.made fresh c) ∧
        ∀ t' u', ¬ (t' = t ∧ u' = u) → A.next fresh c t' u' = A t' u') ∨
      (A.next fresh c t u = (A t u).destroy ∧ c = .forgetSubject () t u) := by
  cases c with
  | encryptField j t₀ u₀ | ensureSubjectKey j t₀ u₀ =>
    by_cases hsame : t = t₀ ∧ u = u₀
    · obtain ⟨rfl, rfl⟩ := hsame
      refine .inr (.inl ⟨Lives.set_same, by simp, fun h => ?_, fun t' u' hne => Lives.set_ne hne⟩)
      simp [Lives.made, h]
    · exact .inl ⟨Lives.set_ne hsame, by simp⟩
  | forgetSubject j t₀ u₀ =>
    by_cases hsame : t = t₀ ∧ u = u₀
    · obtain ⟨rfl, rfl⟩ := hsame
      exact .inr (.inr ⟨Lives.set_same, rfl⟩)
    · refine .inl ⟨Lives.set_ne hsame, fun he => ?_⟩
      injection he with _ he₁ he₂
      exact hsame ⟨he₁.symm, he₂.symm⟩
  | decryptField | clearCache | rewrapDEKs | rotateKEK => exact .inl ⟨rfl, by simp⟩

/-- A key that is live after a call was live before, or has been made. -/
theorem Lives.live_of_next (h : A.next fresh c t u = .live k) :
    A t u = .live k ∨ A t u = .unborn ∧ k = fresh ∧ k ∈ A.made fresh c ∧
      ∀ t' u', ¬ (t' = t ∧ u' = u) → A.next fresh c t' u' = A t' u' := by
  rcases A.next_cases fresh c t u with ⟨hn, -⟩ | ⟨hn, -, hmade, hothers⟩ | ⟨hn, -⟩
  · exact .inl (hn.symm.trans h)
  · cases hlife : A t u with
    | unborn =>
      rw [hn, hlife] at h
      obtain rfl : fresh = k := Life.live.inj h
      exact .inr ⟨rfl, rfl, hmade hlife, hothers⟩
    | live dek =>
      rw [hn, hlife] at h
      exact .inl h
    | gone =>
      rw [hn, hlife] at h
      cases h
  · cases hlife : A t u <;> rw [hn, hlife] at h <;> cases h

/-- A key keeps its owner, since new keys are different. -/
theorem Owned.next (h : Owned A ks t u k) (hnodup : (ks ++ A.made fresh c).Nodup) :
    Owned (A.next fresh c) (ks ++ A.made fresh c) t u k := by
  refine ⟨List.mem_append_left _ h.mem, fun t' u' hlive => ?_⟩
  rcases Lives.live_of_next hlive with hlive | ⟨-, -, hmade, -⟩
  · exact h.only t' u' hlive
  · exact absurd hmade (List.disjoint_of_nodup_append hnodup h.mem)

theorem Apart.next (h : Apart A ks) (hnodup : (ks ++ A.made fresh c).Nodup) :
    Apart (A.next fresh c) (ks ++ A.made fresh c) := by
  intro t u k hlive
  rcases Lives.live_of_next hlive with hlive | ⟨-, -, hmade, hothers⟩
  · exact (h t u k hlive).next hnodup
  · refine ⟨List.mem_append_right _ hmade, fun t' u' hlive' => ?_⟩
    by_contra hne
    -- the key of another subject is an old one
    rw [hothers t' u' hne] at hlive'
    exact List.disjoint_of_nodup_append hnodup (h t' u' k hlive').mem hmade

/-- A live key stays until it is forgotten. -/
theorem Lives.next_live (h : A t u = .live k) (fresh : Bytes) (c : KeyCall Unit) :
    A.next fresh c t u = if c = .forgetSubject () t u then .gone else .live k := by
  rcases A.next_cases fresh c t u with ⟨hn, hc⟩ | ⟨hn, hc, -⟩ | ⟨hn, hc⟩
  · rw [hn, h, if_neg hc]
  · rw [hn, h, if_neg hc, Life.make]
  · rw [hn, h, if_pos hc, Life.destroy]

/-- A key that is gone stays so. -/
theorem Lives.next_gone (h : A t u = .gone) : A.next fresh c t u = .gone := by
  rcases A.next_cases fresh c t u with ⟨hn, -⟩ | ⟨hn, -⟩ | ⟨hn, -⟩
  · rw [hn, h]
  · rw [hn, h, Life.make]
  · rw [hn, h, Life.destroy]

end Owned

section OwnedHistory

variable {G : Crypto} {A : Lives} {n : String → ℕ} {d : Deployment Unit Inproc τ} {ks : List Bytes}
  {t u : String} {k : Bytes} {calls calls' : List (KeyCall Unit)}

theorem livesAfter_gone (h : A t u = .gone) : livesAfter G A calls d t u = .gone := by
  induction calls generalizing A d with
  | nil => exact h
  | cons c calls ih => exact ih (Lives.next_gone h)

/-- A live key stays through a history until it is forgotten. -/
theorem livesAfter_live (h : A t u = .live k) (calls : List (KeyCall Unit))
    (d : Deployment Unit Inproc τ) : livesAfter G A calls d t u =
    if .forgetSubject () t u ∈ calls then .gone else .live k := by
  induction calls generalizing A d with
  | nil => exact h
  | cons c calls ih =>
    have hnext := Lives.next_live h d.freshKey c
    by_cases hc : c = .forgetSubject () t u
    · rw [if_pos hc] at hnext
      rw [livesAfter, livesAfter_gone hnext, if_pos (by simp [hc])]
    · rw [if_neg hc] at hnext
      rw [livesAfter, ih hnext (called G d c)]
      simp [Ne.symm hc]

/-- What every call keeps, with the keys it makes, a history keeps. -/
theorem Holds.invariant {P : Lives → List Bytes → Prop}
    (hP : ∀ A ks fresh c, P A ks → (ks ++ Lives.made A fresh c).Nodup →
      P (A.next fresh c) (ks ++ A.made fresh c))
    (h : Holds G A n d) (hG : G.Lawful) (ht : ∀ c ∈ calls, ∀ t ∈ c.tenant?, NoBar t)
    (hmax : ∀ t, n t + rotations calls t + 1 < 2 ^ 32) {ks : List Bytes} (hks : P A ks)
    (hnodup : (ks ++ generated G calls d).Nodup) :
    P (livesAfter G A calls d) (ks ++ generated G calls d) := by
  induction calls generalizing A n d ks with
  | nil => simpa [generated, livesAfter] using hks
  | cons c calls ih =>
    have hmade := h.generates c (ht c List.mem_cons_self)
    rw [generated, hmade, ← List.append_assoc] at hnodup ⊢
    have hcons := fun t => rotations_cons c calls t
    have hnext := h.next hG c (ht c List.mem_cons_self) fun t => by
      have := hmax t
      omega
    refine ih hnext (fun c' hc' => ht c' (List.mem_cons_of_mem _ hc')) (fun t => ?_)
      (hP A ks d.freshKey c hks (List.nodup_append.1 hnodup).1) hnodup
    have := hmax t
    rw [hcons] at this
    omega

theorem generated_append : generated G (calls ++ calls') d =
    generated G calls d ++ generated G calls' (history G calls d) := by
  induction calls generalizing d with
  | nil => rfl
  | cons c calls ih =>
    rw [List.cons_append, generated, ih, generated, List.append_assoc]
    rfl

end OwnedHistory

/-! ### Sealed values -/

/-- AES-GCM opens what was sealed under the same key, and under no other. -/
structure Crypto.Ideal (G : Crypto) : Prop where
  lawful : G.Lawful
  apart : ∀ k k' iv pt, k.length = 32 → k'.length = 32 → k ≠ k' →
    G.gcmOpen k iv (G.gcmSeal k' iv pt) = none

/-- Nothing has happened yet, and no query will fail. -/
structure Deployment.New (d : Deployment Unit Inproc τ) : Prop where
  table : d.table.rows = []
  cache : ∀ key, d.caches () key = none
  keks : ∀ t, d.kms.keks t = []
  faults : ∀ i, d.faults i = none

section Sealed

variable {G : Crypto} {d : Deployment Unit Inproc τ} {dek k pt ct : Bytes}

theorem Deployment.New.holds (h : d.New) : Holds G (fun _ _ => .unborn) (fun _ => 0) d := by
  refine ⟨fun t u _ => ⟨?_, h.cache _⟩, fun t kek hk => ?_, fun t => ?_, h.faults⟩
  · rw [KeyTable.get_eq_none_iff, h.table]
    simp
  · simp [h.keks] at hk
  · simp [h.keks]

/-- Another key does not open what was sealed. -/
theorem SealedUnder.open_other (h : SealedUnder G dek pt ct) (hG : G.Ideal)
    (hlen : dek.length = 32) (hk : k.length = 32) (hne : k ≠ dek) :
    ∃ e, aesGCMOpenField G k ct = .error e := by
  obtain ⟨iv, hiv, rfl⟩ := h
  have hvalid : validKeySize k = true := by simp [validKeySize, hk]
  have hbody : ¬ (iv ++ G.gcmSeal dek iv pt).length < nonceSize + overhead := by
    have := hG.lawful.length dek iv pt
    rw [List.length_append]
    omega
  refine ⟨.sentinel .cryptoIntegrity, ?_⟩
  rw [aesGCMOpenField]
  simp only [ne_eq, not_true_eq_false, if_false, Kms.newCipher_eq_ok.2 hvalid, Except.ok_bind,
    if_neg hbody, List.take_left' hiv, List.drop_left' hiv, hG.apart k dek iv pt hk hlen hne]

/-- `EncryptField` seals under the key that is live afterwards. -/
theorem Holds.sealed {A : Lives} {n : String → ℕ} (h : Holds G A n d) (hG : G.Lawful)
    {t u : String} (ht : NoBar t) (hmax : n t + 1 < 2 ^ 32) {d₁ : Deployment Unit Inproc τ}
    (hseal : alone G (KeyProg.encryptField G () t u pt) d = .ok ct d₁) :
    ∃ dek, A.next d.freshKey (.encryptField () t u pt) t u = .live dek ∧ dek.length = 32 ∧
      SealedUnder G dek pt ct ∧ called G d (.encryptField () t u pt) = d₁ := by
  have hcalled : called G d (.encryptField () t u pt) = d₁ := by
    rw [called, KeyCall.prog, after_map, hseal]
    rfl
  rcases h.ensureSubjectKey hG ht hmax (u := u) with ⟨dek, d₂, hensure, hlive, h₂⟩ | hgone
  · have hlen := h₂.length_live ht (Lives.set_same.trans hlive)
    obtain ⟨ct', d', hrun, hct, -⟩ := h₂.encryptField hlen hensure pt
    rw [hseal] at hrun
    injection hrun with hct' _
    exact ⟨dek, Lives.set_same.trans hlive, hlen, hct' ▸ hct, hcalled⟩
  · obtain ⟨e, d', hrun, -⟩ := h.encryptField_gone ht hgone pt
    rw [hseal] at hrun
    cases hrun

/-- A value that was sealed under a key no other subject has is not decrypted for another
subject. -/
theorem Holds.decryptField_other {A : Lives} {n : String → ℕ} (h : Holds G A n d) (hG : G.Ideal)
    {ks : List Bytes} {t u t' u' : String} (hct : SealedUnder G dek pt ct)
    (hlen : dek.length = 32) (howned : Owned A ks t u dek) (ht' : NoBar t')
    (hne : ¬ (t' = t ∧ u' = u)) :
    ∃ e d', alone G (KeyProg.decryptField G () t' u' ct) d = .error e d' := by
  cases hlife : A t' u' with
  | unborn =>
    obtain ⟨e, d', hrun, -⟩ := h.decryptField_unborn ht' hlife ct
    exact ⟨e, d', hrun⟩
  | live k =>
    have hk : k ≠ dek := fun he => hne (howned.only t' u' (he ▸ hlife))
    obtain ⟨e, hopen⟩ := hct.open_other hG hlen (h.length_live ht' hlife) hk
    obtain ⟨d', hrun, -⟩ := h.decryptField_live ht' hlife ct
    exact ⟨e, d', by rw [hrun, hopen]; rfl⟩
  | gone =>
    obtain ⟨d', hrun, -⟩ := h.decryptField_gone ht' hlife ct
    exact ⟨_, d', hrun⟩

/-- **The life of a sealed value.**  In every history of one shredder with the key store in memory
that starts with nothing, generates no key twice and rotates no KEK `2 ^ 32 - 1` times, a value that
`EncryptField` returned for a subject is decrypted to its plaintext until the subject is forgotten,
and yields `ErrShredded` from then on; for no other subject is it ever decrypted. -/
theorem sealed_lifecycle (hG : G.Ideal) {d₀ d₁ : Deployment Unit Inproc τ} (hnew : d₀.New)
    (before later : List (KeyCall Unit)) {t u : String}
    (hbar : ∀ c ∈ before ++ .encryptField () t u pt :: later, ∀ x ∈ c.tenant?, NoBar x)
    (hkeys : (generated G (before ++ .encryptField () t u pt :: later) d₀).Nodup)
    (hkeks : ∀ x, rotations (before ++ .encryptField () t u pt :: later) x + 1 < 2 ^ 32)
    (hseal : alone G (KeyProg.encryptField G () t u pt) (history G before d₀) = .ok ct d₁) :
    (.forgetSubject () t u ∉ later → ∃ d',
        alone G (KeyProg.decryptField G () t u ct) (history G later d₁) = .ok pt d') ∧
      (.forgetSubject () t u ∈ later → ∃ d',
        alone G (KeyProg.decryptField G () t u ct) (history G later d₁) =
          .error (.sentinel .shredded) d') ∧
      ∀ t' u', NoBar t' → ¬ (t' = t ∧ u' = u) → ∃ e d',
        alone G (KeyProg.decryptField G () t' u' ct) (history G later d₁) = .error e d' := by
  let c : KeyCall Unit := .encryptField () t u pt
  have hrot : ∀ x, rotations (before ++ c :: later) x =
      rotations before x + (rotations [c] x + rotations later x) := by
    intro x
    rw [rotations, List.count_append, ← rotations, ← rotations, rotations_cons]
  have hmax : ∀ x, 0 + rotations before x + rotations [c] x + rotations later x + 1 < 2 ^ 32 := by
    intro x
    have hx : rotations (before ++ c :: later) x + 1 < 2 ^ 32 := hkeks x
    rw [hrot] at hx
    omega
  have hbefore : ∀ c ∈ before, ∀ x ∈ c.tenant?, NoBar x :=
    fun c hc => hbar c (List.mem_append_left _ hc)
  have hlater : ∀ c ∈ later, ∀ x ∈ c.tenant?, NoBar x :=
    fun c hc => hbar c (List.mem_append_right _ (List.mem_cons_of_mem _ hc))
  have hc : ∀ x ∈ c.tenant?, NoBar x := hbar c (by simp [c])
  -- up to the value
  have h₀ := (hnew.holds (G := G)).history hG.lawful hbefore fun x => by
    have := hmax x
    omega
  have hmade := h₀.generates c hc
  rw [generated_append, generated, hmade, ← List.append_assoc] at hkeys
  have hkeys₀ := (List.nodup_append.1 hkeys).1
  have hnone : Apart (fun _ _ => .unborn) [] := by
    intro t u k h
    cases h
  have hapart := (hnew.holds (G := G)).invariant (P := Apart) (fun A ks fresh c h => h.next)
    hG.lawful hbefore (fun x => by have := hmax x; omega) hnone (List.nodup_append.1 hkeys₀).1
  -- the value
  obtain ⟨dek, hlive, hlen, hct, hcalled⟩ := h₀.sealed hG.lawful (hc t rfl)
    (by have := hmax t; omega) hseal
  have h₁ := h₀.next hG.lawful c hc fun x => by
    have := hmax x
    omega
  have howned₁ := hapart.next hkeys₀ t u dek hlive
  rw [hcalled] at h₁ hkeys
  -- after the value
  have h₂ := h₁.history hG.lawful hlater hmax
  have howned := h₁.invariant (P := fun A ks => Owned A ks t u dek)
    (fun A ks fresh c h => h.next) hG.lawful hlater hmax howned₁ hkeys
  have hlife := livesAfter_live (G := G) hlive later d₁
  refine ⟨fun hforget => ?_, fun hforget => ?_, fun t' u' ht' hne => ?_⟩
  · rw [if_neg hforget] at hlife
    obtain ⟨d', hrun, -⟩ := h₂.decryptField_live (hc t rfl) hlife ct
    exact ⟨d', by rw [hrun, hct.opens hG.lawful (by simp [validKeySize, hlen])]; rfl⟩
  · rw [if_pos hforget] at hlife
    obtain ⟨d', hrun, -⟩ := h₂.decryptField_gone (hc t rfl) hlife ct
    exact ⟨d', hrun⟩
  · exact h₂.decryptField_other hG hct hlen howned ht' hne

/-! ### Too many rotations -/

/-- A rotation changes nothing but the KEKs of the tenant. -/
theorem history_rotateKEK (hkms : d.kms.Sized) (t : String) (m : ℕ) :
    ∃ x : Inproc, history G (List.replicate m (.rotateKEK t)) d = { d with kms := x } ∧ x.Sized ∧
      (x.keks t).length = (d.kms.keks t).length + m := by
  induction m generalizing d with
  | zero => exact ⟨d.kms, rfl, hkms, rfl⟩
  | succ m ih =>
    obtain ⟨v, x, hrotate, -, hsized, hlen⟩ := Inproc.rotateKEK_eq (t := t) hkms
    have hcalled : called G d (.rotateKEK t) = { d with kms := x } := by
      have hrun := run_rotateKEK (G := G) hrotate
      simp only [alone] at hrun
      rw [called, KeyCall.prog, alone, Prog.run_bind, EStateM.bind_apply, hrun]
      rfl
    obtain ⟨x', hrest, hsized', hlen'⟩ := ih (d := { d with kms := x }) hsized
    refine ⟨x', ?_, hsized', ?_⟩
    · rw [List.replicate_succ, history, List.foldl_cons, hcalled]
      exact hrest
    · have := hlen t
      rw [if_pos rfl] at this
      rw [hlen', this]
      omega

theorem generated_rotateKEK (t : String) (m : ℕ) :
    generated G (List.replicate m (.rotateKEK t)) d = [] := by
  induction m generalizing d with
  | zero => rfl
  | succ m ih =>
    rw [List.replicate_succ, generated, ih]
    rfl

/-- `DecryptField` when the key store refuses to unwrap. -/
theorem run_decryptField_refused {t u : String} {row : KeyRow τ} {e : Err}
    (hcache : d.caches () (cacheKey t u) = none) (hget : d.table.get t u = some row)
    (hnone : row.shreddedAt.isSome = false) (hfault : d.faults 0 = none)
    (hunwrap : (d.queried d.table).callKMS ((Kms.inproc G).unwrapDEK t row.dekWrapped
      row.kekVersion) = (.error e, d.queried d.table)) :
    alone G (KeyProg.decryptField G () t u ct) d =
      .error (.sentinel .kmsUnavailable) (d.queried d.table) := by
  rw [alone, KeyProg.decryptField, KeyProg.run_cacheGet, hcache]
  simp only [KeyProg.run_getSubjectKey, Deployment.query_ok hfault, hget, hnone]
  rw [if_neg Bool.false_ne_true, Prog.run_bind, EStateM.bind_apply, KeyProg.unwrapSubjectKey,
    KeyProg.run_unwrapDEK, hunwrap]
  rfl

/-- With `2 ^ 32` KEKs a key is wrapped under the version 0, which is refused. -/
theorem decryptField_at_limit {t u : String} (hsized : d.kms.Sized)
    (hlen : (d.kms.keks t).length = 2 ^ 32) (hfaults : ∀ i, d.faults i = none)
    (hget : d.table.get t u = none) (hcache : d.caches () (cacheKey t u) = none) (pt : Bytes) :
    ∃ ct d₁, alone G (KeyProg.encryptField G () t u pt) d = .ok ct d₁ ∧
      ∃ d', alone G (KeyProg.decryptField G () t u ct) (history G [.clearCache ()] d₁) =
        .error (.sentinel .kmsUnavailable) d' := by
  let d₁ : Deployment Unit Inproc τ :=
    { d.queried d.table with random := fun i => d.random (32 + i) }
  obtain ⟨kek, nonce, x, hwrap, -, -, hgrows, -, hle⟩ :=
    Inproc.wrapDEK_run (G := G) (x := d₁.kms) (t := t) hsized d.freshKey
  have hversion : x.version t = 0 := by
    have hup : (x.keks t).length ≤ max 1 (d.kms.keks t).length := hle t
    have hdown : (d.kms.keks t).length ≤ (x.keks t).length := (hgrows t).length_le
    have hx : (x.keks t).length = 2 ^ 32 := by omega
    rw [Inproc.version, hx]
    rfl
  rw [hversion] at hwrap
  let w := nonce ++ G.gcmSeal kek nonce d.freshKey
  let d₂ : Deployment Unit Inproc τ := { d₁ with kms := x }
  let d₃ := d₂.queried (d₂.table.upsert t u w 0 (d₂.clock 0))
  have hcall : d₁.callKMS ((Kms.inproc G).wrapDEK t d.freshKey) = (.ok (w, 0), d₂) := by
    simp only [Kms.inproc, Deployment.callKMS, hwrap]
    rfl
  have hquery : d₂.query () (d₂.table.upsert t u w 0 (d₂.clock 0)) = (.ok (), d₃) :=
    Deployment.query_ok (hfaults 1) _ _
  have hensure : alone G (KeyProg.ensureSubjectKey () t u) d =
      .ok d.freshKey (d₃.setCache () (cacheKey t u) (some d.freshKey)) :=
    run_ensureSubjectKey_new hcache hget (hfaults 0) hcall hquery
  have hrow : d₃.table.get t u = some ⟨t, u, w, 0, d₂.clock 0, none⟩ := by
    have hnone : d₂.table.get t u = none := hget
    refine (KeyTable.get_upsert w 0 (d₂.clock 0)).trans ?_
    rw [KeyTable.written, hnone]
  have hunwrap : ∀ d' : Deployment Unit Inproc τ,
      d'.callKMS ((Kms.inproc G).unwrapDEK t w 0) =
        (.error (.text "inproc kms: KEK version not available"), d') := fun d' => rfl
  exact ⟨_, _, run_encryptField (by simp [Deployment.freshKey]) hensure pt, _,
    run_decryptField_refused rfl hrow rfl (hfaults 2) (hunwrap _)⟩

end Sealed

/-! ### Two subjects -/

namespace Clinic

/-- A cipher that puts the key in front of what it seals. -/
def crypto : Crypto where
  gcmSeal k _ pt := k ++ (List.replicate overhead 0 ++ pt)
  gcmOpen k _ ct := if ct.take k.length = k then some (ct.drop (k.length + overhead)) else none
  encode64 := id
  decode64 := .ok

theorem ideal : crypto.Ideal where
  lawful := by
    refine ⟨fun k iv pt => ?_, fun k iv pt => ?_⟩
    · simp [crypto, ← List.drop_drop]
    · simp [crypto]
      omega
  apart k k' iv pt hk hk' hne := by
    have htake : (k' ++ (List.replicate overhead 0 ++ pt)).take k.length = k' := by
      rw [hk, ← hk', List.take_left]
    simp only [crypto, htake]
    exact if_neg fun he => hne he.symm

/-- The first day. -/
def opened : Deployment Unit Inproc Unit :=
  ⟨.empty, fun _ _ => none, fun i => UInt8.ofNat i, Inproc.new fun _ => 7, fun _ => none,
    fun _ => ()⟩

theorem new_opened : opened.New :=
  ⟨rfl, fun _ => rfl, fun _ => rfl, fun _ => rfl⟩

/-- What happens to the keys of other subjects, and to all of them at once. -/
def later : List (KeyCall Unit) :=
  [.rotateKEK "acme", .rewrapDEKs "acme" 1 5, .clearCache (), .encryptField () "acme" "carol" [3]]

end Clinic

/-- A value of Alice after a rotation, while Bob has a key as well; and after Alice was
forgotten. -/
theorem sealed_lifecycle_clinic :
    ∃ ct d₁, alone Clinic.crypto (KeyProg.encryptField Clinic.crypto () "acme" "alice" [1, 2])
        (history Clinic.crypto [.encryptField () "acme" "bob" [9]] Clinic.opened) = .ok ct d₁ ∧
      (∃ d', alone Clinic.crypto (KeyProg.decryptField Clinic.crypto () "acme" "alice" ct)
        (history Clinic.crypto Clinic.later d₁) = .ok [1, 2] d') ∧
      (∃ e d', alone Clinic.crypto (KeyProg.decryptField Clinic.crypto () "acme" "bob" ct)
        (history Clinic.crypto Clinic.later d₁) = .error e d') ∧
      ∃ d', alone Clinic.crypto (KeyProg.decryptField Clinic.crypto () "acme" "alice" ct)
        (history Clinic.crypto [.forgetSubject () "acme" "alice"] d₁) =
          .error (.sentinel .shredded) d' := by
  obtain ⟨ct, d₁, hseal⟩ : ∃ ct d₁, alone Clinic.crypto
      (KeyProg.encryptField Clinic.crypto () "acme" "alice" [1, 2])
        (history Clinic.crypto [.encryptField () "acme" "bob" [9]] Clinic.opened) = .ok ct d₁ :=
    ⟨_, _, rfl⟩
  have hfew : ∀ (calls : List (KeyCall Unit)) (x : String), calls.length < 10 →
      rotations calls x + 1 < 2 ^ 32 := by
    intro calls x hlen
    have := List.count_le_length (l := calls) (a := .rotateKEK x)
    rw [rotations]
    omega
  have hkept := sealed_lifecycle Clinic.ideal Clinic.new_opened _ Clinic.later
    (by simp [Clinic.later, KeyCall.tenant?, NoBar]) (by decide +kernel)
    (fun x => hfew _ x (by decide)) hseal
  have hforgotten := sealed_lifecycle Clinic.ideal Clinic.new_opened _
    [.forgetSubject () "acme" "alice"]
    (by simp [KeyCall.tenant?, NoBar]) (by decide +kernel) (fun x => hfew _ x (by decide)) hseal
  exact ⟨ct, d₁, hseal, hkept.1 (by simp [Clinic.later]),
    hkept.2.2 "acme" "bob" (by decide) (by decide), hforgotten.2.1 (by simp)⟩

/-- **After `2 ^ 32` rotations a value is lost with the cache.**  The one key that is generated is
wrapped under the version 0. -/
theorem rotated_out :
    (generated Clinic.crypto (List.replicate (2 ^ 32) (.rotateKEK "acme") ++
        [.encryptField () "acme" "alice" [1, 2], .clearCache ()]) Clinic.opened).Nodup ∧
      ∃ ct d₁, alone Clinic.crypto (KeyProg.encryptField Clinic.crypto () "acme" "alice" [1, 2])
        (history Clinic.crypto (List.replicate (2 ^ 32) (.rotateKEK "acme")) Clinic.opened) =
          .ok ct d₁ ∧
      ∃ d', alone Clinic.crypto (KeyProg.decryptField Clinic.crypto () "acme" "alice" ct)
        (history Clinic.crypto [.clearCache ()] d₁) = .error (.sentinel .kmsUnavailable) d' := by
  have hsized : Clinic.opened.kms.Sized := by
    intro t kek hkek
    cases hkek
  obtain ⟨x, hx, hxsized, hlen⟩ := history_rotateKEK (G := Clinic.crypto) hsized "acme" (2 ^ 32)
  refine ⟨?_, ?_⟩
  · rw [generated_append, generated_rotateKEK, List.nil_append]
    simp only [generated, Deployment.generates, List.append_nil]
    split_ifs
    · exact List.nodup_singleton _
    · exact List.nodup_nil
  · rw [hx]
    exact decryptField_at_limit hxsized (hlen.trans (Nat.zero_add _)) (fun _ => rfl) rfl rfl [1, 2]

end Shred

end EventStore
