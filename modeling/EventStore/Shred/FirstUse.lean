import EventStore.LTS.Basic
import EventStore.Shred.Keys

/-!
# First use of a subject

Any number of `EncryptField` and `DecryptField` calls, in any number of processes, on one table
`subject_keys` and one key store.  Each access of a call to its cache, to the table, to the key
store or to the source of random bytes is a step of its own; the steps of different calls
interleave.  A step performs the piece of `Instance.encryptField` or `Instance.decryptField` the
call has come to (`FieldSys.perform`).  Subjects are forgotten and caches cleared at any time.

Two calls that both find no row for a subject both generate a key and store it, and the second
upsert replaces the key of the first: what the first encrypts nobody else can decrypt.  The same
follows when two subjects share a place in the caches.  Without either (`FirstUse`), the key of a
subject is the one that was stored first, everywhere (`OneKey`):

* `encrypted_decrypts` : **what `EncryptField` has returned, `DecryptField` decrypts in every
  process, with a warm or a cold cache, until the subject is forgotten.**
-/

namespace EventStore

namespace Shred

/-! ### Calls -/

/-- Which function is called. -/
inductive FieldOp where
  | encrypt
  | decrypt
  deriving DecidableEq

/-- A call of `EncryptField` or `DecryptField`. -/
structure FieldCall (π : Type) where
  shredder : Instance π
  op : FieldOp
  tenant : String
  subject : String
  input : Bytes

/-- Where a call is. -/
inductive FieldProc (π : Type) where
  | idle
  | begun (c : FieldCall π)
  /-- The key is not in the cache. -/
  | missed (c : FieldCall π)
  /-- There is no row for the subject. -/
  | absent (c : FieldCall π)
  | found (c : FieldCall π) (row : SubjectKey)
  /-- A fresh key is wrapped, and not yet stored. -/
  | wrapped (c : FieldCall π) (dek dekWrapped : Bytes) (kekVersion : UInt32)
  /-- The key is not yet in the cache. -/
  | keyed (c : FieldCall π) (dek : Bytes)
  | ready (c : FieldCall π) (dek : Bytes)
  | returned (res : Except Err Bytes)

/-- A ciphertext that was returned. -/
structure SealedField where
  tenant : String
  subject : String
  plaintext : Bytes
  ciphertext : Bytes
  deriving DecidableEq

/-- The keys, the calls, and what was encrypted. -/
structure FieldSys (ι π : Type) where
  keys : Keys π
  calls : ι → FieldProc π
  sealed : List SealedField
  /-- The subjects of the calls so far. -/
  used : List (String × String)

/-- The steps. -/
inductive FieldStep (ι π : Type) where
  | begin (i : ι) (c : FieldCall π)
  | lookup (i : ι)
  | get (i : ι)
  | wrap (i : ι)
  | unwrap (i : ι)
  | upsert (i : ι)
  | set (i : ι)
  | finish (i : ι)
  /-- The two parts of `ForgetSubject`. -/
  | forgetRow (V : Instance π) (tenant subject : String)
  | forgetCached (j : π) (tenant subject : String)
  /-- `ClearCache`, or a new process. -/
  | clear (j : π)

namespace FieldSys

variable {ι π α : Type} [DecidableEq ι] [DecidableEq π]

/-- The state with one call moved on. -/
def setCall (s : FieldSys ι π) (i : ι) (pr : FieldProc π) : FieldSys ι π :=
  { s with calls := fun j => if j = i then pr else s.calls j }

/-- A call performs a piece of its function; an error is returned. -/
def perform (s : FieldSys ι π) (i : ι) (x : EStateM Err (Keys π) α) (next : α → FieldProc π) :
    FieldSys ι π :=
  match x s.keys with
  | .ok a k => { s.setCall i (next a) with keys := k }
  | .error e k => { s.setCall i (.returned (.error e)) with keys := k }

end FieldSys

namespace FieldCall

variable {π : Type} (c : FieldCall π)

/-- After the cache lookup. -/
def looked : Option Bytes → FieldProc π
  | some dek => .ready c dek
  | none => .missed c

/-- After `GetSubjectKey`. -/
def got : Option SubjectKey → FieldProc π
  | none =>
    let subject := c.subject
    match c.op with
    | .encrypt => .absent c
    | .decrypt => .returned (.error (.text s!"shred: no DEK for subject \"{subject}\""))
  | some row =>
    let subject := c.subject
    if row.shredded then
      match c.op with
      | .encrypt => .returned (.error (.text s!"shred: subject \"{subject}\" has been shredded"))
      | .decrypt => .returned (.error (.sentinel .shredded))
    else .found c row

/-- A fresh key, generated and wrapped. -/
def freshKey : EStateM Err (Keys π) (Bytes × Bytes × UInt32) := do
  let subject := c.subject
  let dek ← readRandom 32
  let (wrapped, kekVersion) ← EStateM.ofExcept
    ((c.shredder.kms.wrapDEK c.tenant dek).mapError fun _ =>
      .wrap s!"wrap DEK for {subject}" (.sentinel .kmsUnavailable))
  return (dek, wrapped, kekVersion)

/-- What a failed `UnwrapDEK` is told as. -/
def unwrapError : Err :=
  let subject := c.subject
  match c.op with
  | .encrypt => .wrap s!"unwrap DEK for {subject}" (.sentinel .kmsUnavailable)
  | .decrypt => .sentinel .kmsUnavailable

/-- The field is sealed or opened. -/
def crypt (dek : Bytes) : EStateM Err (Keys π) Bytes :=
  match c.op with
  | .encrypt => aesGCMSealField c.shredder.crypto dek c.input
  | .decrypt => EStateM.ofExcept (aesGCMOpenField c.shredder.crypto dek c.input)

/-- The record of a returned ciphertext. -/
def record (ciphertext : Bytes) : List SealedField :=
  match c.op with
  | .encrypt => [⟨c.tenant, c.subject, c.input, ciphertext⟩]
  | .decrypt => []

end FieldCall

namespace FieldSys

variable {ι π : Type} [DecidableEq ι] [DecidableEq π]

/-- One step. -/
def next (s : FieldSys ι π) : FieldStep ι π → Option (FieldSys ι π)
  | .begin i c =>
    match s.calls i with
    | .idle => some { s.setCall i (.begun c) with used := s.used ++ [(c.tenant, c.subject)] }
    | _ => none
  | .lookup i =>
    match s.calls i with
    | .begun c => some (s.perform i (cacheGet c.shredder.process c.tenant c.subject) c.looked)
    | _ => none
  | .get i =>
    match s.calls i with
    | .missed c => some (s.perform i (c.shredder.getSubjectKey c.tenant c.subject) c.got)
    | _ => none
  | .wrap i =>
    match s.calls i with
    | .absent c => some (s.perform i c.freshKey fun x => .wrapped c x.1 x.2.1 x.2.2)
    | _ => none
  | .unwrap i =>
    match s.calls i with
    | .found c row =>
      some (s.perform i (EStateM.ofExcept (c.shredder.unwrap c.tenant row c.unwrapError))
        (.keyed c))
    | _ => none
  | .upsert i =>
    match s.calls i with
    | .wrapped c dek dekWrapped kekVersion =>
      some (s.perform i (c.shredder.upsertSubjectKey c.tenant c.subject dekWrapped kekVersion)
        fun _ => .keyed c dek)
    | _ => none
  | .set i =>
    match s.calls i with
    | .keyed c dek =>
      some (s.perform i (cacheSet c.shredder.process c.tenant c.subject dek) fun _ => .ready c dek)
    | _ => none
  | .finish i =>
    match s.calls i with
    | .ready c dek =>
      match c.crypt dek s.keys with
      | .ok out k => some { s.setCall i (.returned (.ok out)) with
          keys := k, sealed := s.sealed ++ c.record out }
      | .error e k => some { s.setCall i (.returned (.error e)) with keys := k }
    | _ => none
  | .forgetRow V tenant subject =>
    match V.forgetRow tenant subject s.keys with
    | .ok () k => some { s with keys := k }
    | .error _ k => some { s with keys := k }
  | .forgetCached j tenant subject =>
    some { s with keys := s.keys.setCache j (cacheKey tenant subject) none }
  | .clear j =>
    some { s with keys :=
      { s.keys with caches := fun i key => if i = j then none else s.keys.caches i key } }

/-- No keys, no calls, and the random bytes to come. -/
def start (random : ℕ → UInt8) : FieldSys ι π :=
  ⟨⟨fun _ _ => none, fun _ _ => none, random⟩, fun _ => .idle, [], []⟩

end FieldSys

/-! ### One key store, one cipher -/

/-- The key store, in the state in which a call meets it, is one that unwraps as `U` says; it may
fail, and wrap a key in more than one way. -/
structure KeyStore.Custody (U : String → Bytes → UInt32 → Option Bytes) (K : KeyStore) : Prop where
  wrap : ∀ t dek w v, K.wrapDEK t dek = .ok (w, v) → U t w v = some dek
  unwrap : ∀ t w v dek, K.unwrapDEK t w v = .ok dek → U t w v = some dek

/-- AES-GCM opens what it sealed under the same key, and appends a tag. -/
structure Crypto.Lawful (G : Crypto) : Prop where
  gcmOpen : ∀ dek iv pt, G.gcmOpen dek iv (G.gcmSeal dek iv pt) = some pt
  length : ∀ dek iv pt, overhead ≤ (G.gcmSeal dek iv pt).length

section System

variable {ι π : Type} [DecidableEq ι] [DecidableEq π]

/-- The shredders share the key store and the cipher. -/
def FieldStep.Shares (U : String → Bytes → UInt32 → Option Bytes) (G : Crypto) :
    FieldStep ι π → Prop
  | .begin _ c => c.shredder.kms.Custody U ∧ c.shredder.crypto = G
  | _ => True

/-- Calls of shredders that share a table, a key store and a cipher. -/
def fieldSystem (U : String → Bytes → UInt32 → Option Bytes) (G : Crypto) :
    TS (FieldSys ι π) (FieldStep ι π) where
  init s := ∃ random, s = .start random
  step s l s' := l.Shares U G ∧ s.next l = some s'

/-- A call that is about to store a fresh key: there is still no row for its subject. -/
def FieldProc.Fresh (k : Keys π) : FieldProc π → Prop
  | .wrapped c _ _ _ => k.subjectKeys c.tenant c.subject = none
  | _ => True

/-- A fresh key is stored only for a subject without a row, and no two subjects share a place in the
caches. -/
def FieldSys.FirstUse (s : FieldSys ι π) : FieldStep ι π → Prop
  | .begin _ c => ∀ x ∈ s.used, cacheKey x.1 x.2 = cacheKey c.tenant c.subject →
      x = (c.tenant, c.subject)
  | .upsert i => (s.calls i).Fresh s.keys
  | _ => True

instance (k : Keys π) (pr : FieldProc π) : Decidable (pr.Fresh k) :=
  match pr with
  | .wrapped c _ _ _ => inferInstanceAs (Decidable (k.subjectKeys c.tenant c.subject = none))
  | .idle | .begun _ | .missed _ | .absent _ | .found .. | .keyed .. | .ready .. | .returned _ =>
    isTrue trivial

instance (s : FieldSys ι π) (l : FieldStep ι π) : Decidable (s.FirstUse l) :=
  match l with
  | .begin _ c => inferInstanceAs (Decidable (∀ x ∈ s.used,
      cacheKey x.1 x.2 = cacheKey c.tenant c.subject → x = (c.tenant, c.subject)))
  | .upsert i => inferInstanceAs (Decidable ((s.calls i).Fresh s.keys))
  | .lookup _ | .get _ | .wrap _ | .unwrap _ | .set _ | .finish _ | .forgetRow .. | .forgetCached ..
  | .clear _ => isTrue trivial

/-- Calls whose first uses of a subject do not meet. -/
def firstUseSystem (U : String → Bytes → UInt32 → Option Bytes) (G : Crypto) :
    TS (FieldSys ι π) (FieldStep ι π) :=
  (fieldSystem U G).restrict FieldSys.FirstUse

end System

/-! ### What a step can do -/

section Moves

variable {ι π α : Type} [DecidableEq ι] [DecidableEq π]

/-- The state after other random bytes were read. -/
def FieldSys.drawn (s : FieldSys ι π) (random : ℕ → UInt8) : FieldSys ι π :=
  { s with keys := { s.keys with random := random } }

/-- The steps, one constructor for each outcome. -/
inductive FieldMoves (s : FieldSys ι π) : FieldStep ι π → FieldSys ι π → Prop
  | begin {i : ι} {c : FieldCall π} : s.calls i = .idle →
      FieldMoves s (.begin i c)
        { s.setCall i (.begun c) with used := s.used ++ [(c.tenant, c.subject)] }
  | hit {i : ι} {c : FieldCall π} {dek : Bytes} : s.calls i = .begun c →
      s.keys.caches c.shredder.process (cacheKey c.tenant c.subject) = some dek →
      FieldMoves s (.lookup i) (s.setCall i (.ready c dek))
  | miss {i : ι} {c : FieldCall π} : s.calls i = .begun c →
      FieldMoves s (.lookup i) (s.setCall i (.missed c))
  | absent {i : ι} {c : FieldCall π} : s.calls i = .missed c →
      FieldMoves s (.get i) (s.setCall i (.absent c))
  | found {i : ι} {c : FieldCall π} {row : SubjectKey} : s.calls i = .missed c →
      s.keys.subjectKeys c.tenant c.subject = some row → row.shredded = false →
      FieldMoves s (.get i) (s.setCall i (.found c row))
  | wrapped {i : ι} {c : FieldCall π} {dek w : Bytes} {v : UInt32} {random : ℕ → UInt8} :
      s.calls i = .absent c → c.shredder.kms.wrapDEK c.tenant dek = .ok (w, v) →
      FieldMoves s (.wrap i) ((s.setCall i (.wrapped c dek w v)).drawn random)
  | unwrapped {i : ι} {c : FieldCall π} {row : SubjectKey} {dek : Bytes} :
      s.calls i = .found c row →
      c.shredder.kms.unwrapDEK c.tenant row.dekWrapped row.kekVersion = .ok dek →
      FieldMoves s (.unwrap i) (s.setCall i (.keyed c dek))
  | stored {i : ι} {c : FieldCall π} {dek w : Bytes} {v : UInt32} {shredded : Bool} :
      s.calls i = .wrapped c dek w v →
      FieldMoves s (.upsert i) { s.setCall i (.keyed c dek) with
        keys := s.keys.setRow c.tenant c.subject ⟨w, v, shredded⟩ }
  | cached {i : ι} {c : FieldCall π} {dek : Bytes} : s.calls i = .keyed c dek →
      FieldMoves s (.set i) { s.setCall i (.ready c dek) with
        keys := s.keys.setCache c.shredder.process (cacheKey c.tenant c.subject) (some dek) }
  | encrypted {i : ι} {c : FieldCall π} {dek iv : Bytes} {random : ℕ → UInt8} :
      s.calls i = .ready c dek → validKeySize dek = true → iv.length = nonceSize →
      FieldMoves s (.finish i)
        { (s.setCall i (.returned (.ok (wireV1AESGCM ::
            (iv ++ c.shredder.crypto.gcmSeal dek iv c.input))))).drawn random with
          sealed := s.sealed ++ [⟨c.tenant, c.subject, c.input,
            wireV1AESGCM :: (iv ++ c.shredder.crypto.gcmSeal dek iv c.input)⟩] }
  | decrypted {i : ι} {c : FieldCall π} {dek out : Bytes} : s.calls i = .ready c dek →
      FieldMoves s (.finish i) (s.setCall i (.returned (.ok out)))
  | failed {l : FieldStep ι π} {i : ι} {e : Err} {random : ℕ → UInt8} :
      FieldMoves s l ((s.setCall i (.returned (.error e))).drawn random)
  | forgetRow {V : Instance π} {t u : String} {row : SubjectKey} :
      s.keys.subjectKeys t u = some row →
      FieldMoves s (.forgetRow V t u) { s with
        keys := s.keys.setRow t u { row with dekWrapped := [], shredded := true } }
  | forgetNothing {V : Instance π} {t u : String} : FieldMoves s (.forgetRow V t u) s
  | dropped {l : FieldStep ι π} {caches : π → String → Option Bytes} :
      (∀ j key dek, caches j key = some dek → s.keys.caches j key = some dek) →
      FieldMoves s l { s with keys := { s.keys with caches := caches } }

variable {s s' : FieldSys ι π}

theorem FieldMoves.fail {l : FieldStep ι π} {i : ι} {e : Err} :
    FieldMoves s l (s.setCall i (.returned (.error e))) :=
  show FieldMoves s l ((s.setCall i (.returned (.error e))).drawn s.keys.random) from .failed

theorem FieldSys.moves_get {i : ι} {c : FieldCall π} (hc : s.calls i = .missed c) :
    FieldMoves s (.get i)
      (s.perform i (c.shredder.getSubjectKey c.tenant c.subject) c.got) := by
  unfold FieldSys.perform Instance.getSubjectKey
  cases c.shredder.readFault with
  | some msg => exact .fail
  | none =>
    dsimp only
    cases hrow : s.keys.subjectKeys c.tenant c.subject with
    | none =>
      cases hop : c.op with
      | encrypt =>
        simp only [FieldCall.got, hop]
        exact .absent hc
      | decrypt =>
        simp only [FieldCall.got, hop]
        exact .fail
    | some row =>
      simp only [FieldCall.got]
      split_ifs with hsh
      · cases c.op <;> exact .fail
      · exact .found hc hrow (by simpa using hsh)

theorem FieldSys.moves_wrap {i : ι} {c : FieldCall π} (hc : s.calls i = .absent c) :
    FieldMoves s (.wrap i)
      (s.perform i c.freshKey fun x => .wrapped c x.1 x.2.1 x.2.2) := by
  -- 32 random bytes are drawn, whether the key store wraps them or not
  cases hw : c.shredder.kms.wrapDEK c.tenant ((List.range 32).map s.keys.random) with
  | error e =>
    simp only [FieldSys.perform, FieldCall.freshKey, readRandom, bind, EStateM.bind,
      EStateM.ofExcept, hw, Except.mapError]
    exact .failed
  | ok x =>
    simp only [FieldSys.perform, FieldCall.freshKey, readRandom, bind, EStateM.bind,
      EStateM.ofExcept, hw, Except.mapError, pure, EStateM.pure]
    exact .wrapped hc hw

omit [DecidableEq π] in
/-- What `aesGCMSealField` returns. -/
theorem aesGCMSealField_cases (G : Crypto) (dek pt : Bytes) (k : Keys π) :
    (∃ e, aesGCMSealField G dek pt k = .error e k) ∨
      validKeySize dek = true ∧ ∃ iv random, iv.length = nonceSize ∧
        aesGCMSealField G dek pt k =
          .ok (wireV1AESGCM :: (iv ++ G.gcmSeal dek iv pt)) { k with random := random } := by
  by_cases hv : validKeySize dek = true
  · refine Or.inr ⟨hv, (List.range nonceSize).map k.random, fun i => k.random (nonceSize + i),
      by simp, ?_⟩
    simp [aesGCMSealField, newCipher, hv, readRandom, bind, EStateM.bind, EStateM.ofExcept, pure,
      EStateM.pure]
  · cases hn : newCipher dek with
    | error e => exact Or.inl ⟨e, by simp [aesGCMSealField, hn, bind, EStateM.bind,
        EStateM.ofExcept]⟩
    | ok =>
      simp only [newCipher, if_neg hv] at hn
      cases hn

theorem FieldSys.moves_finish {i : ι} {c : FieldCall π} {dek : Bytes}
    (hc : s.calls i = .ready c dek) (h : s.next (.finish i) = some s') :
    FieldMoves s (.finish i) s' := by
  simp only [FieldSys.next, hc, FieldCall.crypt, FieldCall.record] at h
  cases hop : c.op with
  | encrypt =>
    simp only [hop] at h
    rcases aesGCMSealField_cases c.shredder.crypto dek c.input s.keys with
      ⟨e, he⟩ | ⟨hv, iv, random, hiv, hok⟩
    · rw [he] at h
      cases h
      exact .fail
    · rw [hok] at h
      cases h
      exact .encrypted hc hv hiv
  | decrypt =>
    simp only [hop, EStateM.ofExcept, List.append_nil] at h
    cases hopen : aesGCMOpenField c.shredder.crypto dek c.input with
    | error e =>
      rw [hopen] at h
      cases h
      exact .fail
    | ok out =>
      rw [hopen] at h
      cases h
      exact .decrypted hc

/-- Every step is one of the moves. -/
theorem FieldSys.moves {l : FieldStep ι π} (h : s.next l = some s') : FieldMoves s l s' := by
  cases l with
  | begin i c =>
    simp only [FieldSys.next] at h
    split at h
    · cases h
      exact .begin ‹_›
    · cases h
  | lookup i =>
    simp only [FieldSys.next] at h
    split at h
    · rename_i c hc
      cases h
      simp only [FieldSys.perform, cacheGet]
      cases hcache : s.keys.caches c.shredder.process (cacheKey c.tenant c.subject) with
      | none => exact .miss hc
      | some dek => exact .hit hc hcache
    · cases h
  | get i =>
    simp only [FieldSys.next] at h
    split at h
    · cases h
      exact moves_get ‹_›
    · cases h
  | wrap i =>
    simp only [FieldSys.next] at h
    split at h
    · cases h
      exact moves_wrap ‹_›
    · cases h
  | unwrap i =>
    simp only [FieldSys.next] at h
    split at h
    · rename_i c row hc
      cases h
      simp only [FieldSys.perform, EStateM.ofExcept, Instance.unwrap]
      cases hu : c.shredder.kms.unwrapDEK c.tenant row.dekWrapped row.kekVersion with
      | error e => exact .fail
      | ok dek => exact .unwrapped hc hu
    · cases h
  | upsert i =>
    simp only [FieldSys.next] at h
    split at h
    · rename_i c dek w v hc
      cases h
      simp only [FieldSys.perform, Instance.upsertSubjectKey]
      cases c.shredder.writeFault with
      | some msg => exact .fail
      | none => exact .stored hc
    · cases h
  | set i =>
    simp only [FieldSys.next] at h
    split at h
    · cases h
      exact .cached ‹_›
    · cases h
  | finish i =>
    cases hc : s.calls i with
    | ready c dek => exact moves_finish hc h
    | _ =>
      simp only [FieldSys.next, hc] at h
      cases h
  | forgetRow V t u =>
    simp only [FieldSys.next, Instance.forgetRow] at h
    cases hf : V.writeFault with
    | some msg =>
      rw [hf] at h
      cases h
      exact .forgetNothing
    | none =>
      rw [hf] at h
      cases hrow : s.keys.subjectKeys t u with
      | none =>
        rw [hrow] at h
        cases h
        exact .forgetNothing
      | some row =>
        rw [hrow] at h
        cases h
        exact .forgetRow hrow
  | forgetCached j t u =>
    cases h
    refine .dropped fun i key dek hd => ?_
    split_ifs at hd
    exact hd
  | clear j =>
    cases h
    refine .dropped fun i key dek hd => ?_
    split_ifs at hd
    exact hd

end Moves

/-! ### A call that is left to itself -/

section Alone

variable {ι π α : Type} [DecidableEq ι] [DecidableEq π] {s : FieldSys ι π} {i : ι}
  {c : FieldCall π}

/-- The steps of one call. -/
def FieldStep.own (i : ι) : List (FieldStep ι π) :=
  [.lookup i, .get i, .wrap i, .unwrap i, .upsert i, .set i, .finish i]

/-- The function that is called. -/
def FieldCall.whole (c : FieldCall π) : EStateM Err (Keys π) Bytes :=
  match c.op with
  | .encrypt => c.shredder.encryptField c.tenant c.subject c.input
  | .decrypt => c.shredder.decryptField c.tenant c.subject c.input

/-- Steps of the call alone lead to the result. -/
def FieldSys.EndsWith (s : FieldSys ι π) (i : ι) (r : EStateM.Result Err (Keys π) Bytes) : Prop :=
  ∃ ls s', ls ⊆ FieldStep.own i ∧ TS.exec FieldSys.next s ls = some s' ∧
    match r with
    | .ok out k => s'.calls i = .returned (.ok out) ∧ s'.keys = k
    | .error e k => s'.calls i = .returned (.error e) ∧ s'.keys = k

omit [DecidableEq π] in
theorem FieldSys.calls_setCall {pr : FieldProc π} : (s.setCall i pr).calls i = pr := if_pos rfl

/-- A piece of the function, and what follows it. -/
theorem FieldSys.EndsWith.perform {x : EStateM Err (Keys π) α} {f : α → EStateM Err (Keys π) Bytes}
    {next : α → FieldProc π} {l : FieldStep ι π} (hl : l ∈ FieldStep.own i)
    (hnext : s.next l = some (s.perform i x next))
    (hf : ∀ a k, FieldSys.EndsWith { s.setCall i (next a) with keys := k } i (f a k)) :
    s.EndsWith i ((x >>= f) s.keys) := by
  simp only [bind, EStateM.bind]
  unfold FieldSys.perform at hnext
  cases hx : x s.keys with
  | ok a k =>
    rw [hx] at hnext
    obtain ⟨ls, s', hls, hs', hr⟩ := hf a k
    refine ⟨l :: ls, s', List.cons_subset.2 ⟨hl, hls⟩, ?_, hr⟩
    rw [TS.exec, hnext]
    exact hs'
  | error e k =>
    rw [hx] at hnext
    refine ⟨[l], { s.setCall i (.returned (.error e)) with keys := k },
      List.cons_subset.2 ⟨hl, List.nil_subset _⟩, ?_, calls_setCall, rfl⟩
    rw [TS.exec, hnext]
    rfl

/-- A call that has returned. -/
theorem FieldSys.EndsWith.error {e : Err} (hc : s.calls i = .returned (.error e)) :
    s.EndsWith i (.error e s.keys) :=
  ⟨[], s, List.nil_subset _, rfl, hc, rfl⟩

theorem FieldSys.EndsWith.finish {dek : Bytes} (hc : s.calls i = .ready c dek) :
    s.EndsWith i (c.crypt dek s.keys) := by
  have hl : [.finish i] ⊆ (FieldStep.own i : List (FieldStep ι π)) := by
    simp [FieldStep.own]
  cases hx : c.crypt dek s.keys with
  | ok out k =>
    refine ⟨[.finish i], { s.setCall i (.returned (.ok out)) with
      keys := k, sealed := s.sealed ++ c.record out }, hl, ?_, calls_setCall, rfl⟩
    simp only [TS.exec, FieldSys.next, hc, hx, Option.bind]
  | error e k =>
    refine ⟨[.finish i], { s.setCall i (.returned (.error e)) with keys := k }, hl, ?_,
      calls_setCall, rfl⟩
    simp only [TS.exec, FieldSys.next, hc, hx, Option.bind]

/-- A key that is in hand is cached and used. -/
theorem FieldSys.EndsWith.keyed {dek : Bytes} (hc : s.calls i = .keyed c dek) :
    s.EndsWith i ((cacheSet c.shredder.process c.tenant c.subject dek >>= fun _ =>
      c.crypt dek) s.keys) := by
  refine .perform (l := .set i) (by simp [FieldStep.own]) ?_ fun _ k => .finish calls_setCall
  simp only [FieldSys.next, hc]

/-- The key of a row is unwrapped, cached and used. -/
theorem FieldSys.EndsWith.found {row : SubjectKey} (hc : s.calls i = .found c row) :
    s.EndsWith i ((EStateM.ofExcept (c.shredder.unwrap c.tenant row c.unwrapError) >>= fun dek =>
      cacheSet c.shredder.process c.tenant c.subject dek >>= fun _ => c.crypt dek) s.keys) := by
  refine .perform (l := .unwrap i) (by simp [FieldStep.own]) ?_ fun _ k => .keyed calls_setCall
  simp only [FieldSys.next, hc]

/-- A wrapped key is stored, cached and used. -/
theorem FieldSys.EndsWith.wrapped {dek w : Bytes} {v : UInt32}
    (hc : s.calls i = .wrapped c dek w v) :
    s.EndsWith i ((c.shredder.upsertSubjectKey c.tenant c.subject w v >>= fun _ =>
      cacheSet c.shredder.process c.tenant c.subject dek >>= fun _ => c.crypt dek) s.keys) := by
  refine .perform (l := .upsert i) (by simp [FieldStep.own]) ?_ fun _ k => .keyed calls_setCall
  simp only [FieldSys.next, hc]

/-- A fresh key is generated, stored, cached and used. -/
theorem FieldSys.EndsWith.absent (hc : s.calls i = .absent c) :
    s.EndsWith i ((c.shredder.createSubjectKey c.tenant c.subject >>= c.crypt) s.keys) := by
  have hcreate : c.shredder.createSubjectKey c.tenant c.subject >>= c.crypt =
      c.freshKey >>= fun x =>
        c.shredder.upsertSubjectKey c.tenant c.subject x.2.1 x.2.2 >>= fun _ =>
          cacheSet c.shredder.process c.tenant c.subject x.1 >>= fun _ => c.crypt x.1 := by
    simp only [Instance.createSubjectKey, FieldCall.freshKey, bind_assoc, pure_bind]
  rw [hcreate]
  refine .perform (l := .wrap i) (by simp [FieldStep.own]) ?_ fun x k => .wrapped calls_setCall
  simp only [FieldSys.next, hc]

/-- What is left of the function after `GetSubjectKey`. -/
def FieldCall.rest (c : FieldCall π) : Option SubjectKey → EStateM Err (Keys π) Bytes
  | none =>
    let subject := c.subject
    match c.op with
    | .encrypt => c.shredder.createSubjectKey c.tenant c.subject >>= c.crypt
    | .decrypt => throw (.text s!"shred: no DEK for subject \"{subject}\"")
  | some row =>
    let subject := c.subject
    if row.shredded then
      match c.op with
      | .encrypt => throw (.text s!"shred: subject \"{subject}\" has been shredded")
      | .decrypt => throw (.sentinel .shredded)
    else
      EStateM.ofExcept (c.shredder.unwrap c.tenant row c.unwrapError) >>= fun dek =>
        cacheSet c.shredder.process c.tenant c.subject dek >>= fun _ => c.crypt dek

theorem FieldSys.EndsWith.got {found : Option SubjectKey} (hc : s.calls i = c.got found) :
    s.EndsWith i (c.rest found s.keys) := by
  cases found with
  | none =>
    cases hop : c.op with
    | encrypt =>
      simp only [FieldCall.rest, FieldCall.got, hop] at hc ⊢
      exact .absent hc
    | decrypt =>
      simp only [FieldCall.rest, FieldCall.got, hop] at hc ⊢
      exact .error hc
  | some row =>
    simp only [FieldCall.rest, FieldCall.got] at hc ⊢
    split_ifs at hc ⊢
    · cases hop : c.op with
      | encrypt =>
        simp only [hop] at hc ⊢
        exact .error hc
      | decrypt =>
        simp only [hop] at hc ⊢
        exact .error hc
    · exact .found hc

/-- Both functions look into the cache first, and into the table if the key is not there. -/
theorem FieldCall.whole_eq (c : FieldCall π) : c.whole =
    cacheGet c.shredder.process c.tenant c.subject >>= fun cached =>
      match cached with
      | some dek => c.crypt dek
      | none => c.shredder.getSubjectKey c.tenant c.subject >>= c.rest := by
  cases hop : c.op with
  | encrypt =>
    have hcrypt : ∀ dek, aesGCMSealField c.shredder.crypto dek c.input = c.crypt dek := by
      intro dek
      simp only [FieldCall.crypt, hop]
    simp only [FieldCall.whole, hop, Instance.encryptField, Instance.ensureSubjectKey, bind_assoc]
    refine bind_congr fun cached => ?_
    cases cached with
    | some dek => simp only [pure_bind, hcrypt]
    | none =>
      simp only [bind_assoc]
      refine bind_congr fun found => ?_
      cases found with
      | none => simp only [FieldCall.rest, hop, hcrypt]
      | some row =>
        simp only [FieldCall.rest, hop, FieldCall.unwrapError]
        split_ifs
        · rfl
        · simp only [bind_assoc, pure_bind, hcrypt]
  | decrypt =>
    have hcrypt : ∀ dek, EStateM.ofExcept (aesGCMOpenField c.shredder.crypto dek c.input) =
        c.crypt dek := by
      intro dek
      simp only [FieldCall.crypt, hop]
    simp only [FieldCall.whole, hop, Instance.decryptField, hcrypt]
    refine bind_congr fun cached => ?_
    cases cached with
    | some dek => rfl
    | none =>
      refine bind_congr fun found => ?_
      cases found with
      | none => simp only [FieldCall.rest, hop]
      | some row => simp only [FieldCall.rest, hop, FieldCall.unwrapError]

/-- **Without other calls in between, the steps of a call are the function of the package.** -/
theorem FieldSys.endsWith_whole (hc : s.calls i = .begun c) : s.EndsWith i (c.whole s.keys) := by
  rw [FieldCall.whole_eq]
  have hlookup : s.next (.lookup i) =
      some (s.perform i (cacheGet c.shredder.process c.tenant c.subject) c.looked) := by
    simp only [FieldSys.next, hc]
  refine .perform (by simp [FieldStep.own]) hlookup fun cached k => ?_
  cases cached with
  | some dek => exact .finish calls_setCall
  | none =>
    have hget : FieldSys.next { s.setCall i (.missed c) with keys := k } (.get i) =
        some (FieldSys.perform { s.setCall i (.missed c) with keys := k } i
          (c.shredder.getSubjectKey c.tenant c.subject) c.got) := by
      simp only [FieldSys.next, calls_setCall]
    exact .perform (by simp [FieldStep.own]) hget fun found k => .got calls_setCall

end Alone

/-! ### One key for each subject -/

section OneKey

variable {ι π : Type} {U : String → Bytes → UInt32 → Option Bytes} {G : Crypto}
  {dek dek' : String → String → Option Bytes} {used used' : List (String × String)}

/-- A call of a shredder that shares the key store and the cipher. -/
structure FieldCall.Of (U : String → Bytes → UInt32 → Option Bytes) (G : Crypto)
    (used : List (String × String)) (c : FieldCall π) : Prop where
  custody : c.shredder.kms.Custody U
  crypto : c.shredder.crypto = G
  used : (c.tenant, c.subject) ∈ used

/-- What a call holds: the key of its subject, or a fresh one. -/
def FieldProc.Holds (U : String → Bytes → UInt32 → Option Bytes) (G : Crypto)
    (dek : String → String → Option Bytes) (used : List (String × String)) : FieldProc π → Prop
  | .idle => True
  | .begun c => c.Of U G used
  | .missed c => c.Of U G used
  | .absent c => c.Of U G used
  | .found c row => c.Of U G used ∧ ∃ d, dek c.tenant c.subject = some d ∧
      U c.tenant row.dekWrapped row.kekVersion = some d
  | .wrapped c d w v => c.Of U G used ∧ U c.tenant w v = some d
  | .keyed c d => c.Of U G used ∧ dek c.tenant c.subject = some d
  | .ready c d => c.Of U G used ∧ dek c.tenant c.subject = some d
  | .returned _ => True

/-- The ciphertext is sealed under the key of its subject. -/
structure SealedField.Under (G : Crypto) (dek : String → String → Option Bytes)
    (used : List (String × String)) (x : SealedField) : Prop where
  used : (x.tenant, x.subject) ∈ used
  sealed : ∃ d iv, dek x.tenant x.subject = some d ∧ validKeySize d = true ∧
    iv.length = nonceSize ∧ x.ciphertext = wireV1AESGCM :: (iv ++ G.gcmSeal d iv x.plaintext)

/-- Every subject has one key: the table, the caches, the calls and the ciphertexts agree on it. -/
structure OneKey (U : String → Bytes → UInt32 → Option Bytes) (G : Crypto)
    (dek : String → String → Option Bytes) (s : FieldSys ι π) : Prop where
  row : ∀ t u row, s.keys.subjectKeys t u = some row → row.shredded = false →
    ∃ d, dek t u = some d ∧ U t row.dekWrapped row.kekVersion = some d
  stored : ∀ t u, s.keys.subjectKeys t u = none → dek t u = none
  cache : ∀ j key d, s.keys.caches j key = some d →
    ∃ x ∈ s.used, cacheKey x.1 x.2 = key ∧ dek x.1 x.2 = some d
  calls : ∀ i, (s.calls i).Holds U G dek s.used
  apart : ∀ x ∈ s.used, ∀ y ∈ s.used, cacheKey x.1 x.2 = cacheKey y.1 y.2 → x = y
  sealed : ∀ x ∈ s.sealed, x.Under G dek s.used

theorem FieldCall.Of.mono {c : FieldCall π} (h : c.Of U G used) (hu : used ⊆ used') :
    c.Of U G used' :=
  ⟨h.custody, h.crypto, hu h.used⟩

/-- Keys that are known stay. -/
theorem FieldProc.Holds.mono {pr : FieldProc π} (h : pr.Holds U G dek used) (hu : used ⊆ used')
    (hd : ∀ t u d, dek t u = some d → dek' t u = some d) : pr.Holds U G dek' used' := by
  cases pr with
  | idle => trivial
  | begun c => exact FieldCall.Of.mono h hu
  | missed c => exact FieldCall.Of.mono h hu
  | absent c => exact FieldCall.Of.mono h hu
  | found c row =>
    obtain ⟨hc, d, hk, hU⟩ := h
    exact ⟨hc.mono hu, d, hd _ _ _ hk, hU⟩
  | wrapped c d w v => exact ⟨h.1.mono hu, h.2⟩
  | keyed c d => exact ⟨h.1.mono hu, hd _ _ _ h.2⟩
  | ready c d => exact ⟨h.1.mono hu, hd _ _ _ h.2⟩
  | returned res => trivial

theorem SealedField.Under.mono {x : SealedField} (h : x.Under G dek used) (hu : used ⊆ used')
    (hd : ∀ t u d, dek t u = some d → dek' t u = some d) : x.Under G dek' used' := by
  obtain ⟨d, iv, hk, hrest⟩ := h.sealed
  exact ⟨hu h.used, d, iv, hd _ _ _ hk, hrest⟩

namespace OneKey

theorem start (random : ℕ → UInt8) :
    OneKey U G (fun _ _ => none) (FieldSys.start random : FieldSys ι π) where
  row _ _ _ h := by cases h
  stored _ _ _ := rfl
  cache _ _ _ h := by cases h
  calls _ := trivial
  apart _ hx := absurd hx List.not_mem_nil
  sealed _ hx := absurd hx List.not_mem_nil

variable [DecidableEq ι] {s s' : FieldSys ι π}

/-- A call moves on, and only random bytes are drawn. -/
theorem moved (h : OneKey U G dek s) {i : ι} {pr : FieldProc π} (random : ℕ → UInt8)
    (hpr : pr.Holds U G dek s.used) : OneKey U G dek ((s.setCall i pr).drawn random) where
  row := h.row
  stored := h.stored
  cache := h.cache
  calls j := by
    show FieldProc.Holds U G dek s.used (if j = i then pr else s.calls j)
    split_ifs
    · exact hpr
    · exact h.calls j
  apart := h.apart
  sealed := h.sealed

/-- A key that is not in the table yet becomes the key of its subject. -/
theorem stores (h : OneKey U G dek s) {i : ι} {c : FieldCall π} {d w : Bytes} {v : UInt32}
    {sh : Bool} (hc : s.calls i = .wrapped c d w v)
    (hnone : s.keys.subjectKeys c.tenant c.subject = none) :
    OneKey U G (fun t u => if t = c.tenant ∧ u = c.subject then some d else dek t u)
      { s.setCall i (.keyed c d) with
        keys := s.keys.setRow c.tenant c.subject ⟨w, v, sh⟩ } := by
  have hold := h.calls i
  rw [hc] at hold
  have hfree : dek c.tenant c.subject = none := h.stored _ _ hnone
  -- no other key is touched, and the one of the subject was not known
  have hmono : ∀ t u d', dek t u = some d' →
      (if t = c.tenant ∧ u = c.subject then some d else dek t u) = some d' := by
    intro t u d' hd
    rw [if_neg]
    · exact hd
    · rintro ⟨rfl, rfl⟩
      rw [hfree] at hd
      cases hd
  refine ⟨fun t u row hrow hsh => ?_, fun t u hn => ?_, fun j key d' hd => ?_, fun j => ?_,
    h.apart, fun x hx => (h.sealed x hx).mono (fun _ hu => hu) hmono⟩
  · simp only [Keys.setRow] at hrow
    split_ifs at hrow with ht
    · cases hrow
      rw [ht.1]
      exact ⟨d, by rw [if_pos ⟨rfl, ht.2⟩], hold.2⟩
    · obtain ⟨d', hd, hU⟩ := h.row t u row hrow hsh
      exact ⟨d', hmono _ _ _ hd, hU⟩
  · simp only [Keys.setRow] at hn
    split_ifs at hn with ht
    rw [if_neg ht]
    exact h.stored t u hn
  · obtain ⟨x, hx, hkey, hk⟩ := h.cache j key d' hd
    exact ⟨x, hx, hkey, hmono _ _ _ hk⟩
  · show FieldProc.Holds U G _ s.used (if j = i then .keyed c d else s.calls j)
    split_ifs
    · exact ⟨hold.1, if_pos ⟨rfl, rfl⟩⟩
    · exact (h.calls j).mono (fun _ hu => hu) hmono

theorem begins (h : OneKey U G dek s) {i : ι} {c : FieldCall π}
    (hshare : c.shredder.kms.Custody U ∧ c.shredder.crypto = G)
    (hapart : ∀ x ∈ s.used, cacheKey x.1 x.2 = cacheKey c.tenant c.subject →
      x = (c.tenant, c.subject)) :
    OneKey U G dek
      { s.setCall i (.begun c) with used := s.used ++ [(c.tenant, c.subject)] } := by
  have hu : s.used ⊆ s.used ++ [(c.tenant, c.subject)] := fun _ hx => List.mem_append_left _ hx
  refine ⟨h.row, h.stored, fun j key d hd => ?_, fun j => ?_, fun x hx y hy he => ?_,
    fun x hx => (h.sealed x hx).mono hu fun _ _ _ hk => hk⟩
  · obtain ⟨x, hx, hrest⟩ := h.cache j key d hd
    exact ⟨x, hu hx, hrest⟩
  · show FieldProc.Holds U G dek _ (if j = i then .begun c else s.calls j)
    split_ifs
    · exact ⟨hshare.1, hshare.2, List.mem_append_right _ (List.mem_singleton.2 rfl)⟩
    · exact (h.calls j).mono hu fun _ _ _ hk => hk
  · rcases List.mem_append.1 hx with hx | hx
    · rcases List.mem_append.1 hy with hy | hy
      · exact h.apart x hx y hy he
      · obtain rfl := List.mem_singleton.1 hy
        exact hapart x hx he
    · obtain rfl := List.mem_singleton.1 hx
      rcases List.mem_append.1 hy with hy | hy
      · exact (hapart y hy he.symm).symm
      · exact (List.mem_singleton.1 hy).symm

variable [DecidableEq π]

theorem caches (h : OneKey U G dek s) {i : ι} {c : FieldCall π} {d : Bytes}
    (hc : s.calls i = .keyed c d) :
    OneKey U G dek { s.setCall i (.ready c d) with
      keys := s.keys.setCache c.shredder.process (cacheKey c.tenant c.subject) (some d) } := by
  have hold := h.calls i
  rw [hc] at hold
  have hm : OneKey U G dek ((s.setCall i (.ready c d)).drawn s.keys.random) := h.moved _ hold
  refine ⟨hm.row, hm.stored, fun j key d' hd => ?_, hm.calls, hm.apart, hm.sealed⟩
  simp only [Keys.setCache] at hd
  split_ifs at hd with hj
  · cases hd
    exact ⟨(c.tenant, c.subject), hold.1.used, hj.2.symm, hold.2⟩
  · exact h.cache j key d' hd

/-- **Every step of calls whose first uses do not meet leaves every subject its key.** -/
theorem step (h : OneKey U G dek s) {l : FieldStep ι π} (hl : l.Shares U G) (hf : s.FirstUse l)
    (hm : FieldMoves s l s') : ∃ dek', OneKey U G dek' s' := by
  cases hm with
  | begin _ => exact ⟨dek, h.begins hl hf⟩
  | @hit i c d hc hcache =>
    have hold := h.calls i
    rw [hc] at hold
    -- the place in the cache belongs to this subject only
    obtain ⟨x, hx, hkey, hk⟩ := h.cache _ _ _ hcache
    obtain rfl := h.apart x hx _ hold.used hkey
    exact ⟨dek, h.moved s.keys.random ⟨hold, hk⟩⟩
  | @miss i c hc =>
    have hold := h.calls i
    rw [hc] at hold
    exact ⟨dek, h.moved s.keys.random hold⟩
  | @absent i c hc =>
    have hold := h.calls i
    rw [hc] at hold
    exact ⟨dek, h.moved s.keys.random hold⟩
  | @found i c row hc hrow hsh =>
    have hold := h.calls i
    rw [hc] at hold
    exact ⟨dek, h.moved s.keys.random ⟨hold, h.row _ _ row hrow hsh⟩⟩
  | @wrapped i c d w v random hc hw =>
    have hold := h.calls i
    rw [hc] at hold
    exact ⟨dek, h.moved random ⟨hold, hold.custody.wrap _ _ _ _ hw⟩⟩
  | @unwrapped i c row d hc hu =>
    have hold := h.calls i
    rw [hc] at hold
    obtain ⟨hof, d', hk, hU⟩ := hold
    rw [hof.custody.unwrap _ _ _ _ hu] at hU
    cases hU
    exact ⟨dek, h.moved s.keys.random ⟨hof, hk⟩⟩
  | @stored i c d w v sh hc =>
    have hfresh : (s.calls i).Fresh s.keys := hf
    rw [hc] at hfresh
    exact ⟨_, h.stores hc hfresh⟩
  | cached hc => exact ⟨dek, h.caches hc⟩
  | @encrypted i c d iv random hc hv hiv =>
    have hold := h.calls i
    rw [hc] at hold
    obtain ⟨hof, hk⟩ := hold
    have hm : OneKey U G dek ((s.setCall i (.returned (.ok (wireV1AESGCM ::
        (iv ++ c.shredder.crypto.gcmSeal d iv c.input))))).drawn random) := h.moved random trivial
    refine ⟨dek, hm.row, hm.stored, hm.cache, hm.calls, hm.apart, fun x hx => ?_⟩
    rcases List.mem_append.1 hx with hx | hx
    · exact h.sealed x hx
    · obtain rfl := List.mem_singleton.1 hx
      exact ⟨hof.used, d, iv, hk, hv, hiv, by rw [hof.crypto]⟩
  | decrypted hc => exact ⟨dek, h.moved s.keys.random trivial⟩
  | failed => exact ⟨dek, h.moved _ trivial⟩
  | @forgetRow V t u row hrow =>
    refine ⟨dek, fun t' u' row' hrow' hsh => ?_, fun t' u' hn => ?_, h.cache, h.calls, h.apart,
      h.sealed⟩
    · simp only [Keys.setRow] at hrow'
      split_ifs at hrow' with ht
      · cases hrow'
        cases hsh
      · exact h.row t' u' row' hrow' hsh
    · simp only [Keys.setRow] at hn
      split_ifs at hn
      exact h.stored t' u' hn
  | forgetNothing => exact ⟨dek, h⟩
  | dropped hsub =>
    exact ⟨dek, h.row, h.stored, fun j key d hd => h.cache j key d (hsub j key d hd), h.calls,
      h.apart, h.sealed⟩

theorem of_reachable (h : (firstUseSystem U G).Reachable s) : ∃ dek, OneKey U G dek s := by
  induction h with
  | init h₀ =>
    obtain ⟨random, rfl⟩ := h₀
    exact ⟨_, start random⟩
  | step _ hstep ih =>
    obtain ⟨hf, hl, hnext⟩ := hstep
    obtain ⟨dek, ih⟩ := ih
    exact ih.step hl hf (FieldSys.moves hnext)

end OneKey

theorem Crypto.Lawful.aesGCMOpenField (hG : G.Lawful) {d iv : Bytes} (hv : validKeySize d = true)
    (hiv : iv.length = nonceSize) (pt : Bytes) :
    aesGCMOpenField G d (wireV1AESGCM :: (iv ++ G.gcmSeal d iv pt)) = .ok pt := by
  have hlen := hG.length d iv pt
  have hbody : ¬ (iv ++ G.gcmSeal d iv pt).length < nonceSize + overhead := by
    rw [List.length_append]
    omega
  simp only [Shred.aesGCMOpenField, newCipher, hv, if_true, bind, Except.bind, if_neg hbody]
  rw [List.take_left' hiv, List.drop_left' hiv, hG.gcmOpen]
  rfl

/-- The value is the plaintext, sealed under the key. -/
def SealedUnder (G : Crypto) (dek pt ct : Bytes) : Prop :=
  ∃ iv, iv.length = nonceSize ∧ ct = wireV1AESGCM :: (iv ++ G.gcmSeal dek iv pt)

/-- The key opens what was sealed under it. -/
theorem SealedUnder.opens {dek pt ct : Bytes} (h : SealedUnder G dek pt ct) (hG : G.Lawful)
    (hv : validKeySize dek = true) : Shred.aesGCMOpenField G dek ct = .ok pt := by
  obtain ⟨iv, hiv, rfl⟩ := h
  exact hG.aesGCMOpenField hv hiv pt

variable [DecidableEq ι] [DecidableEq π] {s : FieldSys ι π}

/-- **What was encrypted is decrypted everywhere.**  In every run of `EncryptField` and
`DecryptField` calls of shredders that share a table, a key store and a cipher, in which a fresh key
is stored only for a subject without a row and no two subjects share a place in the caches: every
ciphertext returned so far for a subject that is not forgotten is decrypted to its plaintext in
every process, whether its cache holds the key or not. -/
theorem encrypted_decrypts (hG : G.Lawful) (h : (firstUseSystem U G).Reachable s) {x : SealedField}
    (hx : x ∈ s.sealed)
    (hrow : ∀ row, s.keys.subjectKeys x.tenant x.subject = some row → row.shredded = false)
    {V : Instance π} (hcrypto : V.crypto = G) (hread : V.readFault = none)
    (hkms : ∀ t w v d, U t w v = some d → V.kms.unwrapDEK t w v = .ok d) :
    ∃ k', V.decryptField x.tenant x.subject x.ciphertext s.keys = .ok x.plaintext k' := by
  obtain ⟨dek, ho⟩ := OneKey.of_reachable h
  obtain ⟨hused, d, iv, hk, hv, hiv, hct⟩ := ho.sealed x hx
  have hopen := hG.aesGCMOpenField hv hiv x.plaintext
  rw [← hct, ← hcrypto] at hopen
  cases hcache : s.keys.caches V.process (cacheKey x.tenant x.subject) with
  | some d' =>
    -- what the cache holds is the key of the subject
    obtain ⟨y, hy, hkey, hk'⟩ := ho.cache _ _ _ hcache
    obtain rfl := ho.apart y hy _ hused hkey
    rw [hk] at hk'
    cases hk'
    refine ⟨s.keys, ?_⟩
    simp [Instance.decryptField, cacheGet, hcache, bind, EStateM.bind, EStateM.ofExcept, hopen]
  | none =>
    -- the row holds it too
    cases hkeys : s.keys.subjectKeys x.tenant x.subject with
    | none =>
      rw [ho.stored _ _ hkeys] at hk
      cases hk
    | some row =>
      have hsh := hrow row hkeys
      obtain ⟨d', hk', hU⟩ := ho.row _ _ row hkeys hsh
      rw [hk] at hk'
      cases hk'
      have hunwrap := hkms _ _ _ _ hU
      refine ⟨s.keys.setCache V.process (cacheKey x.tenant x.subject) (some d), ?_⟩
      simp [Instance.decryptField, cacheGet, hcache, Instance.getSubjectKey, hread, hkeys, hsh,
        Instance.unwrap, hunwrap, Except.mapError, cacheSet, bind, EStateM.bind, EStateM.ofExcept,
        hopen]

end OneKey

/-! ### Two first uses meet -/

namespace Vault

/-- The tag of the key: its first bytes. -/
def tag (dek : Bytes) : Bytes := (dek ++ List.replicate overhead 0).take overhead

/-- A cipher small enough to compute with, that tells keys apart by their first bytes. -/
def crypto : Crypto where
  gcmSeal dek _ pt := pt ++ tag dek
  gcmOpen dek _ ct :=
    if ct.drop (ct.length - overhead) = tag dek then some (ct.take (ct.length - overhead)) else none
  encode64 := id
  decode64 := .ok

theorem length_tag (dek : Bytes) : (tag dek).length = overhead := by
  simp [tag]

theorem lawful : crypto.Lawful where
  gcmOpen dek _ pt := by
    have hlen : (pt ++ tag dek).length - overhead = pt.length := by
      rw [List.length_append, length_tag, Nat.add_sub_cancel]
    simp only [crypto, hlen, List.drop_left, List.take_left, if_true]
  length dek _ pt := by
    simp only [crypto, List.length_append, length_tag]
    exact Nat.le_add_left _ _

/-- A key store that leaves keys as they are. -/
def kms : KeyStore := ⟨fun _ dek => .ok (dek, 1), fun _ wrapped _ => .ok wrapped⟩

/-- What it unwraps to. -/
def unwrapped (_ : String) (wrapped : Bytes) (_ : UInt32) : Option Bytes := some wrapped

theorem custody : kms.Custody unwrapped where
  wrap _ _ _ _ h := by
    cases h
    rfl
  unwrap _ _ _ _ h := by
    cases h
    rfl

/-- The shredder of a process. -/
def shredder (j : Fin 3) : Instance (Fin 3) := ⟨j, kms, crypto, none, none⟩

/-- The shredder of the first process. -/
abbrev one : Instance (Fin 3) := shredder 0

/-- The steps of three processes. -/
abbrev Step : Type := FieldStep ℕ (Fin 3)

/-- Three processes. -/
abbrev Processes : Type := FieldSys ℕ (Fin 3)

/-- The process `j` is asked to encrypt the byte `b`. -/
def begins (i : ℕ) (j : Fin 3) (tenant subject : String) (b : UInt8) : Step :=
  .begin i ⟨shredder j, .encrypt, tenant, subject, [b]⟩

/-- The first use of a subject by itself. -/
def first (i : ℕ) : List Step := [.lookup i, .get i, .wrap i, .upsert i, .set i, .finish i]

/-- What a process reads in a ciphertext. -/
def opens (s : Processes) (j : Fin 3) (x : SealedField) : Option Bytes :=
  match (shredder j).decryptField x.tenant x.subject x.ciphertext s.keys with
  | .ok pt _ => some pt
  | .error _ _ => none

/-- The subject has a row, and is not forgotten. -/
def kept (s : Processes) (x : SealedField) : Option Bool :=
  (s.keys.subjectKeys x.tenant x.subject).map SubjectKey.shredded

theorem reachable {s : Processes} {ls : List Step} (hls : ∀ l ∈ ls, l.Shares unwrapped crypto)
    (hs : TS.exec FieldSys.next (.start UInt8.ofNat) ls = some s) :
    (fieldSystem unwrapped crypto).Reachable s :=
  TS.Reachable.exec (.init ⟨_, rfl⟩) (fun l hl _ _ h => ⟨hls l hl, h⟩) hs

/-- Two processes find no row for a subject, and both store a key. -/
def race : List Step :=
  [begins 0 0 "acme" "alice" 5, begins 1 1 "acme" "alice" 6, .lookup 0, .get 0, .lookup 1, .get 1,
    .wrap 0, .upsert 0, .set 0, .finish 0, .wrap 1, .upsert 1, .set 1, .finish 1]

/-- One process encrypts for two subjects with one place in its cache. -/
def sharedPlace : List Step :=
  begins 0 0 "a|b" "c" 5 :: first 0 ++ [begins 1 0 "a" "b|c" 6, .lookup 1, .finish 1]

end Vault

/-- Two first uses of a subject meet, and the key of one is replaced by that of the other: the third
process, with an empty cache, cannot decrypt what the first has encrypted.  And where two subjects
share a place in a cache, what is encrypted for the second has no key in the table. -/
theorem encrypted_lost :
    (∃ s : Vault.Processes, (fieldSystem Vault.unwrapped Vault.crypto).Reachable s ∧
      s.sealed.map (fun x => (x.plaintext, Vault.kept s x, Vault.opens s 2 x)) =
        [([5], some false, none), ([6], some false, some [6])]) ∧
      ∃ s : Vault.Processes, (fieldSystem Vault.unwrapped Vault.crypto).Reachable s ∧
        s.sealed.map (fun x => (x.plaintext, Vault.kept s x, Vault.opens s 2 x)) =
          [([5], some false, some [5]), ([6], none, none)] := by
  constructor
  · have hls : ∀ l ∈ Vault.race, l.Shares Vault.unwrapped Vault.crypto := by
      simp [Vault.race, FieldStep.Shares, Vault.begins, Vault.shredder, Vault.custody]
    have hend : (TS.exec FieldSys.next (.start UInt8.ofNat) Vault.race).map (fun s =>
        s.sealed.map fun x => (x.plaintext, Vault.kept s x, Vault.opens s 2 x)) =
          some [([5], some false, none), ([6], some false, some [6])] := by decide +kernel
    obtain ⟨s, hs, he⟩ := Option.map_eq_some_iff.1 hend
    exact ⟨s, Vault.reachable hls hs, he⟩
  · have hls : ∀ l ∈ Vault.sharedPlace, l.Shares Vault.unwrapped Vault.crypto := by
      simp [Vault.sharedPlace, Vault.first, FieldStep.Shares, Vault.begins, Vault.shredder,
        Vault.custody]
    have hend : (TS.exec FieldSys.next (.start UInt8.ofNat) Vault.sharedPlace).map (fun s =>
        s.sealed.map fun x => (x.plaintext, Vault.kept s x, Vault.opens s 2 x)) =
          some [([5], some false, some [5]), ([6], none, none)] := by decide +kernel
    obtain ⟨s, hs, he⟩ := Option.map_eq_some_iff.1 hend
    exact ⟨s, Vault.reachable hls hs, he⟩

/-- The second process comes when the key is stored; the third decrypts what both have encrypted. -/
theorem encrypted_decrypts_third : ∃ s : Vault.Processes,
    (firstUseSystem Vault.unwrapped Vault.crypto).Reachable s ∧
      s.sealed.map SealedField.plaintext = [[5], [6]] ∧
      ∀ x ∈ s.sealed, ∃ k', (Vault.shredder 2).decryptField x.tenant x.subject x.ciphertext s.keys =
        .ok x.plaintext k' := by
  let ls : List Vault.Step := Vault.begins 0 0 "acme" "alice" 5 :: Vault.first 0 ++
    [Vault.begins 1 1 "acme" "alice" 6, .lookup 1, .get 1, .unwrap 1, .set 1, .finish 1]
  let s? := TS.exec (fun s l => if s.FirstUse l then FieldSys.next s l else none)
    (.start UInt8.ofNat) ls
  have hls : ∀ l ∈ ls, l.Shares Vault.unwrapped Vault.crypto := by
    simp [ls, Vault.first, FieldStep.Shares, Vault.begins, Vault.shredder, Vault.custody]
  have hend : s?.map (fun s => s.sealed.map fun x => (x.plaintext, Vault.kept s x)) =
      some [([5], some false), ([6], some false)] := by decide +kernel
  obtain ⟨s, hs, he⟩ := Option.map_eq_some_iff.1 hend
  have hr : (firstUseSystem Vault.unwrapped Vault.crypto).Reachable s := by
    refine TS.Reachable.exec (.init ⟨_, rfl⟩) (fun l hl s s' h => ?_) hs
    split_ifs at h with hf
    exact ⟨hf, hls l hl, h⟩
  refine ⟨s, hr, ?_, fun x hx => ?_⟩
  · have hplain := congrArg (List.map Prod.fst) he
    rw [List.map_map] at hplain
    exact hplain
  · -- the subject has a row that is not shredded
    have hkept : (x.plaintext, Vault.kept s x) ∈ [([5], some false), ([6], some false)] :=
      he ▸ List.mem_map.2 ⟨x, hx, rfl⟩
    have hfalse : Vault.kept s x = some false := by
      simp only [List.mem_cons, Prod.mk.injEq, List.not_mem_nil, or_false] at hkept
      rcases hkept with ⟨-, hk⟩ | ⟨-, hk⟩ <;> exact hk
    refine encrypted_decrypts Vault.lawful hr hx (fun row hrow => ?_) rfl rfl fun _ _ _ _ hU => ?_
    · rw [Vault.kept, hrow] at hfalse
      exact Option.some.inj hfalse
    · cases hU
      rfl

end Shred

end EventStore
