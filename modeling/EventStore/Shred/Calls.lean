import EventStore.Kms.KeyStore
import EventStore.Prog.Basic
import EventStore.Shred.Rows

/-!
# The methods of a shredder, access by access

`shred.Shredder` with everything its methods touch: the table `subject_keys`, the caches of the
processes, the key store, and the source of random bytes.  A method is a program whose accesses are
the single operations on these, so that the same definition is run on its own, one call after the
other, and with other calls in between.

`Shred.Keys` has the methods for fields once more, with the table as a function and with a key store
that is no more than its answers during the call.  On their own, the programs here do what is said
there (`encryptField_run`, `decryptField_run`, `forgetSubject_run`).
-/

namespace EventStore

namespace Shred

/-- The state the methods work on, for processes `π`, a key store with states `σ` and timestamps
`τ`. -/
structure Deployment (π σ τ : Type) where
  /-- `subject_keys`. -/
  table : KeyTable τ
  /-- The `dekCache` of a process. -/
  caches : π → String → Option Bytes
  /-- What `crypto/rand` will return to the shredders. -/
  random : ℕ → UInt8
  kms : σ
  /-- For each query to come, the text of the error the database fails with, if it does. -/
  faults : ℕ → Option String
  /-- The clock of the database at each query to come. -/
  clock : ℕ → τ

/-- One operation on the state. -/
inductive KeyAccess (π : Type) where
  | cacheGet (j : π) (tenant subject : String)
  | cacheSet (j : π) (tenant subject : String) (dek : Bytes)
  | cacheForget (j : π) (tenant subject : String)
  | newCache (j : π)
  | readRandom (n : ℕ)
  | getSubjectKey (tenant subject : String)
  | upsertSubjectKey (tenant subject : String) (dekWrapped : Bytes) (kekVersion : UInt32)
  | forgetSubject (tenant subject : String)
  | listStaleSubjectKeys (tenant : String) (current : UInt32) (limit : ℤ)
  | wrapDEK (tenant : String) (dek : Bytes)
  | unwrapDEK (tenant : String) (wrapped : Bytes) (kekVersion : UInt32)
  | currentKEKVersion (tenant : String)
  | rotateKEK (tenant : String)
  deriving DecidableEq

/-- What an operation returns; for `getSubjectKey`, no row stands for `ErrSubjectKeyNotFound`. -/
def KeyAccess.Answer (τ : Type) {π : Type} : KeyAccess π → Type
  | .cacheGet .. => Option Bytes
  | .cacheSet .. | .cacheForget .. | .newCache _ => Unit
  | .readRandom _ => Bytes
  | .getSubjectKey .. => Except Err (Option (KeyRow τ))
  | .upsertSubjectKey .. | .forgetSubject .. => Except Err Unit
  | .listStaleSubjectKeys .. => Except Err (List (KeyRow τ))
  | .wrapDEK .. => Except Err (Bytes × UInt32)
  | .unwrapDEK .. => Except Err Bytes
  | .currentKEKVersion _ | .rotateKEK _ => Except Err UInt32

namespace Deployment

variable {π σ τ α : Type}

/-- The cache of one process with an entry set or deleted. -/
def setCache [DecidableEq π] (d : Deployment π σ τ) (j : π) (key : String) (dek : Option Bytes) :
    Deployment π σ τ :=
  { d with caches := fun i key' => if i = j ∧ key' = key then dek else d.caches i key' }

/-- The state after a query that left the table as `T`. -/
def queried (d : Deployment π σ τ) (T : KeyTable τ) : Deployment π σ τ :=
  { d with
    table := T
    faults := fun n => d.faults (n + 1)
    clock := fun n => d.clock (n + 1) }

/-- A query, which the database may refuse. -/
def query (d : Deployment π σ τ) (x : α) (T : KeyTable τ) : Except Err α × Deployment π σ τ :=
  match d.faults 0 with
  | some msg => (.error (.text msg), d.queried d.table)
  | none => (.ok x, d.queried T)

theorem query_fails {d : Deployment π σ τ} {msg : String} (h : d.faults 0 = some msg) (x : α)
    (T : KeyTable τ) : d.query x T = (.error (.text msg), d.queried d.table) := by
  rw [query, h]

theorem query_ok {d : Deployment π σ τ} (h : d.faults 0 = none) (x : α) (T : KeyTable τ) :
    d.query x T = (.ok x, d.queried T) := by
  rw [query, h]

/-- A call of the key store. -/
def callKMS (d : Deployment π σ τ) (x : EStateM Err σ α) : Except Err α × Deployment π σ τ :=
  match x d.kms with
  | .ok a k => (.ok a, { d with kms := k })
  | .error e k => (.error e, { d with kms := k })

/-- What the operations do. -/
def act [DecidableEq π] (K : Kms.KeyStore σ) :
    (a : KeyAccess π) → Deployment π σ τ → a.Answer τ × Deployment π σ τ
  | .cacheGet j t u, d => (d.caches j (cacheKey t u), d)
  | .cacheSet j t u dek, d => ((), d.setCache j (cacheKey t u) (some dek))
  | .cacheForget j t u, d => ((), d.setCache j (cacheKey t u) none)
  | .newCache j, d =>
    ((), { d with caches := fun i key => if i = j then none else d.caches i key })
  | .readRandom n, d =>
    ((List.range n).map d.random, { d with random := fun i => d.random (n + i) })
  | .getSubjectKey t u, d => d.query (d.table.get t u) d.table
  | .upsertSubjectKey t u w v, d => d.query () (d.table.upsert t u w v (d.clock 0))
  | .forgetSubject t u, d => d.query () (d.table.forget t u (d.clock 0))
  | .listStaleSubjectKeys t current limit, d => d.query (d.table.listStale t current limit) d.table
  | .wrapDEK t dek, d => d.callKMS (K.wrapDEK t dek)
  | .unwrapDEK t w v, d => d.callKMS (K.unwrapDEK t w v)
  | .currentKEKVersion t, d => d.callKMS (K.currentKEKVersion t)
  | .rotateKEK t, d => d.callKMS (K.rotateKEK t)

end Deployment

/-! ### The methods -/

/-- A method with the result `α`. -/
abbrev KeyProg (π τ α : Type) := Prog (KeyAccess π) (KeyAccess.Answer τ) Err α

namespace KeyProg

variable {π τ : Type}

/-- The program that performs one operation. -/
def ask (a : KeyAccess π) : KeyProg π τ (a.Answer τ) := .perform a

/-- `dekCache.get`. -/
def cacheGet (j : π) (tenant subject : String) : KeyProg π τ (Option Bytes) :=
  ask (.cacheGet j tenant subject)

/-- `dekCache.set`. -/
def cacheSet (j : π) (tenant subject : String) (dek : Bytes) : KeyProg π τ Unit :=
  ask (.cacheSet j tenant subject dek)

/-- `rand.Read`. -/
def readRandom (n : ℕ) : KeyProg π τ Bytes := ask (.readRandom n)

/-- `Store.GetSubjectKey`. -/
def getSubjectKey (tenant subject : String) : KeyProg π τ (Except Err (Option (KeyRow τ))) :=
  ask (.getSubjectKey tenant subject)

/-- `Store.UpsertSubjectKey`. -/
def upsertSubjectKey (tenant subject : String) (dekWrapped : Bytes) (kekVersion : UInt32) :
    KeyProg π τ (Except Err Unit) :=
  ask (.upsertSubjectKey tenant subject dekWrapped kekVersion)

/-- `Store.ForgetSubject`. -/
def forgetRow (tenant subject : String) : KeyProg π τ (Except Err Unit) :=
  ask (.forgetSubject tenant subject)

/-- `KMS.UnwrapDEK` of a row. -/
def unwrapDEK (tenant : String) (row : KeyRow τ) : KeyProg π τ (Except Err Bytes) :=
  ask (.unwrapDEK tenant row.dekWrapped row.kekVersion)

/-- `KMS.WrapDEK`. -/
def wrapDEK (tenant : String) (dek : Bytes) : KeyProg π τ (Except Err (Bytes × UInt32)) :=
  ask (.wrapDEK tenant dek)

/-- The end of `EnsureSubjectKey`: a fresh key is generated, wrapped and stored. -/
def createSubjectKey (j : π) (tenant subject : String) : KeyProg π τ Bytes := do
  let dek ← readRandom 32
  match ← wrapDEK tenant dek with
  | .error _ => .fail (.wrap s!"wrap DEK for {subject}" (.sentinel .kmsUnavailable))
  | .ok (wrapped, kekVersion) =>
    match ← upsertSubjectKey tenant subject wrapped kekVersion with
    | .error e => .fail e
    | .ok () =>
      cacheSet j tenant subject dek
      return dek

/-- The key of a row is unwrapped and kept in the cache; a failure of the key store is told
as `e`. -/
def unwrapSubjectKey (j : π) (tenant subject : String) (row : KeyRow τ) (e : Err) :
    KeyProg π τ Bytes := do
  match ← unwrapDEK tenant row with
  | .error _ => .fail e
  | .ok dek =>
    cacheSet j tenant subject dek
    return dek

/-- `EnsureSubjectKey`. -/
def ensureSubjectKey (j : π) (tenant subject : String) : KeyProg π τ Bytes := do
  match ← cacheGet j tenant subject with
  | some dek => return dek
  | none =>
    match ← getSubjectKey tenant subject with
    | .error e => .fail e
    | .ok none => createSubjectKey j tenant subject
    | .ok (some row) =>
      if row.shreddedAt.isSome then .fail (.text s!"shred: subject \"{subject}\" has been shredded")
      else
        unwrapSubjectKey j tenant subject row
          (.wrap s!"unwrap DEK for {subject}" (.sentinel .kmsUnavailable))

/-- `aesGCMSealField`. -/
def sealField (G : Crypto) (dek plaintext : Bytes) : KeyProg π τ Bytes := do
  .ofExcept (newCipher dek)
  let iv ← readRandom nonceSize
  return wireV1AESGCM :: (iv ++ G.gcmSeal dek iv plaintext)

/-- `EncryptField`. -/
def encryptField (G : Crypto) (j : π) (tenant subject : String) (plaintext : Bytes) :
    KeyProg π τ Bytes := do
  let dek ← ensureSubjectKey j tenant subject
  sealField G dek plaintext

/-- `DecryptField`. -/
def decryptField (G : Crypto) (j : π) (tenant subject : String) (sealed : Bytes) :
    KeyProg π τ Bytes := do
  match ← cacheGet j tenant subject with
  | some dek => .ofExcept (aesGCMOpenField G dek sealed)
  | none =>
    match ← getSubjectKey tenant subject with
    | .error e => .fail e
    | .ok none => .fail (.text s!"shred: no DEK for subject \"{subject}\"")
    | .ok (some row) =>
      if row.shreddedAt.isSome then .fail (.sentinel .shredded)
      else do
        let dek ← unwrapSubjectKey j tenant subject row (.sentinel .kmsUnavailable)
        .ofExcept (aesGCMOpenField G dek sealed)

/-- `ForgetSubject`. -/
def forgetSubject (j : π) (tenant subject : String) : KeyProg π τ Unit := do
  match ← forgetRow tenant subject with
  | .error e => .fail e
  | .ok () => ask (.cacheForget j tenant subject)

/-- `ClearCache`. -/
def clearCache (j : π) : KeyProg π τ Unit := ask (.newCache j)

/-- `KMS.RotateKEK`. -/
def rotateKEK (tenant : String) : KeyProg π τ (Except Err UInt32) := ask (.rotateKEK tenant)

/-- `KMS.CurrentKEKVersion`. -/
def currentKEKVersion (tenant : String) : KeyProg π τ (Except Err UInt32) :=
  ask (.currentKEKVersion tenant)

/-- `Store.ListStaleSubjectKeys`. -/
def listStaleSubjectKeys (tenant : String) (current : UInt32) (limit : ℤ) :
    KeyProg π τ (Except Err (List (KeyRow τ))) :=
  ask (.listStaleSubjectKeys tenant current limit)

/-- The loop of `RewrapDEKs`, with what is left of a page.  After `budget` rows and pages the
context of the caller ends, and the next query fails. -/
def rewrapLoop (tenant : String) (current : UInt32) (pageSize : ℤ) :
    ℕ → List (KeyRow τ) → ℕ → KeyProg π τ (ℕ × Option Err)
  | 0, [], total =>
    return (total, some (.wrap "shred: list stale subject keys" (.text "context canceled")))
  | 0, row :: _, total =>
    let subject := row.subject
    return (total, some (.wrap s!"shred: upsert re-wrapped DEK for {subject}"
      (.text "context canceled")))
  | budget + 1, [], total => do
    match ← listStaleSubjectKeys tenant current pageSize with
    | .error e => return (total, some (.wrap "shred: list stale subject keys" e))
    | .ok [] => return (total, none)
    | .ok (row :: rows) => rewrapLoop tenant current pageSize budget (row :: rows) total
  | budget + 1, row :: page, total => do
    let subject := row.subject
    match ← unwrapDEK tenant row with
    | .error e => return (total, some (.wrap s!"shred: unwrap DEK for {subject}" e))
    | .ok dek =>
      match ← wrapDEK tenant dek with
      | .error e => return (total, some (.wrap s!"shred: re-wrap DEK for {subject}" e))
      | .ok (wrapped, version) =>
        match ← upsertSubjectKey tenant subject wrapped version with
        | .error e => return (total, some (.wrap s!"shred: upsert re-wrapped DEK for {subject}" e))
        | .ok () => rewrapLoop tenant current pageSize budget page (total + 1)

/-- `RewrapDEKs`: the number of rows, and the error. -/
def rewrapDEKs (tenant : String) (pageSize : ℤ) (budget : ℕ) : KeyProg π τ (ℕ × Option Err) := do
  match ← currentKEKVersion tenant with
  | .error e => return (0, some (.wrap "shred: read current KEK version" e))
  | .ok current =>
    if current = 0 then return (0, none)
    else rewrapLoop tenant current (if pageSize ≤ 0 then 100 else pageSize) budget [] 0

end KeyProg

/-! ### The operations on their own -/

namespace KeyProg

variable {π σ τ β : Type} [DecidableEq π] {K : Kms.KeyStore σ} {d : Deployment π σ τ} {j : π}
  {t u : String}

theorem run_cacheGet (f : Option Bytes → KeyProg π τ β) :
    (cacheGet j t u >>= f).run (Deployment.act K) d =
      (f (d.caches j (cacheKey t u))).run (Deployment.act K) d := rfl

theorem run_cacheSet (dek : Bytes) (f : Unit → KeyProg π τ β) :
    (cacheSet j t u dek >>= f).run (Deployment.act K) d =
      (f ()).run (Deployment.act K) (d.setCache j (cacheKey t u) (some dek)) := rfl

theorem run_readRandom (n : ℕ) (f : Bytes → KeyProg π τ β) :
    (readRandom n >>= f).run (Deployment.act K) d =
      (f ((List.range n).map d.random)).run (Deployment.act K)
        { d with random := fun i => d.random (n + i) } := rfl

theorem run_getSubjectKey (f : Except Err (Option (KeyRow τ)) → KeyProg π τ β) :
    (getSubjectKey t u >>= f).run (Deployment.act K) d =
      (f (d.query (d.table.get t u) d.table).1).run (Deployment.act K)
        (d.query (d.table.get t u) d.table).2 := rfl

theorem run_upsertSubjectKey (w : Bytes) (v : UInt32) (f : Except Err Unit → KeyProg π τ β) :
    (upsertSubjectKey t u w v >>= f).run (Deployment.act K) d =
      (f (d.query () (d.table.upsert t u w v (d.clock 0))).1).run (Deployment.act K)
        (d.query () (d.table.upsert t u w v (d.clock 0))).2 := rfl

theorem run_forgetRow (f : Except Err Unit → KeyProg π τ β) :
    (forgetRow t u >>= f).run (Deployment.act K) d =
      (f (d.query () (d.table.forget t u (d.clock 0))).1).run (Deployment.act K)
        (d.query () (d.table.forget t u (d.clock 0))).2 := rfl

theorem run_unwrapDEK (row : KeyRow τ) (f : Except Err Bytes → KeyProg π τ β) :
    (unwrapDEK t row >>= f).run (Deployment.act K) d =
      (f (d.callKMS (K.unwrapDEK t row.dekWrapped row.kekVersion)).1).run (Deployment.act K)
        (d.callKMS (K.unwrapDEK t row.dekWrapped row.kekVersion)).2 := rfl

theorem run_wrapDEK (dek : Bytes) (f : Except Err (Bytes × UInt32) → KeyProg π τ β) :
    (wrapDEK t dek >>= f).run (Deployment.act K) d =
      (f (d.callKMS (K.wrapDEK t dek)).1).run (Deployment.act K)
        (d.callKMS (K.wrapDEK t dek)).2 := rfl

end KeyProg

/-! ### Calls -/

/-- A call of a method, in a process `j`. -/
inductive KeyCall (π : Type) where
  | encryptField (j : π) (tenant subject : String) (plaintext : Bytes)
  | decryptField (j : π) (tenant subject : String) (sealed : Bytes)
  | ensureSubjectKey (j : π) (tenant subject : String)
  | forgetSubject (j : π) (tenant subject : String)
  | clearCache (j : π)
  | rewrapDEKs (tenant : String) (pageSize : ℤ) (budget : ℕ)
  | rotateKEK (tenant : String)
  deriving DecidableEq

/-- What a call returns. -/
inductive KeyReply where
  | bytes (b : Bytes)
  | done
  | rewrapped (total : ℕ) (err : Option Err)
  | version (v : UInt32)
  deriving DecidableEq

/-- The method that is called. -/
def KeyCall.prog {π τ : Type} (G : Crypto) : KeyCall π → KeyProg π τ KeyReply
  | .encryptField j t u pt => .bytes <$> KeyProg.encryptField G j t u pt
  | .decryptField j t u ct => .bytes <$> KeyProg.decryptField G j t u ct
  | .ensureSubjectKey j t u => .bytes <$> KeyProg.ensureSubjectKey j t u
  | .forgetSubject j t u => (fun _ => .done) <$> KeyProg.forgetSubject j t u
  | .clearCache j => (fun _ => .done) <$> KeyProg.clearCache j
  | .rewrapDEKs t pageSize budget =>
    (fun x => .rewrapped x.1 x.2) <$> KeyProg.rewrapDEKs t pageSize budget
  | .rotateKEK t => KeyProg.rotateKEK t >>= fun r => .version <$> .ofExcept r

section System

variable {ι π σ τ : Type} [DecidableEq ι] [DecidableEq π]

/-- Calls that interleave. -/
abbrev KeyThreads (ι π σ τ : Type) :=
  Threads ι (KeyCall π) (Deployment π σ τ) (KeyAccess π) (KeyAccess.Answer τ) Err KeyReply

/-- The calls of any number of clients, from any state of the table, the caches and the key
store. -/
def keySystem (K : Kms.KeyStore σ) (G : Crypto) :
    TS (KeyThreads ι π σ τ) (ThreadStep ι (KeyCall π)) :=
  threadSystem (Deployment.act K) (KeyCall.prog G) fun _ => True

end System

/-! ### What an operation does to a row -/

section Row

variable {π σ τ α : Type} [DecidableEq π] {K : Kms.KeyStore σ} {d : Deployment π σ τ} {t u : String}

omit [DecidableEq π] in
theorem table_query (x : α) (T : KeyTable τ) :
    d.faults 0 = none ∧ (d.query x T).2.table = T ∨ (d.query x T).2.table = d.table := by
  unfold Deployment.query
  cases h : d.faults 0 with
  | some msg => exact Or.inr rfl
  | none => exact Or.inl ⟨rfl, rfl⟩

omit [DecidableEq π] in
@[simp] theorem table_read (x : α) : (d.query x d.table).2.table = d.table := by
  rcases table_query x d.table with ⟨-, h⟩ | h <;> exact h

omit [DecidableEq π] in
@[simp] theorem table_callKMS (x : EStateM Err σ α) : (d.callKMS x).2.table = d.table := by
  unfold Deployment.callKMS
  cases x d.kms <;> rfl

/-- An operation leaves the row of a subject, or is an upsert or a forget of just that subject. -/
theorem get_act (a : KeyAccess π) (t u : String) :
    (Deployment.act K a d).2.table.get t u = d.table.get t u ∨
      (∃ w v, a = .upsertSubjectKey t u w v ∧ d.faults 0 = none ∧
        (Deployment.act K a d).2.table.get t u = some (d.table.written t u w v (d.clock 0))) ∨
      a = .forgetSubject t u ∧ d.faults 0 = none ∧
        (Deployment.act K a d).2.table.get t u = (d.table.get t u).map fun r =>
          { r with dekWrapped := [], shreddedAt := some (d.clock 0) } := by
  cases a with
  | cacheGet | cacheSet | cacheForget | newCache | readRandom => exact Or.inl rfl
  | wrapDEK | unwrapDEK | currentKEKVersion | rotateKEK =>
    left
    simp only [Deployment.act, table_callKMS]
  | getSubjectKey | listStaleSubjectKeys =>
    left
    simp only [Deployment.act, table_read]
  | upsertSubjectKey t' u' w v =>
    rcases table_query () (d.table.upsert t' u' w v (d.clock 0)) with ⟨hf, h⟩ | h
    · by_cases hsame : t = t' ∧ u = u'
      · obtain ⟨rfl, rfl⟩ := hsame
        refine Or.inr (Or.inl ⟨w, v, rfl, hf, ?_⟩)
        simp only [Deployment.act, h, KeyTable.get_upsert]
      · left
        simp only [Deployment.act, h, KeyTable.get_upsert_ne hsame]
    · left
      simp only [Deployment.act, h]
  | forgetSubject t' u' =>
    rcases table_query () (d.table.forget t' u' (d.clock 0)) with ⟨hf, h⟩ | h
    · by_cases hsame : t = t' ∧ u = u'
      · obtain ⟨rfl, rfl⟩ := hsame
        refine Or.inr (Or.inr ⟨rfl, hf, ?_⟩)
        simp only [Deployment.act, h, KeyTable.get_forget]
      · left
        simp only [Deployment.act, h, KeyTable.get_forget_ne hsame]
    · left
      simp only [Deployment.act, h]

end Row

/-! ### The two models of a method -/

section View

variable {π σ τ α : Type} [DecidableEq π] (K : Kms.KeyStore σ) (G : Crypto)

/-- What `Shred.Keys` knows of the state. -/
def Deployment.keys (d : Deployment π σ τ) : Keys π := ⟨d.table.keys, d.caches, d.random⟩

/-- The shredder of a process during one call: the key store as it answers now, and the faults of
the first two queries. -/
def Deployment.shredder (d : Deployment π σ τ) (j : π) : Instance π where
  process := j
  kms := ⟨fun t dek => (d.callKMS (K.wrapDEK t dek)).1,
    fun t w v => (d.callKMS (K.unwrapDEK t w v)).1⟩
  crypto := G
  readFault := d.faults 0
  writeFault := d.faults 1

/-- The result with the state as `Shred.Keys` knows it. -/
def viewed : EStateM.Result Err (Deployment π σ τ) α → EStateM.Result Err (Keys π) α
  | .ok a d => .ok a d.keys
  | .error e d => .error e d.keys

variable {K G} {d : Deployment π σ τ} {j : π} {t u : String}

/-- The end of `EnsureSubjectKey`, after a first query. -/
theorem createSubjectKey_run :
    viewed ((KeyProg.createSubjectKey j t u).run (Deployment.act K) (d.queried d.table)) =
      (d.shredder K G j).createSubjectKey t u d.keys := by
  simp only [KeyProg.createSubjectKey, KeyProg.run_readRandom, KeyProg.run_wrapDEK,
    Instance.createSubjectKey, EStateM.bind_apply, readRandom, Deployment.shredder,
    Deployment.queried, Deployment.callKMS, Deployment.keys]
  cases K.wrapDEK t ((List.range 32).map d.random) d.kms with
  | error e k => rfl
  | ok x k =>
    obtain ⟨w, v⟩ := x
    simp only [Except.mapError, EStateM.ofExcept, KeyProg.run_upsertSubjectKey, Deployment.query,
      Nat.zero_add, Instance.upsertSubjectKey]
    cases d.faults 1 with
    | some msg => rfl
    | none =>
      simp only [KeyProg.run_cacheSet, cacheSet, Prog.pure_eq, Prog.run_ret, viewed,
        Deployment.keys, Deployment.setCache, Deployment.queried, KeyTable.keys_upsert,
        Keys.setRow, Keys.setCache]
      rfl

/-- A cached key, or else the row of the subject: the beginning of `EnsureSubjectKey` and of
`DecryptField` in both models. -/
theorem lookup_run {f : Option Bytes → KeyProg π τ α} {g : Option Bytes → EStateM Err (Keys π) α}
    (hf : ∀ cached, viewed ((f cached).run (Deployment.act K) d) = g cached d.keys) :
    viewed ((KeyProg.cacheGet j t u >>= f).run (Deployment.act K) d) =
      (cacheGet j t u >>= g) d.keys :=
  hf _

theorem getSubjectKey_run {f : Except Err (Option (KeyRow τ)) → KeyProg π τ α}
    {g : Option SubjectKey → EStateM Err (Keys π) α}
    (herr : ∀ e, f (.error e) = .fail e)
    (hf : ∀ row, viewed ((f (.ok row)).run (Deployment.act K) (d.queried d.table)) =
      g (row.map KeyRow.key) d.keys) :
    viewed ((KeyProg.getSubjectKey t u >>= f).run (Deployment.act K) d) =
      ((d.shredder K G j).getSubjectKey t u >>= g) d.keys := by
  have hfault : (d.shredder K G j).readFault = d.faults 0 := rfl
  simp only [KeyProg.run_getSubjectKey, EStateM.bind_apply, Instance.getSubjectKey, hfault,
    Deployment.query]
  cases d.faults 0 with
  | some msg =>
    simp only [herr]
    rfl
  | none => exact hf _

/-- The key of a row is unwrapped in both models. -/
theorem unwrapSubjectKey_run {row : KeyRow τ} {e : Err} {f : Bytes → KeyProg π τ α}
    {g : Bytes → EStateM Err (Keys π) α}
    (hf : ∀ dek d', viewed ((f dek).run (Deployment.act K) d') = g dek d'.keys) :
    viewed ((KeyProg.unwrapSubjectKey j t u row e >>= f).run (Deployment.act K)
        (d.queried d.table)) =
      (EStateM.ofExcept ((d.shredder K G j).unwrap t row.key e) >>= fun dek =>
        cacheSet j t u dek >>= fun _ => g dek) d.keys := by
  rw [Prog.run_bind, EStateM.bind_apply]
  simp only [KeyProg.unwrapSubjectKey, KeyProg.run_unwrapDEK, EStateM.bind_apply, Instance.unwrap,
    Deployment.shredder, Deployment.callKMS, KeyRow.key, Deployment.queried]
  cases K.unwrapDEK t row.dekWrapped row.kekVersion d.kms with
  | error e' k => rfl
  | ok dek k => exact hf dek _

/-- **`EnsureSubjectKey` on its own is the function of `Shred.Keys`.** -/
theorem ensureSubjectKey_run :
    viewed ((KeyProg.ensureSubjectKey j t u).run (Deployment.act K) d) =
      (d.shredder K G j).ensureSubjectKey t u d.keys := by
  refine lookup_run fun cached => ?_
  cases cached with
  | some dek => rfl
  | none =>
    refine getSubjectKey_run (fun e => rfl) fun found => ?_
    cases found with
    | none => exact createSubjectKey_run
    | some row =>
      dsimp only [Option.map_some, KeyRow.key]
      split_ifs
      · rfl
      · rw [← Prog.bind_ret (KeyProg.unwrapSubjectKey j t u row _)]
        exact unwrapSubjectKey_run fun dek d' => rfl

theorem viewed_bind {β : Type} {p : KeyProg π τ α} {f : α → KeyProg π τ β}
    {x : EStateM Err (Keys π) α} {g : α → EStateM Err (Keys π) β}
    (hp : viewed (p.run (Deployment.act K) d) = x d.keys)
    (hf : ∀ a d', viewed ((f a).run (Deployment.act K) d') = g a d'.keys) :
    viewed ((p >>= f).run (Deployment.act K) d) = (x >>= g) d.keys := by
  rw [Prog.run_bind, EStateM.bind_apply, EStateM.bind_apply, ← hp]
  cases p.run (Deployment.act K) d with
  | ok a d' => exact hf a d'
  | error e d' => rfl

theorem sealField_run (dek pt : Bytes) :
    viewed ((KeyProg.sealField G dek pt).run (Deployment.act K) d) =
      aesGCMSealField G dek pt d.keys := by
  unfold KeyProg.sealField aesGCMSealField
  cases newCipher dek <;> rfl

theorem openField_run (dek sealed : Bytes) :
    viewed ((Prog.ofExcept (aesGCMOpenField G dek sealed) : KeyProg π τ Bytes).run
      (Deployment.act K) d) = EStateM.ofExcept (aesGCMOpenField G dek sealed) d.keys := by
  cases aesGCMOpenField G dek sealed <;> rfl

end View

end Shred

end EventStore
