import EventStore.Es.Types
import EventStore.Failure.Basic

/-!
# Keys of subjects

The package `shred`: every subject of a tenant has a data encryption key (DEK), which encrypts the
personal fields of its events.  The table `subject_keys` holds it, wrapped by the key store of the
tenant; a process that has unwrapped it keeps it in a cache of its own.  `ForgetSubject` destroys
the key in the table, and takes it out of the cache of the process that calls it.

`Keys π` is the state the functions of the package work on, for processes `π`.
-/

namespace EventStore

namespace Shred

/-- A row of `subject_keys`. -/
structure SubjectKey where
  dekWrapped : Bytes
  kekVersion : UInt32
  /-- `shredded_at` is set. -/
  shredded : Bool
  deriving DecidableEq

/-- The table of keys, the caches of the processes, and the random bytes to come. -/
structure Keys (π : Type) where
  /-- `subject_keys`, by tenant and subject. -/
  subjectKeys : String → String → Option SubjectKey
  /-- The `dekCache` of a process. -/
  caches : π → String → Option Bytes
  /-- What `crypto/rand` will return. -/
  random : ℕ → UInt8

/-- `kms.KeyStore`, as far as it is used: it wraps the keys of a tenant. -/
structure KeyStore where
  wrapDEK : String → Bytes → Except Err (Bytes × UInt32)
  unwrapDEK : String → Bytes → UInt32 → Except Err Bytes

/-- What the package takes from the standard library. -/
structure Crypto where
  /-- `gcm.Seal`, for a key, a nonce and a plaintext. -/
  gcmSeal : Bytes → Bytes → Bytes → Bytes
  /-- `gcm.Open`; nothing if the tag does not match. -/
  gcmOpen : Bytes → Bytes → Bytes → Option Bytes
  /-- `base64.RawStdEncoding`. -/
  encode64 : Bytes → Bytes
  decode64 : Bytes → Except Err Bytes

/-- A `shred.Shredder` in one of the processes, and how the database fails during one call. -/
structure Instance (π : Type) where
  process : π
  kms : KeyStore
  crypto : Crypto
  /-- The text of the error that reads of `subject_keys` fail with. -/
  readFault : Option String
  /-- The text of the error that writes of `subject_keys` fail with. -/
  writeFault : Option String

/-! ### The caches -/

/-- `cacheKey`. -/
def cacheKey (tenant subject : String) : String := tenant ++ "|" ++ subject

section Cache

variable {π : Type} [DecidableEq π]

/-- The cache of one process with an entry set or deleted. -/
def Keys.setCache (k : Keys π) (j : π) (key : String) (dek : Option Bytes) : Keys π :=
  { k with caches := fun i key' => if i = j ∧ key' = key then dek else k.caches i key' }

/-- The table with the row of a subject set. -/
def Keys.setRow (k : Keys π) (tenant subject : String) (row : SubjectKey) : Keys π :=
  { k with subjectKeys := fun t s =>
      if t = tenant ∧ s = subject then some row else k.subjectKeys t s }

/-- `dekCache.get`. -/
def cacheGet (j : π) (tenant subject : String) : EStateM Err (Keys π) (Option Bytes) :=
  fun k => .ok (k.caches j (cacheKey tenant subject)) k

/-- `dekCache.set`. -/
def cacheSet (j : π) (tenant subject : String) (dek : Bytes) : EStateM Err (Keys π) Unit :=
  fun k => .ok () (k.setCache j (cacheKey tenant subject) (some dek))

/-- `dekCache.forget`. -/
def cacheForget (j : π) (tenant subject : String) : EStateM Err (Keys π) Unit :=
  fun k => .ok () (k.setCache j (cacheKey tenant subject) none)

/-- `rand.Read`. -/
def readRandom (n : ℕ) : EStateM Err (Keys π) Bytes :=
  fun k => .ok ((List.range n).map k.random) { k with random := fun i => k.random (n + i) }

end Cache

/-! ### The wire format of a field -/

/-- The key sizes `aes.NewCipher` takes. -/
def validKeySize (dek : Bytes) : Bool := dek.length == 16 || dek.length == 24 || dek.length == 32

/-- `aes.NewCipher`, of which only the error matters. -/
def newCipher (dek : Bytes) : Except Err Unit :=
  let n := dek.length
  if validKeySize dek then .ok () else .error (.text s!"crypto/aes: invalid key size {n}")

/-- `wireV1AESGCM`. -/
def wireV1AESGCM : UInt8 := 1

/-- `gcm.NonceSize()`. -/
def nonceSize : ℕ := 12

/-- `gcm.Overhead()`. -/
def overhead : ℕ := 16

/-- `aesGCMSealField`. -/
def aesGCMSealField {π : Type} (G : Crypto) (dek plaintext : Bytes) :
    EStateM Err (Keys π) Bytes := do
  EStateM.ofExcept (newCipher dek)
  let iv ← readRandom nonceSize
  return wireV1AESGCM :: (iv ++ G.gcmSeal dek iv plaintext)

/-- `aesGCMOpenField`. -/
def aesGCMOpenField (G : Crypto) (dek sealed : Bytes) : Except Err Bytes :=
  match sealed with
  | [] => .error (.wrap "empty ciphertext" (.sentinel .cryptoIntegrity))
  | version :: body =>
    if version ≠ wireV1AESGCM then
      .error (.wrap s!"unsupported wire version {version}" (.sentinel .cryptoIntegrity))
    else do
      newCipher dek
      if body.length < nonceSize + overhead then
        .error (.wrap "ciphertext shorter than nonce+tag" (.sentinel .cryptoIntegrity))
      else
        match G.gcmOpen dek (body.take nonceSize) (body.drop nonceSize) with
        | some pt => .ok pt
        | none => .error (.sentinel .cryptoIntegrity)

/-! ### The shredder -/

namespace Instance

variable {π : Type} (V : Instance π)

/-- `GetSubjectKey`; no row stands for `ErrSubjectKeyNotFound`. -/
def getSubjectKey (tenant subject : String) : EStateM Err (Keys π) (Option SubjectKey) :=
  fun k =>
    match V.readFault with
    | some msg => .error (.text msg) k
    | none => .ok (k.subjectKeys tenant subject) k

/-- `UpsertSubjectKey`: an existing row keeps its `shredded_at`. -/
def upsertSubjectKey (tenant subject : String) (dekWrapped : Bytes) (kekVersion : UInt32) :
    EStateM Err (Keys π) Unit := fun k =>
  match V.writeFault with
  | some msg => .error (.text msg) k
  | none =>
    -- `ON CONFLICT` updates the wrapped key and its version only
    let shredded := match k.subjectKeys tenant subject with
      | some row => row.shredded
      | none => false
    .ok () (k.setRow tenant subject ⟨dekWrapped, kekVersion, shredded⟩)

/-- `UnwrapDEK` of a row; a failure of the key store is not told further. -/
def unwrap (tenant : String) (row : SubjectKey) (e : Err) : Except Err Bytes :=
  (V.kms.unwrapDEK tenant row.dekWrapped row.kekVersion).mapError fun _ => e

variable [DecidableEq π]

/-- The end of `EnsureSubjectKey`: a fresh key is generated, wrapped and stored. -/
def createSubjectKey (tenant subject : String) : EStateM Err (Keys π) Bytes := do
  let dek ← readRandom 32
  let (wrapped, kekVersion) ← EStateM.ofExcept ((V.kms.wrapDEK tenant dek).mapError fun _ =>
    .wrap s!"wrap DEK for {subject}" (.sentinel .kmsUnavailable))
  V.upsertSubjectKey tenant subject wrapped kekVersion
  cacheSet V.process tenant subject dek
  return dek

/-- `EnsureSubjectKey`. -/
def ensureSubjectKey (tenant subject : String) : EStateM Err (Keys π) Bytes := do
  match ← cacheGet V.process tenant subject with
  | some dek => return dek
  | none =>
    match ← V.getSubjectKey tenant subject with
    | none => V.createSubjectKey tenant subject
    | some row =>
      if row.shredded then throw (.text s!"shred: subject \"{subject}\" has been shredded")
      else do
        let dek ← EStateM.ofExcept (V.unwrap tenant row
          (.wrap s!"unwrap DEK for {subject}" (.sentinel .kmsUnavailable)))
        cacheSet V.process tenant subject dek
        return dek

/-- `EncryptField`. -/
def encryptField (tenant subject : String) (plaintext : Bytes) : EStateM Err (Keys π) Bytes := do
  let dek ← V.ensureSubjectKey tenant subject
  aesGCMSealField V.crypto dek plaintext

/-- `DecryptField`. -/
def decryptField (tenant subject : String) (sealed : Bytes) : EStateM Err (Keys π) Bytes := do
  match ← cacheGet V.process tenant subject with
  | some dek => EStateM.ofExcept (aesGCMOpenField V.crypto dek sealed)
  | none =>
    match ← V.getSubjectKey tenant subject with
    | none => throw (.text s!"shred: no DEK for subject \"{subject}\"")
    | some row =>
      if row.shredded then throw (.sentinel .shredded)
      else do
        let dek ← EStateM.ofExcept (V.unwrap tenant row (.sentinel .kmsUnavailable))
        cacheSet V.process tenant subject dek
        EStateM.ofExcept (aesGCMOpenField V.crypto dek sealed)

/-- `SubjectStore.ForgetSubject`: the row, if there is one, loses its key and is marked. -/
def forgetRow (tenant subject : String) : EStateM Err (Keys π) Unit := fun k =>
  match V.writeFault with
  | some msg => .error (.text msg) k
  | none =>
    match k.subjectKeys tenant subject with
    | none => .ok () k
    | some row => .ok () (k.setRow tenant subject { row with dekWrapped := [], shredded := true })

/-- `Shredder.ForgetSubject`. -/
def forgetSubject (tenant subject : String) : EStateM Err (Keys π) Unit := do
  V.forgetRow tenant subject
  cacheForget V.process tenant subject

end Instance

end Shred

end EventStore
