import EventStore.Kms.KeyStore
import EventStore.Prog.Serial

/-!
# The key store on AWS KMS

`adapters/kms/aws` has one customer master key (CMK) per tenant and version.  AWS keeps the CMKs and
one alias per tenant, which points to the newest CMK.  Which CMK a version stands for is known to
the process only: `versions`, a list per tenant.  A new process starts with empty lists, and fills
the list of a tenant from the alias when `WrapDEK`, `RotateKEK` or `CurrentKEKVersion` is called for
it; whatever CMK the alias points to is version 1 from then on.

So a process that is started after a rotation uses the versions once more for other CMKs, and does
not unwrap what was wrapped before; and `UnwrapDEK` does not look at the alias, so even without a
rotation it refuses everything until one of the other calls has been made (`wrapped_refused`).

`Unrotated` is the condition on the state in which a process is started, and then
(`wrapped_unwraps`) **every pair that `WrapDEK` has returned is unwrapped by every process exactly
when it knows the tenant, and no version stands for two CMKs**, whatever calls to AWS fail.
-/

namespace EventStore

namespace Kms

/-- An error of the AWS SDK. -/
structure ApiErr where
  code : String
  message : String
  deriving DecidableEq

/-- `isNotFound`. -/
def ApiErr.isNotFound (e : ApiErr) : Bool := e.code == "NotFoundException"

/-- The error as the callers of the adapter see it. -/
def ApiErr.toErr (e : ApiErr) : Err := .text e.message

/-- How a call to AWS fails: before it took effect, or after. -/
structure ApiFault where
  error : ApiErr
  done : Bool

/-- What AWS does: the ids it gives to new CMKs, and the blobs of `Encrypt`, which differ from call
to call. -/
structure Service where
  keyID : ℕ → String
  encrypt : String → Bytes → ℕ → Bytes
  decrypt : String → Bytes → Option Bytes

/-- `Decrypt` succeeds if and only if the `KeyId` it is given is the one of the blob. -/
def Service.Lawful (S : Service) : Prop :=
  ∀ k k' dek n, S.decrypt k (S.encrypt k' dek n) = if k = k' then some dek else none

/-- The account: its aliases, how many CMKs it has, how many blobs it has made and what the calls to
come will meet; and the `versions` of the process. -/
structure AwsStore where
  aliases : String → Option String
  created : ℕ
  blobs : ℕ
  faults : ℕ → Option ApiFault
  versions : String → List String

/-- What a method does: to `versions` under the lock, or as a call to AWS. -/
inductive AwsAccess where
  /-- `k.versions[tenantID]`. -/
  | versions (tenant : String)
  /-- `k.versions[tenantID] = []string{keyID}`, unless it has entries. -/
  | bind (tenant keyID : String)
  /-- `k.versions[tenantID] = append(k.versions[tenantID], keyID)`. -/
  | append (tenant keyID : String)
  | describeKey (name : String)
  | createKey
  | createAlias (name keyID : String)
  | updateAlias (name keyID : String)
  | encrypt (keyID : String) (plaintext : Bytes)
  | decrypt (keyID : String) (blob : Bytes)
  deriving DecidableEq

/-- The answer to an access: the list it has read or left, or the reply of AWS.  `KeyMetadata` may
be missing in a reply. -/
abbrev AwsAccess.Answer : AwsAccess → Type
  | .versions _ | .bind .. | .append .. => List String
  | .describeKey _ | .createKey => Except ApiErr (Option String)
  | .createAlias .. | .updateAlias .. => Except ApiErr Unit
  | .encrypt .. | .decrypt .. => Except ApiErr Bytes

namespace AwsStore

/-- The versions of one tenant set. -/
def setVersions (s : AwsStore) (tenant : String) (l : List String) : AwsStore :=
  { s with versions := fun t => if t = tenant then l else s.versions t }

/-- One alias set. -/
def setAlias (s : AwsStore) (name keyID : String) : AwsStore :=
  { s with aliases := fun n => if n = name then some keyID else s.aliases n }

/-- After one call to AWS. -/
def ticked (s : AwsStore) : AwsStore := { s with faults := fun n => s.faults (n + 1) }

/-- A call to AWS that does `f`, unless it fails. -/
def api {α : Type} (f : AwsStore → Except ApiErr α × AwsStore) (s : AwsStore) :
    Except ApiErr α × AwsStore :=
  match s.faults 0 with
  | none => f s.ticked
  | some fault => (.error fault.error, if fault.done then (f s.ticked).2 else s.ticked)

/-- `DescribeKey` of an alias. -/
def describeKey (name : String) (s : AwsStore) : Except ApiErr (Option String) × AwsStore :=
  match s.aliases name with
  | some keyID => (.ok (some keyID), s)
  | none => (.error ⟨"NotFoundException", "alias is not found"⟩, s)

/-- `CreateKey`. -/
def createKey (S : Service) (s : AwsStore) : Except ApiErr (Option String) × AwsStore :=
  (.ok (some (S.keyID s.created)), { s with created := s.created + 1 })

/-- `CreateAlias`. -/
def createAlias (name keyID : String) (s : AwsStore) : Except ApiErr Unit × AwsStore :=
  match s.aliases name with
  | some _ => (.error ⟨"AlreadyExistsException", "alias already exists"⟩, s)
  | none => (.ok (), s.setAlias name keyID)

/-- `UpdateAlias`. -/
def updateAlias (name keyID : String) (s : AwsStore) : Except ApiErr Unit × AwsStore :=
  match s.aliases name with
  | some _ => (.ok (), s.setAlias name keyID)
  | none => (.error ⟨"NotFoundException", "alias is not found"⟩, s)

/-- `Encrypt`. -/
def encrypt (S : Service) (keyID : String) (plaintext : Bytes) (s : AwsStore) :
    Except ApiErr Bytes × AwsStore :=
  (.ok (S.encrypt keyID plaintext s.blobs), { s with blobs := s.blobs + 1 })

/-- `Decrypt`. -/
def decrypt (S : Service) (keyID : String) (blob : Bytes) (s : AwsStore) :
    Except ApiErr Bytes × AwsStore :=
  match S.decrypt keyID blob with
  | some plaintext => (.ok plaintext, s)
  | none => (.error ⟨"IncorrectKeyException", "the key ID does not match"⟩, s)

/-- What an access does. -/
def act (S : Service) : (a : AwsAccess) → AwsStore → a.Answer × AwsStore
  | .versions tenant, s => (s.versions tenant, s)
  | .bind tenant keyID, s =>
    match s.versions tenant with
    | [] => ([keyID], s.setVersions tenant [keyID])
    | existing => (existing, s)
  | .append tenant keyID, s =>
    (s.versions tenant ++ [keyID], s.setVersions tenant (s.versions tenant ++ [keyID]))
  | .describeKey name, s => s.api (describeKey name)
  | .createKey, s => s.api (createKey S)
  | .createAlias name keyID, s => s.api (createAlias name keyID)
  | .updateAlias name keyID, s => s.api (updateAlias name keyID)
  | .encrypt keyID plaintext, s => s.api (encrypt S keyID plaintext)
  | .decrypt keyID blob, s => s.api (decrypt S keyID blob)

/-- A new process. -/
def restart (s : AwsStore) : Option AwsStore := some { s with versions := fun _ => [] }

end AwsStore

/-- `aliasName`, with the default of `New` for an empty `AliasPrefix`. -/
def aliasName (aliasPrefix tenant : String) : String :=
  "alias/" ++ (if aliasPrefix = "" then "eventstore" else aliasPrefix) ++ "-" ++ tenant

/-- Programs on the store. -/
abbrev AwsProg (α : Type) := Prog AwsAccess AwsAccess.Answer Err α

namespace AwsProg

/-- One access, with the type of its answer. -/
def ask (a : AwsAccess) : AwsProg a.Answer := Prog.perform a

/-- The versions of a tenant. -/
def versions (tenant : String) : AwsProg (List String) := ask (.versions tenant)

/-- A call to AWS, whose error is wrapped. -/
def orFail {α : Type} (context : String) (r : Except ApiErr α) : AwsProg α :=
  Prog.ofExcept (r.mapError fun e => .wrap context e.toErr)

/-- The `KeyId` of a reply: one without `KeyMetadata` is an error. -/
def described : Option String → Except ApiErr String
  | some keyID => .ok keyID
  | none => .error ⟨"", "aws kms: describe key returned empty KeyMetadata"⟩

/-- `describeKey`. -/
def describeKey (aliasPrefix tenant : String) : AwsProg (Except ApiErr String) := do
  let r : Except ApiErr (Option String) ← ask (.describeKey (aliasName aliasPrefix tenant))
  return r.bind described

/-- `CreateKey` and the check of its reply. -/
def createKey (context : String) : AwsProg String := do
  let r : Except ApiErr (Option String) ← ask .createKey
  let created ← orFail context r
  let keyID := created.getD ""
  if keyID = "" then .fail (.text (context ++ ": empty KeyId in response")) else return keyID

/-- `CreateAlias`. -/
def createAlias (context name keyID : String) : AwsProg Unit := do
  let r : Except ApiErr Unit ← ask (.createAlias name keyID)
  orFail context r

/-- `UpdateAlias`. -/
def updateAlias (context name keyID : String) : AwsProg Unit := do
  let r : Except ApiErr Unit ← ask (.updateAlias name keyID)
  orFail context r

/-- `Encrypt`. -/
def encrypt (context keyID : String) (plaintext : Bytes) : AwsProg Bytes := do
  let r : Except ApiErr Bytes ← ask (.encrypt keyID plaintext)
  orFail context r

/-- `Decrypt`. -/
def decrypt (context keyID : String) (blob : Bytes) : AwsProg Bytes := do
  let r : Except ApiErr Bytes ← ask (.decrypt keyID blob)
  orFail context r

/-- The newest CMK and its version. -/
def newest (versions : List String) : String × UInt32 :=
  (versions.getLastD "", UInt32.ofNat versions.length)

/-- The CMK is the first one of the tenant, unless the process knows others. -/
def bindKey (tenant keyID : String) : AwsProg (List String) := ask (.bind tenant keyID)

/-- `activeKey`. -/
def activeKey (aliasPrefix tenant : String) : AwsProg (String × UInt32) := do
  let quoted := tenant.quote
  let known ← versions tenant
  if known ≠ [] then return newest known
  else do
    let described ← describeKey aliasPrefix tenant
    match described with
    | .ok keyID =>
      let known ← bindKey tenant keyID
      return newest known
    | .error e =>
      if e.isNotFound then do
        let keyID ← createKey s!"aws kms: create key for tenant {quoted}"
        createAlias s!"aws kms: create alias for tenant {quoted}"
          (aliasName aliasPrefix tenant) keyID
        let known ← bindKey tenant keyID
        return newest known
      else .fail (.wrap s!"aws kms: describe key for tenant {quoted}" e.toErr)

/-- `WrapDEK`. -/
def wrapDEK (aliasPrefix tenant : String) (dek : Bytes) : AwsProg (Bytes × UInt32) := do
  let quoted := tenant.quote
  let (keyID, version) ← activeKey aliasPrefix tenant
  let blob ← encrypt s!"aws kms: encrypt for tenant {quoted}" keyID dek
  return (blob, version)

/-- `UnwrapDEK`. -/
def unwrapDEK (tenant : String) (wrapped : Bytes) (kekVersion : UInt32) : AwsProg Bytes := do
  let quoted := tenant.quote
  if kekVersion = 0 then .fail (.text "aws kms: kekVersion 0 is invalid for unwrap")
  else do
    let known ← versions tenant
    let count := known.length
    if count < kekVersion.toNat then
      .fail (.text (s!"aws kms: KEK version {kekVersion} not available for tenant {quoted} " ++
        s!"(have {count})"))
    else do
      let keyID := known.getD (kekVersion.toNat - 1) ""
      decrypt s!"aws kms: decrypt for tenant {quoted} version {kekVersion}" keyID wrapped

/-- `RotateKEK`. -/
def rotateKEK (aliasPrefix tenant : String) : AwsProg UInt32 := do
  let quoted := tenant.quote
  let _ ← activeKey aliasPrefix tenant
  let keyID ← createKey s!"aws kms: create rotated key for tenant {quoted}"
  updateAlias s!"aws kms: update alias for tenant {quoted}" (aliasName aliasPrefix tenant) keyID
  let known : List String ← ask (.append tenant keyID)
  return UInt32.ofNat known.length

/-- `CurrentKEKVersion`. -/
def currentKEKVersion (aliasPrefix tenant : String) : AwsProg UInt32 := do
  let quoted := tenant.quote
  let known ← versions tenant
  let v := UInt32.ofNat known.length
  if 0 < v then return v
  else do
    let described ← describeKey aliasPrefix tenant
    match described with
    | .ok keyID =>
      let known ← bindKey tenant keyID
      return UInt32.ofNat known.length
    | .error e =>
      if e.isNotFound then return 0
      else .fail (.wrap s!"aws kms: describe key for tenant {quoted}" e.toErr)

end AwsProg

/-- The calls of a history. -/
inductive AwsCall where
  | wrapDEK (tenant : String) (dek : Bytes)
  | unwrapDEK (tenant : String) (wrapped : Bytes) (kekVersion : UInt32)
  | rotateKEK (tenant : String)
  | currentKEKVersion (tenant : String)
  deriving DecidableEq

/-- What they return. -/
inductive AwsReply where
  | wrapped (wrapped : Bytes) (version : UInt32)
  | dek (dek : Bytes)
  | version (version : UInt32)
  deriving DecidableEq

/-- The program of a call. -/
def AwsCall.prog (aliasPrefix : String) : AwsCall → AwsProg AwsReply
  | .wrapDEK tenant dek => do
    let (wrapped, version) ← AwsProg.wrapDEK aliasPrefix tenant dek
    return .wrapped wrapped version
  | .unwrapDEK tenant wrapped kekVersion => do
    let dek ← AwsProg.unwrapDEK tenant wrapped kekVersion
    return .dek dek
  | .rotateKEK tenant => do
    let version ← AwsProg.rotateKEK aliasPrefix tenant
    return .version version
  | .currentKEKVersion tenant => do
    let version ← AwsProg.currentKEKVersion aliasPrefix tenant
    return .version version

/-- A process with its key store, and the account. -/
abbrev AwsRun := Serial AwsCall AwsStore AwsAccess AwsAccess.Answer Err AwsReply

/-- All histories of processes, one after the other, on any account. -/
def awsSystem (S : Service) (aliasPrefix : String) : TS AwsRun (SerialStep AwsCall) :=
  serialSystem (AwsStore.act S) (AwsCall.prog aliasPrefix) AwsStore.restart
    fun x => ∀ t, x.versions t = []

/-! ### What a process knows -/

section Knows

variable {S : Service} {p t t' : String} {v : UInt32} {k keyID : String} {x y z : AwsStore}

/-- The version of the tenant stands for the CMK: in the list of the process, or in the one it would
make from the alias. -/
def Knows (p t : String) (v : UInt32) (k : String) (x : AwsStore) : Prop :=
  x.versions t = [] ∧ v = 1 ∧ x.aliases (aliasName p t) = some k ∨
    atVersion? (x.versions t) v = some k

/-- All versions stand for what they stood for. -/
def Keeps (p : String) (x y : AwsStore) : Prop := ∀ t v k, Knows p t v k x → Knows p t v k y

theorem Keeps.refl (p : String) (x : AwsStore) : Keeps p x x := fun _ _ _ h => h

theorem Keeps.trans (h : Keeps p x y) (h' : Keeps p y z) : Keeps p x z :=
  fun t v k hx => h' t v k (h t v k hx)

/-- The lists and the aliases are the same. -/
structure Same (x y : AwsStore) : Prop where
  versions : y.versions = x.versions
  aliases : y.aliases = x.aliases

theorem Same.keeps (h : Same x y) : Keeps p x y := by
  intro t v k hk
  rw [Knows, h.versions, h.aliases]
  exact hk

theorem aliasName_inj (h : aliasName p t = aliasName p t') : t = t' := by
  have hlist := congrArg String.toList h
  simp only [aliasName, String.toList_append, List.append_cancel_left_eq] at hlist
  exact String.toList_inj.1 hlist

/-- An alias is made where there was none. -/
theorem keeps_createAlias {name : String} (h : x.aliases name = none) :
    Keeps p x (x.setAlias name keyID) := by
  rintro t v k (⟨hnil, hv, ha⟩ | hk)
  · refine .inl ⟨hnil, hv, ?_⟩
    have hne : aliasName p t ≠ name := by
      rintro rfl
      rw [h] at ha
      cases ha
    simp only [AwsStore.setAlias, if_neg hne, ha]
  · exact .inr hk

/-- The alias of a tenant moves when the process has a list for it. -/
theorem keeps_updateAlias (h : x.versions t ≠ []) :
    Keeps p x (x.setAlias (aliasName p t) keyID) := by
  rintro t' v k (⟨hnil, hv, ha⟩ | hk)
  · refine .inl ⟨hnil, hv, ?_⟩
    have hne : aliasName p t' ≠ aliasName p t := by
      intro heq
      rw [aliasName_inj heq] at hnil
      exact h hnil
    simp only [AwsStore.setAlias, if_neg hne, ha]
  · exact .inr hk

/-- The list is made from the alias. -/
theorem keeps_bind (h : x.versions t = []) (ha : x.aliases (aliasName p t) = some keyID) :
    Keeps p x (x.setVersions t [keyID]) := by
  intro t' v k hk
  by_cases ht : t' = t
  · subst ht
    refine .inr ?_
    obtain ⟨-, rfl, ha'⟩ | hk := hk
    · rw [ha] at ha'
      cases ha'
      simp [AwsStore.setVersions, atVersion?]
    · rw [h] at hk
      simp [atVersion?] at hk
  · simpa only [Knows, AwsStore.setVersions, if_neg ht] using hk

/-- A list grows. -/
theorem keeps_append (h : x.versions t ≠ []) :
    Keeps p x (x.setVersions t (x.versions t ++ [keyID])) := by
  intro t' v k hk
  by_cases ht : t' = t
  · subst ht
    obtain ⟨hnil, -⟩ | hk := hk
    · exact absurd hnil h
    · refine .inr ?_
      simp only [AwsStore.setVersions, if_true]
      exact atVersion?_mono hk (List.prefix_append _ _)
  · simpa only [Knows, AwsStore.setVersions, if_neg ht] using hk

end Knows

/-! ### Calls to AWS -/

section Api

variable {S : Service} {p t name keyID : String} {x : AwsStore} {α : Type} {a : α}
  {f : AwsStore → Except ApiErr α × AwsStore}

/-- A call that succeeds has taken effect. -/
theorem api_ok (h : (x.api f).1 = .ok a) : x.api f = f x.ticked := by
  unfold AwsStore.api at h ⊢
  split at h
  · rfl
  · cases h

/-- One that fails has taken effect or not. -/
theorem api_state {P : AwsStore → Prop} (hdone : P (f x.ticked).2) (hnot : P x.ticked) :
    P (x.api f).2 := by
  unfold AwsStore.api
  split
  · exact hdone
  · dsimp only
    split_ifs
    · exact hdone
    · exact hnot

theorem same_describeKey : Same x (x.api (AwsStore.describeKey name)).2 := by
  refine api_state ?_ ⟨rfl, rfl⟩
  unfold AwsStore.describeKey
  split <;> exact ⟨rfl, rfl⟩

theorem describeKey_ok {o : Option String}
    (h : (x.api (AwsStore.describeKey name)).1 = .ok o) : x.aliases name = o := by
  rw [api_ok h, AwsStore.describeKey] at h
  split at h
  · rename_i k hk
    cases h
    exact hk
  · cases h

theorem same_createKey : Same x (x.api (AwsStore.createKey S)).2 :=
  api_state ⟨rfl, rfl⟩ ⟨rfl, rfl⟩

theorem same_encrypt {dek : Bytes} : Same x (x.api (AwsStore.encrypt S keyID dek)).2 :=
  api_state ⟨rfl, rfl⟩ ⟨rfl, rfl⟩

theorem encrypt_ok {dek b : Bytes} (h : (x.api (AwsStore.encrypt S keyID dek)).1 = .ok b) :
    ∃ n, b = S.encrypt keyID dek n := by
  rw [api_ok h] at h
  exact ⟨_, (Except.ok.inj h).symm⟩

theorem same_decrypt {w : Bytes} : Same x (x.api (AwsStore.decrypt S keyID w)).2 := by
  refine api_state ?_ ⟨rfl, rfl⟩
  unfold AwsStore.decrypt
  split <;> exact ⟨rfl, rfl⟩

theorem versions_createAlias :
    (x.api (AwsStore.createAlias name keyID)).2.versions = x.versions := by
  refine api_state (P := fun y => y.versions = x.versions) ?_ rfl
  unfold AwsStore.createAlias
  split <;> rfl

theorem keeps_act_createAlias : Keeps p x (x.api (AwsStore.createAlias name keyID)).2 := by
  refine api_state (P := Keeps p x) ?_ (Keeps.refl p x)
  unfold AwsStore.createAlias
  split
  · exact Keeps.refl p x
  · rename_i hname
    exact keeps_createAlias hname

theorem createAlias_ok (h : (x.api (AwsStore.createAlias name keyID)).1 = .ok ()) :
    (x.api (AwsStore.createAlias name keyID)).2.aliases name = some keyID := by
  have heffect := api_ok h
  rw [heffect] at h ⊢
  unfold AwsStore.createAlias at h ⊢
  split at h
  · cases h
  · simp [AwsStore.setAlias]

theorem versions_updateAlias :
    (x.api (AwsStore.updateAlias name keyID)).2.versions = x.versions := by
  refine api_state (P := fun y => y.versions = x.versions) ?_ rfl
  unfold AwsStore.updateAlias
  split <;> rfl

theorem keeps_act_updateAlias (h : x.versions t ≠ []) :
    Keeps p x (x.api (AwsStore.updateAlias (aliasName p t) keyID)).2 := by
  refine api_state (P := Keeps p x) ?_ (Keeps.refl p x)
  unfold AwsStore.updateAlias
  split
  · exact keeps_updateAlias h
  · exact Keeps.refl p x

end Api

/-! ### One call -/

section Call

variable {S : Service} {p t context : String} {x x₀ : AwsStore}

/-- The end of a call: all versions stand for what they stood for, and what has been wrapped has the
version of its CMK. -/
structure Kept (S : Service) (p : String) (c : AwsCall) (x : AwsStore) (r : Except Err AwsReply)
    (y : AwsStore) : Prop where
  keeps : Keeps p x y
  wrapped : ∀ t dek w v, c = .wrapDEK t dek → r = .ok (.wrapped w v) →
    ∃ k n, w = S.encrypt k dek n ∧ atVersion? (y.versions t) v = some k

/-- The list of the tenant, which is not empty. -/
structure Listed (t : String) (x : AwsStore) (known : List String) (y : AwsStore) : Prop where
  eq : y.versions t = known
  nonempty : known ≠ []
  length : known.length = max 1 (x.versions t).length

theorem along_describeKey (hx : Keeps p x₀ x) :
    (AwsProg.describeKey p t).Along (AwsStore.act S) (fun _ _ => True) (Keeps p x₀)
      (fun r y => Same x y ∧ ∃ d, r = .ok d ∧
        ∀ k, d = .ok k → x.aliases (aliasName p t) = some k) x := by
  refine Prog.along_access hx fun _ => ?_
  have hsame : Same x (x.api (AwsStore.describeKey (aliasName p t))).2 := same_describeKey
  refine ⟨hx.trans hsame.keeps, hsame, _, rfl, fun k hk => ?_⟩
  change (x.api (AwsStore.describeKey (aliasName p t))).1.bind AwsProg.described = .ok k at hk
  cases hr : (x.api (AwsStore.describeKey (aliasName p t))).1 with
  | error e =>
    rw [hr] at hk
    cases hk
  | ok o =>
    rw [hr] at hk
    rw [describeKey_ok hr]
    cases o with
    | none => cases hk
    | some k' =>
      cases hk
      rfl

theorem along_orFail {α : Type} {I : AwsStore → Prop} {Q : Except Err α → AwsStore → Prop}
    {r : Except ApiErr α} (hI : I x) (hok : ∀ a, r = .ok a → Q (.ok a) x)
    (herr : ∀ e, Q (.error e) x) :
    (AwsProg.orFail context r).Along (AwsStore.act S) (fun _ _ => True) I Q x := by
  cases r with
  | ok a => exact ⟨hI, hok a rfl⟩
  | error e => exact ⟨hI, herr _⟩

theorem along_createKey (hx : Keeps p x₀ x) :
    (AwsProg.createKey context).Along (AwsStore.act S) (fun _ _ => True) (Keeps p x₀)
      (fun _ y => Same x y) x := by
  refine Prog.along_access hx fun _ => ?_
  have hsame : Same x (x.api (AwsStore.createKey S)).2 := same_createKey
  have hI := hx.trans (hsame.keeps (p := p))
  refine (along_orFail (Q := fun _ y => Same x y) hI (fun _ _ => hsame) fun _ => hsame).bind ?_
    fun _ _ _ h => h
  intro o y hI hy
  dsimp only
  split_ifs
  · exact ⟨hI, hy⟩
  · exact ⟨hI, hy⟩

theorem along_createAlias {name keyID : String} (hx : Keeps p x₀ x) :
    (AwsProg.createAlias context name keyID).Along (AwsStore.act S) (fun _ _ => True)
      (Keeps p x₀)
      (fun r y => y.versions = x.versions ∧ ∀ a, r = .ok a → y.aliases name = some keyID) x := by
  refine Prog.along_access hx fun _ => ?_
  refine along_orFail (hx.trans keeps_act_createAlias) (fun a ha => ?_) fun e => ?_
  · exact ⟨versions_createAlias, fun _ _ => createAlias_ok ha⟩
  · refine ⟨versions_createAlias, fun a ha => ?_⟩
    cases ha

theorem along_updateAlias {keyID : String} (hx : Keeps p x₀ x) (ht : x.versions t ≠ []) :
    (AwsProg.updateAlias context (aliasName p t) keyID).Along (AwsStore.act S) (fun _ _ => True)
      (Keeps p x₀) (fun _ y => y.versions = x.versions) x := by
  refine Prog.along_access hx fun _ => ?_
  exact along_orFail (hx.trans (keeps_act_updateAlias ht)) (fun _ _ => versions_updateAlias)
    fun _ => versions_updateAlias

theorem along_encrypt {keyID : String} {dek : Bytes} (hx : Keeps p x₀ x) :
    (AwsProg.encrypt context keyID dek).Along (AwsStore.act S) (fun _ _ => True) (Keeps p x₀)
      (fun r y => Same x y ∧ ∀ b, r = .ok b → ∃ n, b = S.encrypt keyID dek n) x := by
  refine Prog.along_access hx fun _ => ?_
  refine along_orFail (hx.trans same_encrypt.keeps) (fun b hb => ?_) fun e => ?_
  · refine ⟨same_encrypt, fun b' hb' => ?_⟩
    cases hb'
    exact encrypt_ok hb
  · refine ⟨same_encrypt, fun b' hb' => ?_⟩
    cases hb'

theorem along_decrypt {keyID : String} {w : Bytes} (hx : Keeps p x₀ x) :
    (AwsProg.decrypt context keyID w).Along (AwsStore.act S) (fun _ _ => True) (Keeps p x₀)
      (fun _ _ => True) x := by
  refine Prog.along_access hx fun _ => ?_
  exact along_orFail (hx.trans same_decrypt.keeps) (fun _ _ => trivial) fun _ => trivial

theorem along_bindKey {keyID : String} (hx : Keeps p x₀ x)
    (ha : x.aliases (aliasName p t) = some keyID) :
    (AwsProg.bindKey t keyID).Along (AwsStore.act S) (fun _ _ => True) (Keeps p x₀)
      (fun r y => ∃ known, r = .ok known ∧ Listed t x known y) x := by
  refine Prog.along_access hx fun _ => ?_
  cases hlist : x.versions t with
  | nil =>
    simp only [AwsStore.act, hlist]
    refine ⟨hx.trans (keeps_bind hlist ha), [keyID], rfl, ?_, by simp, ?_⟩
    · simp [AwsStore.setVersions]
    · simp [hlist]
  | cons first rest =>
    simp only [AwsStore.act, hlist]
    refine ⟨hx, first :: rest, rfl, hlist, by simp, ?_⟩
    simp [hlist]

/-- The list is made from the alias, which is that of `x` or has just been made. -/
theorem along_bindKey_newest {y : AwsStore} {keyID : String} (hy : Keeps p x₀ y)
    (hversions : y.versions = x.versions)
    (ha : y.aliases (aliasName p t) = some keyID) :
    (AwsProg.bindKey t keyID >>= fun known => pure (AwsProg.newest known)).Along (AwsStore.act S)
      (fun _ _ => True) (Keeps p x₀)
      (fun r z => ∀ a, r = .ok a → ∃ known, a = AwsProg.newest known ∧ Listed t x known z) y := by
  refine (along_bindKey hy ha).bind ?_ ?_
  · rintro known z hz ⟨_, h, hlisted⟩
    cases h
    refine ⟨hz, fun a ha => ⟨known, (Except.ok.inj ha).symm, hlisted.eq, hlisted.nonempty, ?_⟩⟩
    rw [hlisted.length, hversions]
  · rintro e z - ⟨_, he, -⟩
    cases he

/-- `activeKey` gives the newest entry of a list that is not empty. -/
theorem along_activeKey (hx : Keeps p x₀ x) :
    (AwsProg.activeKey p t).Along (AwsStore.act S) (fun _ _ => True) (Keeps p x₀)
      (fun r y => ∀ a, r = .ok a → ∃ known, a = AwsProg.newest known ∧ Listed t x known y) x := by
  refine Prog.along_access hx fun _ => ?_
  by_cases hnil : x.versions t = []
  · simp only [AwsStore.act, Prog.bind, hnil, ne_eq, not_true_eq_false, if_false]
    refine (along_describeKey hx).bind ?_ ?_
    · rintro described y hy ⟨hsame, _, h, hdescribed⟩
      cases h
      cases described with
      | ok keyID =>
        refine along_bindKey_newest hy hsame.versions ?_
        rw [hsame.aliases, hdescribed keyID rfl]
      | error e =>
        refine Prog.along_ite (fun _ => (along_createKey hy).bind ?_ ?_) fun _ => ⟨hy, ?_⟩
        · intro keyID z hz hsame'
          refine (along_createAlias hz).bind ?_ ?_
          · rintro _ w hw ⟨hversions, halias⟩
            exact along_bindKey_newest hw
              (hversions.trans (hsame'.versions.trans hsame.versions)) (halias _ rfl)
          · intro e w _ _ a ha
            cases ha
        · intro e z _ _ a ha
          cases ha
        · intro a ha
          cases ha
    · rintro e y _ ⟨-, d, he, -⟩
      cases he
  · simp only [AwsStore.act, Prog.bind, hnil, ne_eq, not_false_eq_true, if_true]
    refine ⟨hx, fun a ha => ⟨x.versions t, (Except.ok.inj ha).symm, rfl, hnil, ?_⟩⟩
    exact (max_eq_right (List.length_pos_iff.2 hnil)).symm

theorem along_wrapDEK {dek : Bytes} (hx : Keeps p x₀ x)
    (hmax : (x.versions t).length < 2 ^ 32) :
    (AwsProg.wrapDEK p t dek).Along (AwsStore.act S) (fun _ _ => True) (Keeps p x₀)
      (fun r y => ∀ w v, r = .ok (w, v) →
        ∃ k n, w = S.encrypt k dek n ∧ atVersion? (y.versions t) v = some k) x := by
  refine (along_activeKey hx).bind ?_ ?_
  · intro a y hy ha
    obtain ⟨known, rfl, hlisted⟩ := ha a rfl
    have hlen : known.length < 2 ^ 32 := by
      rw [hlisted.length]
      omega
    have hlast : known.getLast? = some (known.getLastD "") := by
      rw [List.getLast?_eq_some_getLast hlisted.nonempty, List.getLastD_eq_getLast?,
        List.getLast?_eq_some_getLast hlisted.nonempty, Option.getD_some]
    refine (along_encrypt hy).bind ?_ ?_
    · rintro b z hz ⟨hsame, hb⟩
      refine ⟨hz, fun w v h => ?_⟩
      cases h
      obtain ⟨n, hn⟩ := hb b rfl
      refine ⟨_, n, hn, ?_⟩
      rw [hsame.versions, hlisted.eq]
      exact atVersion?_last hlen hlast
    · rintro e z _ _ w v h
      cases h
  · rintro e z _ _ w v h
    cases h

theorem along_rotateKEK (hx : Keeps p x₀ x) :
    (AwsProg.rotateKEK p t).Along (AwsStore.act S) (fun _ _ => True) (Keeps p x₀)
      (fun _ _ => True) x := by
  refine (along_activeKey hx).bind ?_ fun _ _ _ _ => trivial
  intro a y hy ha
  obtain ⟨known, rfl, hlisted⟩ := ha a rfl
  refine (along_createKey hy).bind ?_ fun _ _ _ _ => trivial
  intro keyID z hz hsame
  have hz' : z.versions t ≠ [] := by
    rw [hsame.versions, hlisted.eq]
    exact hlisted.nonempty
  refine (along_updateAlias hz hz').bind ?_ fun _ _ _ _ => trivial
  intro _ w hw hversions
  have hw' : w.versions t ≠ [] := by
    rw [hversions]
    exact hz'
  exact Prog.along_access hw fun _ => ⟨hw.trans (keeps_append hw'), trivial⟩

theorem along_currentKEKVersion (hx : Keeps p x₀ x) :
    (AwsProg.currentKEKVersion p t).Along (AwsStore.act S) (fun _ _ => True) (Keeps p x₀)
      (fun _ _ => True) x := by
  refine Prog.along_access hx fun _ => ?_
  refine Prog.along_ite (fun _ => ⟨hx, trivial⟩) fun _ => ?_
  refine (along_describeKey hx).bind ?_ fun _ _ _ _ => trivial
  rintro described y hy ⟨hsame, _, h, hdescribed⟩
  cases h
  cases described with
  | ok keyID =>
    have ha : y.aliases (aliasName p t) = some keyID := by
      rw [hsame.aliases, hdescribed keyID rfl]
    exact (along_bindKey hy ha).bind (fun _ _ hz _ => ⟨hz, trivial⟩) fun _ _ _ _ => trivial
  | error e => exact Prog.along_ite (fun _ => ⟨hy, trivial⟩) fun _ => ⟨hy, trivial⟩

theorem along_unwrapDEK {w : Bytes} {v : UInt32} (hx : Keeps p x₀ x) :
    (AwsProg.unwrapDEK t w v).Along (AwsStore.act S) (fun _ _ => True) (Keeps p x₀)
      (fun _ _ => True) x := by
  refine Prog.along_ite (fun _ => ⟨hx, trivial⟩) fun _ => ?_
  refine Prog.along_access hx fun _ => ?_
  exact Prog.along_ite (fun _ => ⟨hx, trivial⟩) fun _ => along_decrypt hx

/-- Every call from its beginning to its end. -/
theorem along_call {c : AwsCall} (hmax : ∀ t dek, c = .wrapDEK t dek →
    (x.versions t).length < 2 ^ 32) :
    (c.prog p).Along (AwsStore.act S) (fun _ _ => True) (Keeps p x) (Kept S p c x) x := by
  have hx := Keeps.refl p x
  cases c with
  | wrapDEK t dek =>
    refine (along_wrapDEK hx (hmax t dek rfl)).bind ?_ ?_
    · rintro ⟨w, v⟩ y hy hw
      refine ⟨hy, hy, fun t dek w v hc hr => ?_⟩
      cases hc
      cases hr
      exact hw _ _ rfl
    · rintro e y hy -
      refine ⟨hy, fun t dek w v _ hr => ?_⟩
      cases hr
  | unwrapDEK t w v =>
    refine (along_unwrapDEK hx).bind (fun _ y hy _ => ⟨hy, hy, ?_⟩) fun _ y hy _ => ⟨hy, ?_⟩
    all_goals
      rintro t dek w v hc
      cases hc
  | rotateKEK t =>
    refine (along_rotateKEK hx).bind (fun _ y hy _ => ⟨hy, hy, ?_⟩) fun _ y hy _ => ⟨hy, ?_⟩
    all_goals
      rintro t dek w v hc
      cases hc
  | currentKEKVersion t =>
    refine (along_currentKEKVersion hx).bind (fun _ y hy _ => ⟨hy, hy, ?_⟩)
      fun _ y hy _ => ⟨hy, ?_⟩
    all_goals
      rintro t dek w v hc
      cases hc

end Call

/-! ### All histories -/

section History

variable {S : Service} {p t : String} {v : UInt32} {k : String} {x y : AwsStore}

/-- The alias of every tenant the process knows points to its only CMK. -/
def Unrotated (p : String) (x : AwsStore) : Prop :=
  ∀ t, x.versions t = [] ∨
    ∃ k, x.versions t = [k] ∧ x.aliases (aliasName p t) = some k

/-- The calls whose version is faithful. -/
def AwsCall.Countable : AwsCall → AwsStore → Prop
  | .wrapDEK tenant _, x => (x.versions tenant).length < 2 ^ 32
  | _, _ => True

/-- What a process knows, the next one makes from the alias. -/
theorem Knows.restart (h : Knows p t v k x) (hx : Unrotated p x) :
    Knows p t v k { x with versions := fun _ => [] } := by
  refine .inl ⟨rfl, ?_⟩
  obtain ⟨-, hv, ha⟩ | hk := h
  · exact ⟨hv, ha⟩
  · obtain hnil | ⟨k', hone, ha⟩ := hx t
    · rw [hnil] at hk
      simp [atVersion?] at hk
    · obtain ⟨hzero, hle⟩ := le_of_atVersion? hk
      rw [hone] at hk hle
      have hv : v = 1 := by
        refine UInt32.toNat_inj.1 ?_
        have hpos : v.toNat ≠ 0 := fun hz => hzero (UInt32.toNat_inj.1 hz)
        simp at hle ⊢
        omega
      subst hv
      cases hk
      exact ⟨rfl, ha⟩

/-- Calls keep what the versions stand for, and so do restarts while nothing has been rotated. -/
theorem aws_steady {P : AwsStore → Prop} (hP : ∀ x y, Keeps p x y → P x → P y)
    (hrestart : ∀ x, Unrotated p x → P x → P { x with versions := fun _ => [] }) :
    Serial.Steady (AwsStore.act S) (AwsCall.prog p) AwsStore.restart AwsCall.Countable
      (fun _ _ => True) (Unrotated p) P (fun _ => Keeps p) (Kept S p) where
  call c x hc _ := by
    refine along_call fun t dek h => ?_
    subst h
    exact hc
  ends c x r y hx hy := hP x y hy.keeps hx
  idle x y hD hx hy := by
    cases hy
    exact hrestart x hD hx
  crash c x y z hD hx hy hz := by
    cases hz
    exact hrestart y hD (hP x y hy hx)

/-- A process that knows the version unwraps under it, once it has a list for the tenant. -/
theorem unwrapDEK_run_iff (hS : S.Lawful) {dek : Bytes} {n : ℕ} (hknows : Knows p t v k x)
    (hfault : x.faults 0 = none) :
    (∃ y, ((AwsCall.unwrapDEK t (S.encrypt k dek n) v).prog p).run (AwsStore.act S) x =
      .ok (.dek dek) y) ↔ x.versions t ≠ [] := by
  obtain ⟨hnil, rfl, -⟩ | hk := hknows
  · refine iff_of_false ?_ (not_not.2 hnil)
    rintro ⟨y, h⟩
    have hone : ¬ ((1 : UInt32) = 0) := by decide
    simp [AwsCall.prog, AwsProg.unwrapDEK, AwsProg.versions, AwsProg.ask, hone, AwsStore.act,
      hnil] at h
  · obtain ⟨hzero, hle⟩ := le_of_atVersion? hk
    rw [atVersion?_of_le hzero hle "", Option.some.injEq, List.getD_eq_getElem?_getD] at hk
    have hne : x.versions t ≠ [] := by
      intro hnil
      rw [hnil, List.length_nil] at hle
      exact hzero (UInt32.toNat_inj.1 (Nat.le_zero.1 hle))
    refine iff_of_true ⟨x.ticked, ?_⟩ hne
    have hdecrypt : x.api (AwsStore.decrypt S k (S.encrypt k dek n)) = (.ok dek, x.ticked) := by
      simp [AwsStore.api, hfault, AwsStore.decrypt, hS k k dek n]
    simp [AwsCall.prog, AwsProg.unwrapDEK, AwsProg.versions, AwsProg.ask, hzero, AwsStore.act,
      not_lt.2 hle, AwsProg.decrypt, hk, hdecrypt]
    rfl

/-- The histories in which a process is started only while nothing has been rotated, and `WrapDEK`
is called for tenants with fewer than `2 ^ 32` CMKs. -/
def unrotatedSystem (S : Service) (p : String) : TS AwsRun (SerialStep AwsCall) :=
  (awsSystem S p).restrict (Serial.Meets AwsCall.Countable (fun _ _ => True) (Unrotated p))

/-- **What has been wrapped stays unwrappable.**  In every such history, after `WrapDEK` has
returned a pair, whatever happens then: `UnwrapDEK` gives the key back exactly if the process has a
list for the tenant, and when `WrapDEK` returns the same version again it has used the same CMK. -/
theorem wrapped_unwraps (hS : S.Lawful) {s s' : AwsRun} (hr : (unrotatedSystem S p).Reachable s)
    {dek w : Bytes} (hcall : s.call = some (.wrapDEK t dek, .ret (.wrapped w v)))
    {ls : List (SerialStep AwsCall)} (hrun : (unrotatedSystem S p).Run s ls s') :
    (s'.access? = none → s'.shared.faults 0 = none →
      ((∃ y, ((AwsCall.unwrapDEK t w v).prog p).run (AwsStore.act S) s'.shared =
        .ok (.dek dek) y) ↔ s'.shared.versions t ≠ [])) ∧
    ∀ dek' w', s'.call = some (.wrapDEK t dek', .ret (.wrapped w' v)) →
      ∃ k, S.decrypt k w = some dek ∧ S.decrypt k w' = some dek' := by
  have hsound := Serial.Sound.of_reachable (aws_steady (S := S) (p := p) (P := fun _ => True)
    (fun _ _ _ _ => trivial) fun _ _ _ => trivial) (fun _ _ => trivial) hr
  obtain ⟨k, n, rfl, hk⟩ := (hsound.call _ _ hcall).2.wrapped t dek w v rfl rfl
  have hidle : s.access? = none := by
    rw [Serial.access?, hcall]
    rfl
  have hsteady := aws_steady (S := S) (p := p) (P := Knows p t v k)
    (fun x y h => h t v k) fun x hx h => h.restart hx
  have hlater := Serial.Sound.of_run hsteady hidle (.inr hk) hrun
  refine ⟨fun hidle' hfault => unwrapDEK_run_iff hS ?_ hfault, fun dek' w' hcall' => ?_⟩
  · obtain rfl | hlater := hlater
    · exact .inr hk
    · exact hlater.shared hsteady.ends hidle'
  · have hend : Knows p t v k s'.shared ∧
        ∃ k' n', w' = S.encrypt k' dek' n' ∧ atVersion? (s'.shared.versions t) v = some k' := by
      obtain rfl | hlater := hlater
      · exact ⟨.inr hk, (hsound.call _ _ hcall').2.wrapped t dek' w' v rfl rfl⟩
      · have hkept := (hlater.call _ _ hcall').2
        exact ⟨hkept.keeps t v k hlater.before, hkept.wrapped t dek' w' v rfl rfl⟩
    obtain ⟨hnow, k', n', rfl, hk'⟩ := hend
    obtain ⟨hnil, -⟩ | hnow := hnow
    · rw [hnil] at hk'
      simp [atVersion?] at hk'
    · rw [hk', Option.some.injEq] at hnow
      subst hnow
      exact ⟨k', by simp [hS k' k' dek n], by simp [hS k' k' dek' n']⟩

end History

/-! ### Two histories -/

namespace Tagged

/-- An id in unary, so that no id begins another. -/
def tag : List Char → Bytes
  | [] => [2]
  | c :: cs => List.replicate c.toNat 1 ++ 0 :: tag cs

/-- A service that writes the id before the plaintext. -/
def service : Service where
  keyID n := String.ofList (List.replicate (n + 1) 'k')
  encrypt keyID plaintext _ := tag keyID.toList ++ plaintext
  decrypt keyID blob :=
    if tag keyID.toList <+: blob then some (blob.drop (tag keyID.toList).length) else none

theorem replicate_inj {m n : ℕ} {l l' : Bytes}
    (h : List.replicate m 1 ++ 0 :: l <+: List.replicate n 1 ++ 0 :: l') : m = n ∧ l <+: l' := by
  induction m generalizing n with
  | zero =>
    cases n with
    | zero => exact ⟨rfl, (List.cons_prefix_cons.1 h).2⟩
    | succ n =>
      rw [List.replicate_succ] at h
      exact absurd (List.cons_prefix_cons.1 h).1 (by decide)
  | succ m ih =>
    cases n with
    | zero =>
      rw [List.replicate_succ] at h
      exact absurd (List.cons_prefix_cons.1 h).1 (by decide)
    | succ n =>
      rw [List.replicate_succ, List.replicate_succ] at h
      obtain ⟨hm, hl⟩ := ih (List.cons_prefix_cons.1 h).2
      exact ⟨congrArg (· + 1) hm, hl⟩

/-- A unary number does not begin with the end mark. -/
theorem head_replicate (n : ℕ) (l : Bytes) :
    (List.replicate n 1 ++ 0 :: l).head? ≠ some 2 := by
  cases n <;> simp [List.replicate_succ]

theorem tag_inj {l l' : List Char} {b : Bytes} (h : tag l <+: tag l' ++ b) : l = l' := by
  induction l generalizing l' with
  | nil =>
    cases l' with
    | nil => rfl
    | cons c cs =>
      obtain ⟨rest, hrest⟩ := h
      rw [tag, tag, List.append_assoc, List.cons_append, List.cons_append] at hrest
      exact absurd (hrest ▸ rfl) (head_replicate c.toNat (tag cs ++ b))
  | cons c cs ih =>
    cases l' with
    | nil =>
      obtain ⟨rest, hrest⟩ := h
      rw [tag, tag, List.append_assoc, List.cons_append] at hrest
      exact absurd (hrest ▸ rfl) (head_replicate c.toNat (tag cs ++ rest))
    | cons d ds =>
      rw [tag, tag, List.append_assoc, List.cons_append] at h
      obtain ⟨hc, hcs⟩ := replicate_inj h
      rw [Char.toNat_inj.1 hc, ih hcs]

theorem lawful : service.Lawful := by
  intro k k' dek n
  by_cases hk : k = k'
  · subst hk
    simp [service]
  · have hno : ¬ tag k.toList <+: tag k'.toList ++ dek :=
      fun h => hk (String.toList_inj.1 (tag_inj h))
    simp [service, hk, hno]

/-- One step of a history. -/
def step (s : AwsRun) (l : SerialStep AwsCall) : Option AwsRun :=
  s.next (AwsStore.act service) (AwsCall.prog "") AwsStore.restart l

instance (c : AwsCall) (x : AwsStore) : Decidable (c.Countable x) :=
  match c with
  | .wrapDEK tenant _ => inferInstanceAs (Decidable ((x.versions tenant).length < 2 ^ 32))
  | .unwrapDEK .. | .rotateKEK _ | .currentKEKVersion _ => .isTrue trivial

/-- One step within a process. -/
def plain : AwsRun → SerialStep AwsCall → Option AwsRun :=
  TS.guarded (Serial.Meets AwsCall.Countable (fun _ _ => True) fun _ => False) step

theorem step_plain {s s' : AwsRun} {l : SerialStep AwsCall} (h : plain s l = some s') :
    (unrotatedSystem service "").step s l s' := by
  have hstep := TS.step_guarded (T := awsSystem service "") (fun h => h) h
  refine ⟨?_, hstep.2⟩
  cases l with
  | begin c => exact hstep.1
  | step => exact hstep.1
  | restart => exact hstep.1.elim

/-- An account without aliases. -/
def account : AwsStore := ⟨fun _ => none, 0, 0, fun _ => none, fun _ => []⟩

/-- The first CMK wraps a key. -/
def wrapped : List (SerialStep AwsCall) :=
  .begin (.wrapDEK "acme" [5]) :: List.replicate 6 .step

/-- What it has made of it. -/
def blob : Bytes := service.encrypt (service.keyID 0) [5] 0

/-- The tenant gets a second CMK, and a new process wraps another key. -/
def rotated : List (SerialStep AwsCall) :=
  .begin (.rotateKEK "acme") :: List.replicate 4 .step ++
    [.restart, .begin (.wrapDEK "acme" [6]), .step, .step, .step, .step]

/-- `UnwrapDEK` of the first key is refused. -/
def refused (x : AwsStore) : Bool :=
  match ((AwsCall.unwrapDEK "acme" blob 1).prog "").run (AwsStore.act service) x with
  | .ok .. => false
  | .error .. => true

theorem of_refused {x : AwsStore} (h : refused x = true) (r : AwsReply) (y : AwsStore) :
    ((AwsCall.unwrapDEK "acme" blob 1).prog "").run (AwsStore.act service) x ≠ .ok r y := by
  intro hrun
  simp [refused, hrun] at h

end Tagged

/-- A process wraps a key under the first CMK, and the next one refuses to unwrap it.  When the
first process has rotated before, the next one returns version 1 for the second CMK, and then does
not unwrap what the first has returned with version 1. -/
theorem wrapped_refused : ∃ (s s₁ s₂ : AwsRun) (ls₁ ls₂ : List (SerialStep AwsCall)) (w : Bytes),
    (awsSystem Tagged.service "").Reachable s ∧
      s.call = some (.wrapDEK "acme" [5], .ret (.wrapped Tagged.blob 1)) ∧
    (awsSystem Tagged.service "").Run s ls₁ s₁ ∧
      (∀ r y, ((AwsCall.unwrapDEK "acme" Tagged.blob 1).prog "").run
        (AwsStore.act Tagged.service) s₁.shared ≠ .ok r y) ∧
    (awsSystem Tagged.service "").Run s ls₂ s₂ ∧
      s₂.call = some (.wrapDEK "acme" [6], .ret (.wrapped w 1)) ∧
      (¬ ∃ k, Tagged.service.decrypt k Tagged.blob = some [5] ∧
        Tagged.service.decrypt k w = some [6]) ∧
      ∀ r y, ((AwsCall.unwrapDEK "acme" Tagged.blob 1).prog "").run
        (AwsStore.act Tagged.service) s₂.shared ≠ .ok r y := by
  have hend : ((TS.exec Tagged.step (.start Tagged.account) Tagged.wrapped).bind fun s =>
      (TS.exec Tagged.step s [.restart]).bind fun s₁ =>
        (TS.exec Tagged.step s Tagged.rotated).map fun s₂ =>
          decide (s.ended = some (.wrapDEK "acme" [5], .ok (.wrapped Tagged.blob 1))) &&
            Tagged.refused s₁.shared &&
            decide (s₂.ended = some (.wrapDEK "acme" [6], .ok (.wrapped
              (Tagged.service.encrypt (Tagged.service.keyID 1) [6] 1) 1))) &&
            Tagged.refused s₂.shared) = some true := by
    decide +kernel
  obtain ⟨s, hs, hend⟩ := Option.bind_eq_some_iff.1 hend
  obtain ⟨s₁, hs₁, hend⟩ := Option.bind_eq_some_iff.1 hend
  obtain ⟨s₂, hs₂, hend⟩ := Option.map_eq_some_iff.1 hend
  simp only [Bool.and_eq_true, decide_eq_true_eq] at hend
  obtain ⟨⟨⟨hwrap, hrefused⟩, hwrap'⟩, hrefused'⟩ := hend
  refine ⟨s, s₁, s₂, [.restart], Tagged.rotated, _,
    TS.Reachable.exec (.init ⟨_, fun _ => rfl, rfl⟩) (fun _ _ _ _ h => h) hs,
    Serial.call_of_ended_ok hwrap, TS.Run.exec (fun _ _ _ _ h => h) hs₁, Tagged.of_refused hrefused,
    TS.Run.exec (fun _ _ _ _ h => h) hs₂, Serial.call_of_ended_ok hwrap', ?_,
    Tagged.of_refused hrefused'⟩
  rintro ⟨k, h, h'⟩
  rw [Tagged.blob, Tagged.lawful] at h
  rw [Tagged.lawful] at h'
  split_ifs at h h' with hk hk'
  exact absurd (hk.symm.trans hk') (by decide)

/-- A process wraps a key, the next one wraps another, and then unwraps the first. -/
theorem wrapped_unwraps_restarted : ∃ (s s' : AwsRun) (ls : List (SerialStep AwsCall)),
    (unrotatedSystem Tagged.service "").Reachable s ∧
      s.call = some (.wrapDEK "acme" [5], .ret (.wrapped Tagged.blob 1)) ∧
      (unrotatedSystem Tagged.service "").Run s (.restart :: ls) s' ∧
      ∃ y, ((AwsCall.unwrapDEK "acme" Tagged.blob 1).prog "").run
        (AwsStore.act Tagged.service) s'.shared = .ok (.dek [5]) y := by
  let later : List (SerialStep AwsCall) := .begin (.wrapDEK "acme" [6]) :: List.replicate 4 .step
  have hend : ((TS.exec Tagged.plain (.start Tagged.account) Tagged.wrapped).bind fun s =>
      (s.shared.restart.map Serial.start).bind fun s₁ =>
        (TS.exec Tagged.plain s₁ later).map fun s' =>
          decide (s.ended = some (.wrapDEK "acme" [5], .ok (.wrapped Tagged.blob 1))) &&
            s'.access?.isNone && (s'.shared.faults 0).isNone &&
            decide (s'.shared.versions "acme" ≠ [])) = some true := by
    decide +kernel
  have hknown : (TS.exec Tagged.plain (.start Tagged.account) Tagged.wrapped).map (fun s =>
      (s.shared.versions, s.shared.aliases)) =
      some (fun t => if t = "acme" then [Tagged.service.keyID 0] else [], fun name =>
        if name = aliasName "" "acme" then some (Tagged.service.keyID 0) else none) := rfl
  obtain ⟨s, hs, hend⟩ := Option.bind_eq_some_iff.1 hend
  obtain ⟨s₁, hs₁, hend⟩ := Option.bind_eq_some_iff.1 hend
  obtain ⟨s', hs', hend⟩ := Option.map_eq_some_iff.1 hend
  simp only [Bool.and_eq_true, decide_eq_true_eq, Option.isNone_iff_eq_none] at hend
  obtain ⟨⟨⟨hwrap, hidle⟩, hfault⟩, hne⟩ := hend
  have hunrotated : Unrotated "" s.shared := by
    rw [hs] at hknown
    simp only [Option.map_some, Option.some.injEq, Prod.mk.injEq] at hknown
    intro t
    rw [hknown.1, hknown.2]
    by_cases ht : t = "acme"
    · exact .inr ⟨Tagged.service.keyID 0, by simp [ht], by simp [ht]⟩
    · exact .inl (by simp [ht])
  have hr : (unrotatedSystem Tagged.service "").Reachable s :=
    TS.Reachable.exec (.init ⟨_, fun _ => rfl, rfl⟩) (fun l _ s s' => Tagged.step_plain) hs
  have hrun : (unrotatedSystem Tagged.service "").Run s (.restart :: later) s' :=
    .cons ⟨hunrotated, hs₁⟩ (TS.Run.exec (fun l _ s s' => Tagged.step_plain) hs')
  have hcall := Serial.call_of_ended_ok hwrap
  exact ⟨s, s', later, hr, hcall, hrun,
    ((wrapped_unwraps Tagged.lawful hr hcall hrun).1 hidle hfault).2 hne⟩

end Kms

end EventStore
