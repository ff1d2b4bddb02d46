import EventStore.Es.Types
import EventStore.Failure.Basic
import EventStore.HashChain.Basic
import Mathlib.Tactic.Common

/-!
# The tamper-evident chain

`es/chain.go`: every event of a stream stores the SHA-256 digest of its predecessor's digest and
of the deterministic serialisation of its own envelope, and `verifyStreamChain` recomputes the
digests of a stream from its envelopes.

SHA-256 and the deterministic marshalling of the envelope message are parameters (`Hasher`).
`chainScheme` presents the chain as a `HashChain.Scheme`, and `verifyFrom_eq_ok_iff` says that
verification accepts exactly its valid chains.
-/

namespace EventStore

/-- `timestamppb.Timestamp`. -/
structure Timestamp where
  seconds : ℤ
  nanos : ℤ
  deriving DecidableEq, Repr

/-- `timestamppb.New`. -/
def timestampNew (t : Time) : Timestamp := ⟨t / 1000000000, t % 1000000000⟩

/-- A conversion to `int32`. -/
def toInt32 (z : ℤ) : ℤ := Int.bmod z (2 ^ 32)

/-- `envelopev1.Actor`. -/
structure ActorV1 where
  kind : ℤ
  principal : String
  onBehalfOf : String
  apiKeyId : String
  attributes : StringMap
  deriving DecidableEq

/-- `envelopev1.Envelope`, without the commit-time fields and the two hash fields. -/
structure EnvelopeV1 where
  eventId : String
  tenantId : String
  streamId : String
  version : ℕ
  typeUrl : String
  schemaVersion : UInt32
  occurredAt : Timestamp
  correlationId : String
  causationId : String
  commandId : String
  actor : ActorV1
  payload : Bytes
  encryptionKeyRefs : Bytes
  deriving DecidableEq

/-- The functions the chain is computed with. -/
structure Hasher where
  /-- `sha256.Sum256`. -/
  sha256 : Bytes → Bytes
  /-- A digest has 32 bytes. -/
  sha256_size : ∀ b, (sha256 b).length = 32
  /-- `proto.MarshalOptions{Deterministic: true}.Marshal`. -/
  marshal : EnvelopeV1 → Except Err Bytes

/-- `es.ZeroHash`, the `prev_hash` of the first event of a stream. -/
def zeroHash : Bytes := List.replicate 32 0

/-- The hash-covered fields of an envelope: the message `canonicalEnvelopeBytes` marshals. -/
def hashSubset (e : Envelope) : EnvelopeV1 where
  eventId := e.eventID.string
  tenantId := e.tenantID
  streamId := e.streamID.canonical
  version := e.version
  typeUrl := e.typeURL
  schemaVersion := e.schemaVersion
  occurredAt := timestampNew e.occurredAt
  correlationId := e.correlationID.string
  causationId := e.causationID.string
  commandId := e.commandID.string
  actor :=
    { kind := toInt32 e.actor.kind
      principal := e.actor.principal
      onBehalfOf := e.actor.onBehalfOf
      apiKeyId := e.actor.apiKeyID
      attributes := e.actor.attributes }
  payload := e.payload
  encryptionKeyRefs := e.keyRefs.getD []

variable (H : Hasher)

/-- `canonicalEnvelopeBytes`. -/
def canonicalEnvelopeBytes (e : Envelope) : Except Err Bytes := H.marshal (hashSubset e)

/-- `es.ComputeChainHash`. -/
def computeChainHash (prevHash : Bytes) (e : Envelope) : Except Err Bytes :=
  let n := prevHash.length
  if n ≠ 32 then .error (.text s!"eventstore: prev hash must be 32 bytes, got {n}")
  else do
    let canonical ← canonicalEnvelopeBytes H e
    return H.sha256 (prevHash ++ canonical)

/-- `equalHash`: equal lengths, and the exclusive-or of the bytes vanishes. -/
def equalHash (a b : Bytes) : Bool :=
  if a.length ≠ b.length then false
  else (List.zipWith (· ^^^ ·) a b).foldl (· ||| ·) 0 == 0

/-- The loop of `es.VerifyStreamChain`, with `prev` the digest of the event before. -/
def verifyFrom (prev : Bytes) : List Envelope → Except Err Unit
  | [] => .ok ()
  | e :: es => do
    let v := e.version
    let got ← (computeChainHash H prev e).mapError (.wrap s!"recompute hash at version {v}")
    if equalHash got e.hash then verifyFrom e.hash es
    else .error (.wrap s!"version {v}" (.sentinel .chainBroken))

/-- `es.StreamReader`: the events of a stream with a version above the given one. -/
abbrev StreamReader := StreamID → ℕ → Except Err (List Envelope)

/-- `es.VerifyStreamChain`. -/
def verifyStreamChain (store : StreamReader) (sid : StreamID) : Except Err Unit := do
  let envs ← store sid 0
  verifyFrom H zeroHash envs

/-- A reader that answers with a fixed list, as the tests of the chain use one. -/
def fakeStreamReader (envs : List Envelope) : StreamReader := fun _ _ => .ok envs

/-- A hasher small enough to compute with: the digest is the last 32 bytes of the input, padded
with zeros, and an envelope is serialised as its version, the nanoseconds of its time and its key
references. -/
def Hasher.small : Hasher where
  sha256 b := (List.replicate 32 0 ++ b).drop b.length
  sha256_size b := by
    rw [List.length_drop, List.length_append, List.length_replicate]
    omega
  marshal m := .ok (UInt8.ofNat m.version :: UInt8.ofInt m.occurredAt.nanos :: m.encryptionKeyRefs)

/-! ### Verification accepts exactly the valid chains -/

/-- The serialisation of a message, empty when it cannot be serialised. -/
def marshalled (m : EnvelopeV1) : Bytes :=
  match H.marshal m with
  | .ok b => b
  | .error _ => []

/-- The chain of a stream's envelopes. -/
def chainScheme : HashChain.Scheme Envelope EnvelopeV1 Bytes where
  covered := hashSubset
  stored := Envelope.hash
  link prev m := H.sha256 (prev ++ marshalled H m)
  root := zeroHash

/-- Every envelope of the list serialises. -/
def Marshals (envs : List Envelope) : Prop := ∀ e ∈ envs, ∃ b, H.marshal (hashSubset e) = .ok b

variable {H}

@[simp] theorem length_zeroHash : zeroHash.length = 32 := List.length_replicate

theorem foldl_or_eq_zero {l : Bytes} {d : UInt8} :
    l.foldl (· ||| ·) d = 0 ↔ d = 0 ∧ ∀ x ∈ l, x = 0 := by
  induction l generalizing d with
  | nil => simp
  | cons x xs ih => simp [ih, UInt8.or_eq_zero_iff, and_assoc]

theorem equalHash_iff {a b : Bytes} : equalHash a b = true ↔ a = b := by
  unfold equalHash
  split_ifs with hlen
  · simp only [false_iff]
    rintro rfl
    exact hlen rfl
  · rw [not_not] at hlen
    rw [beq_iff_eq, foldl_or_eq_zero]
    induction a generalizing b with
    | nil => simp [List.length_eq_zero_iff.1 hlen.symm]
    | cons x xs ih =>
      cases b with
      | nil => simp at hlen
      | cons y ys => simp_all

theorem computeChainHash_eq_ok_iff {prev : Bytes} {e : Envelope} {h : Bytes}
    (hp : prev.length = 32) : computeChainHash H prev e = .ok h ↔
      ∃ b, H.marshal (hashSubset e) = .ok b ∧ h = H.sha256 (prev ++ b) := by
  simp only [computeChainHash, canonicalEnvelopeBytes, hp, ne_eq, not_true_eq_false, if_false,
    Except.bind_eq_ok]
  refine exists_congr fun b => and_congr_right fun _ => ?_
  exact ⟨fun h => (Except.ok.inj h).symm, fun h => h ▸ rfl⟩

/-- The digest depends on the hash-covered fields only. -/
theorem computeChainHash_congr {prev : Bytes} {e e' : Envelope} (h : hashSubset e = hashSubset e') :
    computeChainHash H prev e = computeChainHash H prev e' := by
  simp only [computeChainHash, canonicalEnvelopeBytes, h]

/-- A digest is computed from a digest. -/
theorem computeChainHash_size {prev : Bytes} {e : Envelope} {h : Bytes}
    (hc : computeChainHash H prev e = .ok h) : prev.length = 32 ∧ h.length = 32 := by
  by_cases hp : prev.length = 32
  · obtain ⟨b, -, rfl⟩ := (computeChainHash_eq_ok_iff hp).1 hc
    exact ⟨hp, H.sha256_size _⟩
  · simp [computeChainHash, hp] at hc

/-- One round of the verification loop. -/
theorem verifyFrom_cons_eq_ok_iff {prev : Bytes} {e : Envelope} {es : List Envelope} :
    verifyFrom H prev (e :: es) = .ok () ↔
      computeChainHash H prev e = .ok e.hash ∧ verifyFrom H e.hash es = .ok () := by
  simp only [verifyFrom, Except.bind_eq_ok, Except.mapError_eq_ok]
  constructor
  · rintro ⟨got, hgot, h⟩
    split_ifs at h with hg
    exact ⟨equalHash_iff.1 hg ▸ hgot, h⟩
  · rintro ⟨hc, h⟩
    exact ⟨_, hc, by simpa [equalHash_iff.2 rfl] using h⟩

/-- **Verification accepts a list iff it serialises and is a valid chain.** -/
theorem verifyFrom_eq_ok_iff {prev : Bytes} {envs : List Envelope} (hp : prev.length = 32) :
    verifyFrom H prev envs = .ok () ↔ Marshals H envs ∧ (chainScheme H).Valid prev envs := by
  induction envs generalizing prev with
  | nil => simp [verifyFrom, Marshals, HashChain.Scheme.Valid]
  | cons e es ih =>
    rw [verifyFrom_cons_eq_ok_iff, computeChainHash_eq_ok_iff hp]
    simp only [Marshals, List.forall_mem_cons, HashChain.Scheme.Valid]
    constructor
    · rintro ⟨⟨b, hb, hh⟩, hes⟩
      obtain ⟨hm, hv⟩ := (ih (hh ▸ H.sha256_size _)).1 hes
      exact ⟨⟨⟨b, hb⟩, hm⟩, by simp [chainScheme, marshalled, hb, hh], hv⟩
    · rintro ⟨⟨⟨b, hb⟩, hm⟩, hh, hv⟩
      have hh' : e.hash = H.sha256 (prev ++ b) := by simpa [chainScheme, marshalled, hb] using hh
      exact ⟨⟨b, hb, hh'⟩, (ih (hh' ▸ H.sha256_size _)).2 ⟨hm, hv⟩⟩

/-- A list that serialises is accepted or rejected as a broken chain. -/
theorem verifyFrom_ok_or_chainBroken {prev : Bytes} {envs : List Envelope}
    (hp : prev.length = 32) (hm : Marshals H envs) :
    verifyFrom H prev envs = .ok () ∨
      ∃ err, verifyFrom H prev envs = .error err ∧ err.is .chainBroken = true := by
  induction envs generalizing prev with
  | nil => exact Or.inl rfl
  | cons e es ih =>
    obtain ⟨⟨b, hb⟩, hes⟩ := List.forall_mem_cons.1 hm
    have hc : computeChainHash H prev e = .ok (H.sha256 (prev ++ b)) :=
      (computeChainHash_eq_ok_iff hp).2 ⟨b, hb, rfl⟩
    simp only [verifyFrom, hc, Except.mapError, Except.ok_bind]
    split_ifs with hg
    · have hlen : e.hash.length = 32 := equalHash_iff.1 hg ▸ H.sha256_size _
      exact ih hlen hes
    · exact Or.inr ⟨_, rfl, rfl⟩

end EventStore
