import EventStore.Workflow.Bus

/-!
# Envelopes in the journal

`cmdworkflow/codec.go`: the step `read-envelopes` journals its envelopes as gob bytes of a wire
struct, and the subscribers are handed what is decoded from these bytes.  The wire struct has a
field for everything in an envelope but the two hashes.

Gob is a parameter: what is decoded is what was encoded, up to slices that are empty or nil.

* `Gob.decodeEnvelopes_encodeEnvelopes` : what comes back is `Envelope.journaled`, up to that.
* `Gob.faithful_iff` : **the envelopes come back as they are and with the same verdict of the chain
  check, if and only if they are older than the chain.**
-/

namespace EventStore

/-! ### The wire struct -/

/-- `wireEnvelope`. -/
structure WireEnvelope where
  eventID : UUID
  tenantID : String
  streamCanon : String
  streamTenant : String
  streamType : String
  streamRawID : String
  version : ℕ
  globalPosition : ℕ
  typeURL : String
  schemaVersion : UInt32
  occurredAt : Time
  recordedAt : Time
  correlationID : UUID
  causationID : UUID
  commandID : UUID
  actorPrincipal : String
  actorKind : ℤ
  actorOnBehalfOf : String
  actorAPIKeyID : String
  actorAttributes : StringMap
  payload : Bytes
  payloadJSON : Option Bytes
  keyRefs : Option Bytes

/-- An empty slice for a nil one. -/
def WireEnvelope.sparse (w : WireEnvelope) : WireEnvelope :=
  { w with
    payloadJSON := w.payloadJSON.filter (· ≠ [])
    keyRefs := w.keyRefs.filter (· ≠ []) }

/-- The wire struct of an envelope, in the loop of `encodeEnvelopes`. -/
def Envelope.wire (env : Envelope) : WireEnvelope where
  eventID := env.eventID
  tenantID := env.tenantID
  streamCanon := env.streamID.canonical
  streamTenant := env.streamID.tenant
  streamType := env.streamID.type
  streamRawID := env.streamID.id
  version := env.version
  globalPosition := env.globalPosition
  typeURL := env.typeURL
  schemaVersion := env.schemaVersion
  occurredAt := env.occurredAt
  recordedAt := env.recordedAt
  correlationID := env.correlationID
  causationID := env.causationID
  commandID := env.commandID
  actorPrincipal := env.actor.principal
  actorKind := env.actor.kind
  actorOnBehalfOf := env.actor.onBehalfOf
  actorAPIKeyID := env.actor.apiKeyID
  actorAttributes := env.actor.attributes
  payload := env.payload
  payloadJSON := env.payloadJSON
  keyRefs := env.keyRefs

/-- The envelope of a wire struct, in the loop of `decodeEnvelopes`.  The fields that are not set
are zero. -/
def WireEnvelope.envelope (w : WireEnvelope) : Envelope where
  eventID := w.eventID
  streamID := ⟨w.streamTenant, w.streamType, w.streamRawID⟩
  tenantID := w.tenantID
  version := w.version
  globalPosition := w.globalPosition
  typeURL := w.typeURL
  schemaVersion := w.schemaVersion
  occurredAt := w.occurredAt
  recordedAt := w.recordedAt
  correlationID := w.correlationID
  causationID := w.causationID
  commandID := w.commandID
  actor := ⟨w.actorKind, w.actorPrincipal, w.actorOnBehalfOf, w.actorAPIKeyID, w.actorAttributes⟩
  payload := w.payload
  payloadJSON := w.payloadJSON
  keyRefs := w.keyRefs
  hash := []
  prevHash := []

/-- `encoding/gob` for slices of wire structs. -/
structure Gob (B : Type) where
  encode : List WireEnvelope → B
  decode : B → Except Err (List WireEnvelope)
  /-- Exported fields come back, but an empty slice may come back as nil. -/
  roundTrip : ∀ ws, ∃ ws', decode (encode ws) = .ok ws' ∧
    List.Forall₂ (fun w w' => w'.sparse = w.sparse) ws ws'

/-! ### What comes back -/

/-- An empty slice for a nil one. -/
def Envelope.sparse (env : Envelope) : Envelope :=
  { env with
    payloadJSON := env.payloadJSON.filter (· ≠ [])
    keyRefs := env.keyRefs.filter (· ≠ []) }

/-- The chain check of a subscriber: the digest that is computed from an envelope is the one it
has. -/
def chainCheck (H : Hasher) (env : Envelope) : Except Err Bool :=
  (computeChainHash H env.prevHash env).map (equalHash · env.hash)

theorem Envelope.wire_envelope (env : Envelope) :
    env.wire.sparse.envelope = env.journaled := rfl

theorem WireEnvelope.envelope_sparse (w : WireEnvelope) :
    w.envelope.sparse = w.sparse.envelope := rfl

/-- An envelope comes back unchanged if it has no hashes. -/
theorem Envelope.journaled_eq_sparse_iff {env : Envelope} :
    env.journaled = env.sparse ↔ env.hash = [] ∧ env.prevHash = [] := by
  constructor
  · intro h
    exact ⟨(congrArg Envelope.hash h).symm, (congrArg Envelope.prevHash h).symm⟩
  · rintro ⟨hhash, hprev⟩
    simp [Envelope.journaled, Envelope.sparse, hhash, hprev]

theorem getD_filter_ne_nil (b : Option Bytes) : (b.filter (· ≠ [])).getD [] = b.getD [] := by
  cases b with
  | none => rfl
  | some b =>
    by_cases hb : b = []
    · subst hb
      rfl
    · rw [Option.filter_some, if_pos (by simpa using hb)]

/-- The check does not tell an empty slice from a nil one. -/
theorem chainCheck_sparse (H : Hasher) (env : Envelope) :
    chainCheck H env.sparse = chainCheck H env := by
  have hsubset : hashSubset env.sparse = hashSubset env := by
    simp only [hashSubset, Envelope.sparse, getD_filter_ne_nil]
  unfold chainCheck
  rw [computeChainHash_congr hsubset]
  rfl

/-- The check cannot be made on an envelope from the journal. -/
theorem chainCheck_journaled (H : Hasher) (env : Envelope) : chainCheck H env.journaled =
    .error (.text "eventstore: prev hash must be 32 bytes, got 0") := by
  have hhash : computeChainHash H [] env.journaled =
      .error (.text "eventstore: prev hash must be 32 bytes, got 0") := by
    rw [computeChainHash, if_pos (by decide)]
    decide +kernel
  rw [chainCheck, show env.journaled.prevHash = [] from rfl, hhash]
  rfl

/-- A relation between two lists that says something of the elements of the first. -/
theorem forall₂_iff_forall_mem {α β : Type} {R P : α → β → Prop} {Q : α → Prop} {xs : List α}
    {ys : List β} (h : List.Forall₂ R xs ys) (hPQ : ∀ x y, R x y → (P x y ↔ Q x)) :
    List.Forall₂ P xs ys ↔ ∀ x ∈ xs, Q x := by
  induction h with
  | nil => simp
  | cons hxy _ ih => rw [List.forall₂_cons, List.forall_mem_cons, hPQ _ _ hxy, ih]

namespace Gob

variable {B : Type} (G : Gob B)

/-- `encodeEnvelopes`. -/
def encodeEnvelopes (envs : List Envelope) : B := G.encode (envs.map Envelope.wire)

/-- `decodeEnvelopes`. -/
def decodeEnvelopes (b : B) : Except Err (List Envelope) :=
  (G.decode b).map (List.map WireEnvelope.envelope)

/-- The envelopes come back as they are, up to nil slices, and the chain check has the same verdict
on them. -/
def Faithful (H : Hasher) (envs : List Envelope) : Prop :=
  ∃ envs', G.decodeEnvelopes (G.encodeEnvelopes envs) = .ok envs' ∧
    List.Forall₂ (fun e e' => e'.sparse = e.sparse ∧ chainCheck H e' = chainCheck H e) envs envs'

/-- What comes back has everything but the hashes. -/
theorem decodeEnvelopes_encodeEnvelopes (envs : List Envelope) :
    ∃ envs', G.decodeEnvelopes (G.encodeEnvelopes envs) = .ok envs' ∧
      List.Forall₂ (fun e e' => e'.sparse = e.journaled) envs envs' := by
  obtain ⟨ws, hws, hsame⟩ := G.roundTrip (envs.map Envelope.wire)
  refine ⟨ws.map WireEnvelope.envelope, ?_, ?_⟩
  · rw [decodeEnvelopes, encodeEnvelopes, hws]
    rfl
  · refine List.forall₂_map_right_iff.2 ((List.forall₂_map_left_iff.1 hsame).imp fun e w hw => ?_)
    rw [w.envelope_sparse, hw, e.wire_envelope]

/-- **The journal is faithful to envelopes without hashes, and to no others.** -/
theorem faithful_iff (H : Hasher) (envs : List Envelope) :
    G.Faithful H envs ↔ ∀ e ∈ envs, e.hash = [] ∧ e.prevHash = [] := by
  have hone : ∀ e e' : Envelope, e'.sparse = e.journaled →
      ((e'.sparse = e.sparse ∧ chainCheck H e' = chainCheck H e) ↔
        e.hash = [] ∧ e.prevHash = []) := by
    intro e e' hback
    rw [hback, Envelope.journaled_eq_sparse_iff]
    refine and_iff_left_of_imp fun hnone => ?_
    rw [← chainCheck_sparse H e', hback, Envelope.journaled_eq_sparse_iff.2 hnone,
      chainCheck_sparse]
  obtain ⟨envs', hdec, hback⟩ := G.decodeEnvelopes_encodeEnvelopes envs
  rw [← forall₂_iff_forall_mem hback hone]
  constructor
  · rintro ⟨envs'', hdec', hsame⟩
    rw [hdec] at hdec'
    cases hdec'
    exact hsame
  · exact fun hsame => ⟨envs', hdec, hsame⟩

/-- Gob that gives nil slices back for empty ones, with the structs themselves for their bytes. -/
def small : Gob (List WireEnvelope) where
  encode ws := ws.map WireEnvelope.sparse
  decode ws := .ok ws
  roundTrip ws := by
    refine ⟨_, rfl, List.forall₂_map_right_iff.2 (List.forall₂_same.2 fun w _ => ?_)⟩
    simp [WireEnvelope.sparse, Option.filter_filter]

end Gob

/-! ### The first note of a journal -/

namespace Journal

/-- An event as it is in the store, with its digest. -/
def chained : Envelope where
  eventID := ⟨"0190a3c4-8d2e-7f10-9b3a-5c6d7e8f9a0b"⟩
  tenantID := "acme"
  streamID := ⟨"acme", "journal", "1"⟩
  version := 1
  globalPosition := 1
  typeURL := "journal.v1.Noted"
  schemaVersion := 1
  occurredAt := 3
  recordedAt := 4
  correlationID := ⟨""⟩
  causationID := ⟨""⟩
  commandID := ⟨""⟩
  actor := .zero
  payload := [5]
  payloadJSON := none
  keyRefs := none
  hash := List.replicate 30 0 ++ [1, 3]
  prevHash := zeroHash

/-- A subscriber finds a digest missing that is right in the store. -/
theorem faithful_chained : chainCheck .small chained = .ok true ∧
    Gob.small.decodeEnvelopes (Gob.small.encodeEnvelopes [chained]) =
      .ok [{ chained with hash := [], prevHash := [] }] ∧
    chainCheck .small { chained with hash := [], prevHash := [] } =
      .error (.text "eventstore: prev hash must be 32 bytes, got 0") ∧
    ¬ Gob.small.Faithful .small [chained] := by
  have hcheck : chainCheck .small chained = .ok true := by decide +kernel
  refine ⟨hcheck, rfl, chainCheck_journaled .small chained, ?_⟩
  rintro ⟨envs, hdec, hsame⟩
  cases hdec
  obtain ⟨⟨-, hverdict⟩, -⟩ := List.forall₂_cons.1 hsame
  rw [hcheck] at hverdict
  cases (chainCheck_journaled .small chained).symm.trans hverdict

end Journal

end EventStore
