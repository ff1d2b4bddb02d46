import EventStore.Es.Chain

/-!
# Tampering with a stream

What `VerifyStreamChain` protects: a list of envelopes that verifies is determined, as far as its
hash-covered fields go, by the last digest it stores, and no edit of it verifies.

The two functions the digests are computed with are idealised on the envelopes in question
(`Ideal`): the serialisation is injective, SHA-256 has no collision among the inputs it gets, and
none of them digests to `ZeroHash`.  That asks less than injectivity on all inputs, which no
function to 32 bytes has.
-/

namespace EventStore

variable (H : Hasher)

/-- The inputs of SHA-256 when a list is verified. -/
def hashInputs (envs : List Envelope) : List Bytes :=
  ((chainScheme H).inputs zeroHash envs).map fun x => x.1 ++ marshalled H x.2

/-- The hash functions behave ideally on the envelopes of the two lists. -/
structure Ideal (L L' : List Envelope) : Prop where
  marshals : ∀ e ∈ L ++ L', ∃ b, H.marshal (hashSubset e) = .ok b
  marshal_inj : ∀ e ∈ L ++ L', ∀ e' ∈ L ++ L',
    H.marshal (hashSubset e) = H.marshal (hashSubset e') → hashSubset e = hashSubset e'
  sha256_inj : ∀ b ∈ hashInputs H L ++ hashInputs H L', ∀ b' ∈ hashInputs H L ++ hashInputs H L',
    H.sha256 b = H.sha256 b' → b = b'
  sha256_ne_zero : ∀ b ∈ hashInputs H L ++ hashInputs H L', H.sha256 b ≠ zeroHash

variable {H} {L L' : List Envelope}

theorem marshal_eq_of_marshalled {m m' : EnvelopeV1} (hm : ∃ b, H.marshal m = .ok b)
    (hm' : ∃ b, H.marshal m' = .ok b) (h : marshalled H m = marshalled H m') :
    H.marshal m = H.marshal m' := by
  obtain ⟨b, hb⟩ := hm
  obtain ⟨b', hb'⟩ := hm'
  simp only [marshalled, hb, hb'] at h
  rw [hb, hb', h]

/-- In a valid chain every digest is linked to 32 bytes. -/
theorem length_of_mem_inputs (hL : (chainScheme H).Valid zeroHash L) {x : Bytes × EnvelopeV1}
    (hx : x ∈ (chainScheme H).inputs zeroHash L) :
    x.1.length = 32 ∧ ∃ e ∈ L, x.2 = hashSubset e := by
  obtain ⟨h₁, h₂⟩ := HashChain.Scheme.mem_inputs hx
  refine ⟨?_, h₂⟩
  rcases h₁ with h₁ | ⟨e, he, h₁⟩
  · rw [h₁, length_zeroHash]
  · obtain ⟨q, c, hqc⟩ := hL.exists_link he
    rw [h₁, hqc]
    exact H.sha256_size _

/-- Two chains that are valid hash inputs that bind. -/
theorem Ideal.binding (h : Ideal H L L') (hL : (chainScheme H).Valid zeroHash L)
    (hL' : (chainScheme H).Valid zeroHash L') : (chainScheme H).Binding
      {x | x ∈ (chainScheme H).inputs zeroHash L ∨ x ∈ (chainScheme H).inputs zeroHash L'} := by
  have hin : ∀ x, x ∈ (chainScheme H).inputs zeroHash L ∨ x ∈ (chainScheme H).inputs zeroHash L' →
      x.1 ++ marshalled H x.2 ∈ hashInputs H L ++ hashInputs H L' := fun x hx =>
    List.mem_append.2 (hx.imp (fun h => List.mem_map.2 ⟨x, h, rfl⟩)
      fun h => List.mem_map.2 ⟨x, h, rfl⟩)
  -- a valid chain hashes 32 bytes followed by the encoding of one of its envelopes
  have hsub : ∀ x, x ∈ (chainScheme H).inputs zeroHash L ∨ x ∈ (chainScheme H).inputs zeroHash L' →
      x.1.length = 32 ∧ ∃ e ∈ L ++ L', x.2 = hashSubset e := by
    rintro x (hx | hx)
    · obtain ⟨hlen, e, he, hxe⟩ := length_of_mem_inputs hL hx
      exact ⟨hlen, e, List.mem_append_left _ he, hxe⟩
    · obtain ⟨hlen, e, he, hxe⟩ := length_of_mem_inputs hL' hx
      exact ⟨hlen, e, List.mem_append_right _ he, hxe⟩
  constructor
  · intro x hx y hy hxy
    obtain ⟨hlx, e, he, hxe⟩ := hsub x hx
    obtain ⟨hly, e', he', hye⟩ := hsub y hy
    -- equal digests have equal inputs, and the inputs split after 32 bytes
    obtain ⟨h₁, h₂⟩ := List.append_inj (h.sha256_inj _ (hin x hx) _ (hin y hy) hxy)
      (hlx.trans hly.symm)
    rw [hxe, hye] at h₂
    have h₃ := h.marshal_inj e he e' he'
      (marshal_eq_of_marshalled (h.marshals e he) (h.marshals e' he') h₂)
    exact Prod.ext h₁ (by rw [hxe, hye, h₃])
  · exact fun x hx => h.sha256_ne_zero _ (hin x hx)

theorem verifyStreamChain_of_read {store : StreamReader} {sid : StreamID}
    (h : store sid 0 = .ok L) : verifyStreamChain H store sid = verifyFrom H zeroHash L := by
  simp [verifyStreamChain, h]

/-- **A verified stream cannot be tampered with.**  Two lists that verify and end in the same
stored digest agree on every hash-covered field and every stored digest.  Changing covered fields
of a list that verifies, reordering it, inserting before its last event or deleting an event that
is not among the last ones makes `VerifyStreamChain` return `ErrChainBroken`. -/
theorem verifyStreamChain_commits {store store' : StreamReader} {sid sid' : StreamID}
    (hs : store sid 0 = .ok L) (hs' : store' sid' 0 = .ok L') (hid : Ideal H L L')
    (hv : verifyStreamChain H store sid = .ok ()) :
    (verifyStreamChain H store' sid' = .ok () →
      L.getLast?.map Envelope.hash = L'.getLast?.map Envelope.hash →
      L.length = L'.length ∧ L.map hashSubset = L'.map hashSubset ∧
        L.map Envelope.hash = L'.map Envelope.hash) ∧
    ((chainScheme H).Tampered L L' →
      ∃ err, verifyStreamChain H store' sid' = .error err ∧ err.is .chainBroken = true) := by
  rw [verifyStreamChain_of_read hs, verifyFrom_eq_ok_iff length_zeroHash] at hv
  rw [verifyStreamChain_of_read hs']
  have hm' : Marshals H L' := fun e he => hid.marshals e (List.mem_append_right _ he)
  constructor
  · intro hv' hlast
    rw [verifyFrom_eq_ok_iff length_zeroHash] at hv'
    obtain ⟨hc, hh⟩ := HashChain.Scheme.agree_of_tip_eq hv.2 hv'.2 (hid.binding hv.2 hv'.2)
      (HashChain.Scheme.tip_eq_of_getLast? hlast)
    exact ⟨by simpa using congrArg List.length hc, hc, hh⟩
  · intro ht
    refine (verifyFrom_ok_or_chainBroken length_zeroHash hm').resolve_left fun hv' => ?_
    rw [verifyFrom_eq_ok_iff length_zeroHash] at hv'
    exact HashChain.Scheme.not_valid_of_tampered hv.2 ht (hid.binding hv.2) hv'.2

/-- An envelope with nothing but a version and a digest. -/
def Envelope.bare (version : ℕ) (hash : Bytes) : Envelope where
  eventID := ⟨""⟩
  tenantID := "acme"
  streamID := ⟨"acme", "order", "1"⟩
  version := version
  globalPosition := version
  typeURL := ""
  schemaVersion := 1
  occurredAt := 0
  recordedAt := 0
  correlationID := ⟨""⟩
  causationID := ⟨""⟩
  commandID := ⟨""⟩
  actor := .zero
  payload := []
  payloadJSON := none
  keyRefs := none
  hash := hash
  prevHash := []

/-- Two events that verify are swapped. -/
theorem verifyStreamChain_commits_swap :
    let h₁ := Hasher.small.sha256 (zeroHash ++ [1, 0])
    let h₂ := Hasher.small.sha256 (h₁ ++ [2, 0])
    let L := [Envelope.bare 1 h₁, .bare 2 h₂]
    let L' := [Envelope.bare 2 h₂, .bare 1 h₁]
    verifyStreamChain .small (fakeStreamReader L) ⟨"acme", "order", "1"⟩ = .ok () ∧
      ∃ err, verifyStreamChain .small (fakeStreamReader L') ⟨"acme", "order", "1"⟩ = .error err ∧
        err.is .chainBroken = true := by
  intro h₁ h₂ L L'
  have hv : verifyStreamChain .small (fakeStreamReader L) ⟨"acme", "order", "1"⟩ = .ok () := by
    decide +kernel
  have hid : Ideal .small L L' :=
    ⟨fun _ _ => ⟨_, rfl⟩, by decide +kernel, by decide +kernel, by decide +kernel⟩
  have hne : L' ≠ L := fun he => absurd (congrArg (List.map Envelope.version) he) (by decide)
  exact ⟨hv, (verifyStreamChain_commits rfl rfl hid hv).2 (.reordered (List.Perm.swap ..) hne)⟩

end EventStore
