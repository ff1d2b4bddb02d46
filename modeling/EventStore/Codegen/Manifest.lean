import EventStore.Codegen.Wiring

/-!
# The PII manifest

`emitPIIManifest` writes, for each field of an event and of a state, how it is stored
(`manifestAttrs`).  The attribute comes from `classifyFields` alone.  An event goes through the
methods that were written from the same classification; a state is encoded as it is, for the row of
`state_cache` (ADR 0024).

* `EventFaithful`, `StateFaithful` : the entry of a field says what is stored.
* `manifest_faithful_iff` : **an entry for an event is right unless another field makes the event
  be refused, and an entry for a state is right if and only if it says that nothing is encrypted.**
-/

namespace EventStore

namespace Codegen

open Shred (PIIField PIIEncoder PIIKind Instance Keys)

/-! ### The entries -/

/-- The attribute `encryption`. -/
inductive Encryption where
  | none
  | subjectBytes
  | subjectStringBase64
  | rejectedSAD
  deriving DecidableEq

/-- The text of the attribute. -/
def Encryption.text : Encryption → String
  | .none => "none"
  | .subjectBytes => "subject_bytes"
  | .subjectStringBase64 => "subject_string_base64"
  | .rejectedSAD => "rejected_sad"

/-- `DataClassification.String`. -/
def DataClassification.text : DataClassification → String
  | .unspecified => "DATA_CLASSIFICATION_UNSPECIFIED"
  | .pub => "DATA_CLASSIFICATION_PUBLIC"
  | .internal => "DATA_CLASSIFICATION_INTERNAL"
  | .personal => "DATA_CLASSIFICATION_PERSONAL"
  | .quasiIdentifier => "DATA_CLASSIFICATION_QUASI_IDENTIFIER"
  | .sensitive => "DATA_CLASSIFICATION_SENSITIVE"
  | .financial => "DATA_CLASSIFICATION_FINANCIAL"
  | .cardholder => "DATA_CLASSIFICATION_CARDHOLDER"
  | .sad => "DATA_CLASSIFICATION_SAD"
  | .credential => "DATA_CLASSIFICATION_CREDENTIAL"
  | .unstructured => "DATA_CLASSIFICATION_UNSTRUCTURED"

/-- The `switch` of `manifestAttrs` over the kind. -/
def PiiKind.encryption : PiiKind → Encryption
  | .none => .none
  | .bytes => .subjectBytes
  | .string => .subjectStringBase64
  | .rejected => .rejectedSAD

/-- The entry of a field, before it is written as JSON. -/
structure ManifestEntry where
  name : String
  protoType : String
  classification : String
  encryption : Encryption
  dsarExport : Bool
  auditOnRead : Bool
  retention : String
  subjectOverride : String
  deriving DecidableEq

/-- `manifestAttrs`. -/
def manifestAttrs (pf : PiiField) (protoType : String) : ManifestEntry where
  name := pf.protoName
  protoType := protoType
  classification :=
    if pf.isSubject then "DATA_CLASSIFICATION_SUBJECT_FIELD" else pf.classification.text
  encryption := pf.kind.encryption
  dsarExport := pf.isSubject || pf.classification ∉ [.internal, .credential, .sad]
  auditOnRead := !pf.isSubject && pf.classification ∈ [.sensitive, .cardholder, .credential]
  retention :=
    if pf.isSubject then "standard"
    else
      match pf.classification with
      | .sensitive => "shorter"
      | .financial => "tax_locked"
      | .cardholder => "pci_scope"
      | _ => "standard"
  subjectOverride := pf.subjectField

/-- The attribute in the entry of a field. -/
def FieldDesc.encryption (f : FieldDesc) (protoType : String) : Encryption :=
  (manifestAttrs f.classify protoType).encryption

/-! ### What is stored -/

section Stored

variable {π R Q C : Type} [DecidableEq π]

/-- The way leads into the field. -/
def Under (f : FieldDesc) (p : Path) : Prop := p.head?.map PathStep.field = some f.goName

/-- The field of the message `e` is stored in `e'` as the attribute says, for the tenant `t` and the
keys `k`. -/
def StoredAs (V : Instance π) (t : String) (k : Keys π) (f : FieldDesc) :
    Encryption → Event R → Event R → Prop
  | .none, e, e' => ∀ p, Under f p → e'.text p = e.text p
  | .subjectBytes, e, e' => e.text (top f.goName) ≠ [] →
    ∃ s, FieldSealed V t k .bytes s (e.text (top f.goName)) (e'.text (top f.goName))
  | .subjectStringBase64, e, e' => e.text (top f.goName) ≠ [] →
    ∃ s, FieldSealed V t k .string s (e.text (top f.goName)) (e'.text (top f.goName))
  | .rejectedSAD, _, _ => False

variable (R) in
/-- Every message of the type is refused for its fields of the class SAD. -/
def Refused (V : Instance π) (M : MessageDesc) : Prop :=
  ∃ enc, emitPIIMethods R M = some enc ∧ ∀ t subject (e : Event R) k,
    encryptEvent V t subject M e k = .error enc.sadError k

variable (R) in
/-- The entry of a field of an event says what a runtime with a shredder stores. -/
structure EventFaithful (V : Instance π) (M : MessageDesc) (f : FieldDesc) (protoType : String) :
    Prop where
  refused : f.encryption protoType = .rejectedSAD ↔ Refused R V M
  stored : ∀ t subject (e e' : Event R) k k', encryptEvent V t subject M e k = .ok e' k' →
    StoredAs V t k' f (f.encryption protoType) e e'

/-- The entry of a field of a state says what a runtime with a state codec stores. -/
def StateFaithful (V : Instance π) (rt : Runtime (Keys π) (Event Q) C (Event R))
    (sc : StateCodec (Event Q)) (f : FieldDesc) (protoType : String) : Prop :=
  ∀ sid v events cs st p b st', rt.appendParams sid v events cs st = .ok p →
    p.newStateBytes = some b → sc.decode b = .ok st' →
      ∃ t k, StoredAs V t k f (f.encryption protoType) st st'

/-- The codec reads back the texts of the fields it wrote, and it can write a value of the field. -/
structure StateReads (M : MessageDesc) (sc : StateCodec (Event Q)) (f : FieldDesc) : Prop where
  back : ∀ st b url, sc.encode st = .ok (some b, url) → ∃ st', sc.decode b = .ok st' ∧
    ∀ g ∈ M.fields, ∀ p, Under g p → st'.text p = st.text p
  writes : ∃ st b url, st.text (top f.goName) ≠ [] ∧ sc.encode st = .ok (some b, url)

variable {V : Instance π} {M : MessageDesc} {f : FieldDesc} {protoType : String}

theorem encryption_eq (f : FieldDesc) (protoType : String) :
    f.encryption protoType = f.piiKind.encryption := rfl

/-! ### Events -/

theorem piiKind_eq_rejected :
    f.piiKind = .rejected ↔ f.classification = .sad ∧ f.isSubject = false := by
  unfold FieldDesc.piiKind
  cases f.isSubject with
  | true => simp
  | false =>
    by_cases hsad : f.classification = .sad
    · simp [hsad]
    · simp only [Bool.false_eq_true, if_false, if_neg hsad]
      split_ifs
      · cases f.descKind <;> simp [hsad]
      · simp [hsad]

/-- A loop over fields without texts. -/
theorem eachField_empty {t subject name : String} {k : Keys π} {e : Event R}
    (h : ∀ p, e.text p = []) (fs : List PiiField) :
    Shred.eachField (PIIField.encrypt V t subject name) (fs.map PiiField.method) e k =
      .ok e k := by
  induction fs with
  | nil => rfl
  | cons g fs ih =>
    exact Shred.eachField_cons_eq_ok.2
      ⟨e, k, Shred.encrypt_eq_ok.2 (.inl ⟨h (top g.goName), rfl, rfl⟩), ih⟩

/-- The messages that are refused are those of the types with such a field. -/
theorem refused_iff [Nonempty R] :
    Refused R V M ↔ ∃ g ∈ M.fields, g.piiKind = .rejected := by
  constructor
  · rintro ⟨enc, henc, h⟩
    by_contra hnone
    push Not at hnone
    -- a message without texts goes through
    obtain ⟨r⟩ := ‹Nonempty R›
    have hrun := h "" "" (⟨fun _ => [], r⟩ : Event R) ⟨fun _ _ => none, fun _ _ => none, fun _ => 0⟩
    have hsad : enc.sad = [] := by
      unfold emitPIIMethods at henc
      split_ifs at henc
      obtain rfl := Option.some.inj henc
      refine List.map_eq_nil_iff.2 (List.filter_eq_nil_iff.2 fun pf hpf => ?_)
      obtain ⟨g, hg, rfl⟩ := List.mem_map.1 hpf
      rw [Bool.not_eq_true]
      exact decide_eq_false (hnone g hg)
    rw [encryptEvent, henc] at hrun
    dsimp only [PIIEncoder.encryptPII] at hrun
    rw [if_pos hsad] at hrun
    unfold emitPIIMethods at henc
    split_ifs at henc
    obtain rfl := Option.some.inj henc
    rw [eachField_empty fun _ => rfl] at hrun
    cases hrun
  · rintro ⟨g, hg, hkind⟩
    obtain ⟨hclass, hsubject⟩ := piiKind_eq_rejected.1 hkind
    obtain ⟨enc, henc⟩ := exists_methods (R := R) hg hclass hsubject
    refine ⟨enc, henc, fun t subject e k => ?_⟩
    rw [encryptEvent, henc]
    dsimp only [PIIEncoder.encryptPII]
    rw [if_neg (sad_ne_nil henc hg hclass hsubject)]
    rfl

/-- An event that is stored has its fields as the entries say. -/
theorem storedAs_of_encryptEvent (hf : f ∈ M.fields) (hkind : f.piiKind ≠ .rejected)
    {t subject : String} {e e' : Event R} {k k' : Keys π}
    (h : encryptEvent V t subject M e k = .ok e' k') :
    StoredAs V t k' f (f.encryption protoType) e e' := by
  have hnd := encryptedFields_nodup M
  have hseal := (sealing_of_encrypt hnd (encryptEvent_eq_ok h)).1
  have hmem : f.classify.encrypted = true → f.classify ∈ encryptedFields M := fun henc =>
    mem_encryptedFields.2 ⟨f, hf, rfl, henc⟩
  rw [encryption_eq]
  cases hk : f.piiKind with
  | none =>
    -- none of the fields the loop writes
    intro p hp
    refine hseal.frame.2 p fun pf hpf htop => ?_
    obtain ⟨g, hg, rfl, henc⟩ := mem_encryptedFields.1 hpf
    have hname : g.goName = f.goName := by simpa [Under, htop, top, FieldDesc.classify] using hp
    obtain rfl : g = f := eq_of_goName hg hf hname
    simp [PiiField.encrypted, FieldDesc.classify, hk] at henc
  | bytes =>
    have hmethod : (f.classify.method (R := R)).kind = .bytes := by
      simp [PiiField.method, FieldDesc.classify, hk]
    intro htext
    rcases hseal.mem hnd (hmem (by simp [PiiField.encrypted, FieldDesc.classify, hk])) with
      ⟨hempty, -⟩ | ⟨-, hs⟩
    · exact absurd hempty htext
    · rwa [hmethod] at hs
  | string =>
    have hmethod : (f.classify.method (R := R)).kind = .string := by
      simp [PiiField.method, FieldDesc.classify, hk]
    intro htext
    rcases hseal.mem hnd (hmem (by simp [PiiField.encrypted, FieldDesc.classify, hk])) with
      ⟨hempty, -⟩ | ⟨-, hs⟩
    · exact absurd hempty htext
    · rwa [hmethod] at hs
  | rejected => exact absurd hk hkind

theorem eventFaithful_iff [Nonempty R] (hf : f ∈ M.fields) : EventFaithful R V M f protoType ↔
    f.piiKind = .rejected ∨ ∀ g ∈ M.fields, g.piiKind ≠ .rejected := by
  have hrejected : f.encryption protoType = .rejectedSAD ↔ f.piiKind = .rejected := by
    rw [encryption_eq]
    cases f.piiKind <;> simp [PiiKind.encryption]
  constructor
  · intro h
    by_cases hkind : f.piiKind = .rejected
    · exact .inl hkind
    · refine .inr fun g hg hg' => hkind (hrejected.1 (h.refused.2 ?_))
      exact refused_iff.2 ⟨g, hg, hg'⟩
  · intro h
    refine ⟨?_, fun t subject e e' k k' hrun => ?_⟩
    · rw [hrejected, refused_iff]
      refine ⟨fun hkind => ⟨f, hf, hkind⟩, ?_⟩
      rintro ⟨g, hg, hg'⟩
      exact h.resolve_right fun hnone => hnone g hg hg'
    · by_cases hkind : f.piiKind = .rejected
      · -- nothing of such a type is stored
        obtain ⟨enc, -, hall⟩ := (refused_iff (R := R) (V := V)).2 ⟨f, hf, hkind⟩
        rw [hall] at hrun
        cases hrun
      · exact storedAs_of_encryptEvent hf hkind hrun

/-! ### States -/

omit [DecidableEq π] in
theorem stateFaithful_iff (hG : V.crypto.Faithful)
    {rt : Runtime (Keys π) (Event Q) C (Event R)} {sc : StateCodec (Event Q)}
    (hsc : rt.stateCodec = some sc) (hf : f ∈ M.fields) (hreads : StateReads M sc f) :
    StateFaithful V rt sc f protoType ↔ f.piiKind = .none := by
  constructor
  · intro h
    obtain ⟨st, b, url, htext, henc⟩ := hreads.writes
    obtain ⟨st', hdec, hback⟩ := hreads.back st b url henc
    have hsame : st'.text (top f.goName) = st.text (top f.goName) := hback f hf _ rfl
    have hparams : rt.appendParams ⟨"", "", ""⟩ 0 [] [] st =
        .ok ⟨⟨"", "", ""⟩, 0, [], [], some b, url, rt.schema, rt.decider.terminal st⟩ := by
      rw [Runtime.appendParams, hsc]
      dsimp only
      rw [henc]
      rfl
    obtain ⟨t, k, hstored⟩ := h _ _ _ _ st _ b st' hparams rfl hdec
    rw [encryption_eq] at hstored
    cases hk : f.piiKind with
    | none => rfl
    | bytes =>
      rw [hk] at hstored
      obtain ⟨s, hs⟩ := hstored htext
      exact absurd hsame (hs.ne hG).1
    | string =>
      rw [hk] at hstored
      obtain ⟨s, hs⟩ := hstored htext
      exact absurd hsame (hs.ne hG).1
    | rejected =>
      rw [hk] at hstored
      exact hstored.elim
  · intro hk sid v events cs st p b st' hparams hb hdec
    obtain ⟨-, -, -, -, hnone | ⟨sc', hsc', henc, -⟩⟩ := Runtime.appendParams_ok hparams
    · rw [hsc] at hnone
      cases hnone.1
    · obtain rfl : sc' = sc := Option.some.inj (hsc'.symm.trans hsc)
      rw [hb] at henc
      obtain ⟨st₁, hdec₁, hback⟩ := hreads.back st b _ henc
      obtain rfl : st₁ = st' := Except.ok.inj (hdec₁.symm.trans hdec)
      refine ⟨"", ⟨fun _ _ => none, fun _ _ => none, fun _ => 0⟩, ?_⟩
      rw [encryption_eq, hk]
      exact hback f hf

end Stored

/-! ### A guest in the cache -/

namespace Guest

/-- The name of the guest is all there is to write. -/
def stateCodec : StateCodec (Event Unit) where
  encode st := .ok (some (st.text (top "Name")), "checkout.v1.Guest")
  decode b := .ok ⟨fun p => if p = top "Name" then b else [], ()⟩

/-- A runtime with a shredder and a state codec. -/
def runtime : Runtime (Keys (Fin 3)) (Event Unit) (Event Bool) (Event Bool) where
  decider := ⟨⟨fun _ => [], ()⟩, fun _ e => .ok ([e], []), fun _ e => ⟨e.text, ()⟩, none⟩
  codec := Checkout.codec
  stateCodec := some stateCodec
  stateSchemaVersion := 0
  shredder := some (Shred.Vault.one.shredder (methods Checkout.variant))

/-- The field `name` of the state. -/
def name : FieldDesc := ⟨"Name", "name", .singular, .string, false, "", .personal⟩

end Guest

end Codegen

end EventStore
