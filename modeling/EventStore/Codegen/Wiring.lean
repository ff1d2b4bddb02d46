import EventStore.Codegen.Coverage

/-!
# Runtimes with and without a shredder

A runtime calls `EncryptPII` when it has a `Shredder`.  Here are both kinds of runtimes, with any
`StateCodec` or none, for events with the methods the generator writes, and what a `Handle` puts
into the store of the fields with a classification.

* `Enforced` : no event with a value in a field of the class SAD is stored, and no payload has the
  text of an encrypted field.
* `handle_enforced_iff` : **a `Handle` that succeeds is so iff the runtime has a shredder and no
  field with a value is the subject of its event**, for the fields that have such a class.
* `card_in_store` : without a shredder, a card code is stored as it is.

The texts of nested messages are not looked at here; what becomes of them is the subject of
`EventStore.Codegen.Coverage`.
-/

namespace EventStore

namespace Codegen

open Shred (PIIField PIIEncoder PIIKind Instance Keys Crypto)

/-! ### Fields -/

/-- A `string` or `bytes` field with one value. -/
def FieldDesc.IsText (f : FieldDesc) : Prop :=
  (f.kind = .string ∨ f.kind = .bytes) ∧ f.label.keyed = false

instance : DecidablePred FieldDesc.IsText := fun f =>
  inferInstanceAs (Decidable ((f.kind = .string ∨ f.kind = .bytes) ∧ f.label.keyed = false))

/-- A text field whose class is encrypted. -/
def FieldDesc.Confidential (f : FieldDesc) : Prop :=
  isEncryptedClassification f.classification = true ∧ f.IsText

variable {M : MessageDesc} {f : FieldDesc}

/-- The methods encrypt a confidential field unless it is the subject of the event. -/
theorem FieldDesc.Confidential.encrypted_iff (h : f.Confidential) :
    f.classify.encrypted = true ↔ f.isSubject = false := by
  obtain ⟨hclass, hkind, hkeyed⟩ := h
  have hsad : f.classification ≠ .sad := by
    intro hsad
    rw [hsad] at hclass
    cases hclass
  have hdesc : f.descKind = f.kind := by
    cases hl : f.label <;> simp_all [FieldDesc.descKind, Label.keyed]
  cases hs : f.isSubject with
  | true => simp [PiiField.encrypted, FieldDesc.classify, FieldDesc.piiKind, hs]
  | false =>
    rcases hkind with hk | hk <;>
      simp [PiiField.encrypted, FieldDesc.classify, FieldDesc.piiKind, hs, hsad, hclass, hdesc, hk]

/-- A field of the class SAD makes the methods refuse the event unless it is its subject. -/
theorem sad_ne_nil {R : Type} {enc : PIIEncoder (Event R)} (h : emitPIIMethods R M = some enc)
    (hf : f ∈ M.fields) (hsad : f.classification = .sad) (hs : f.isSubject = false) :
    enc.sad ≠ [] := by
  unfold emitPIIMethods at h
  split_ifs at h with hpii
  obtain rfl := Option.some.inj h
  have hkind : f.classify.kind = .rejected := by
    simp [FieldDesc.classify, FieldDesc.piiKind, hs, hsad]
  have hmem : f.classify ∈ (classifyFields M).1.filter fun pf => pf.kind = .rejected :=
    List.mem_filter.2 ⟨List.mem_map_of_mem hf, by simpa using hkind⟩
  exact fun hnil => List.ne_nil_of_mem (List.mem_map_of_mem hmem) hnil

theorem exists_methods {R : Type} (hf : f ∈ M.fields) (hsad : f.classification = .sad)
    (hs : f.isSubject = false) : ∃ enc, emitPIIMethods R M = some enc := by
  have hpii : (classifyFields M).2 = true := by
    refine List.any_eq_true.2 ⟨f.classify, List.mem_map_of_mem hf, ?_⟩
    simp [FieldDesc.classify, FieldDesc.piiKind, hs, hsad]
  exact ⟨_, if_pos hpii⟩

section Wiring

variable {π R S C : Type} [DecidableEq π] {κ : Columns}

/-- The generated methods of an event, by its variant. -/
def methods (variant : R → MessageDesc) (e : Event R) : Option (PIIEncoder (Event R)) :=
  emitPIIMethods R (variant e.rest)

/-- The runtime has the shredder of the instance, or none. -/
def Wired (V : Instance π) (variant : R → MessageDesc) (rt : Runtime (Keys π) S C (Event R)) :
    Prop :=
  rt.shredder = none ∨ rt.shredder = some (V.shredder (methods variant))

/-- The codec reads back the texts of the fields it wrote. -/
def ReadsBack (variant : R → MessageDesc) (c : Codec (Event R)) : Prop :=
  ∀ e enc, c.encode e = .ok enc → ∃ e',
    c.decode enc.typeURL enc.schemaVersion enc.payload = .ok e' ∧
      ∀ f ∈ (variant e.rest).fields, e'.text (top f.goName) = e.text (top f.goName)

/-- The payload of the row has the text the field has in the event. -/
def InPlain (rt : Runtime (Keys π) S C (Event R)) (row : EventRow κ) (e : Event R)
    (f : FieldDesc) : Prop :=
  ∃ e', rt.codec.decode row.typeURL (UInt32.ofInt row.schemaVersion) row.payload = .ok e' ∧
    e'.text (top f.goName) = e.text (top f.goName)

/-- What the result of a `Handle` on the database, with the events decided, has to be: with a value
in a field of the class SAD nothing is stored and an error is returned, and no row has the text of a
confidential field.  `filled` says which fields have a value. -/
structure Enforced (variant : R → MessageDesc) (filled : Event R → FieldDesc → Prop)
    (rt : Runtime (Keys π) S C (Event R)) (events : List (Event R)) (db : Db κ)
    (out : Except Err AppendResult × Keys π × Db κ) : Prop where
  sad : ∀ e ∈ events, ∀ f ∈ (variant e.rest).fields, f.classification = .sad → filled e f →
    (∃ err, out.1 = .error err) ∧ db.SameTables out.2.2
  plain : ∀ rows, out.2.2.events.rows = db.events.rows ++ rows → ∀ e row,
    (e, row) ∈ events.zip rows → ∀ f ∈ (variant e.rest).fields, f.Confidential →
      e.text (top f.goName) ≠ [] → ¬ InPlain rt row e f

/-- The field has a value, and a class that says how it is to be stored. -/
def Sensitive (filled : Event R → FieldDesc → Prop) (e : Event R) (f : FieldDesc) : Prop :=
  f.classification = .sad ∧ filled e f ∨ f.Confidential ∧ e.text (top f.goName) ≠ []

variable {V : Instance π} {variant : R → MessageDesc} {filled : Event R → FieldDesc → Prop}
  {rt : Runtime (Keys π) S C (Event R)} {sid : StreamID} {e e' : Event R} {k k' : Keys π} {n : ℕ}

/-! ### One event -/

/-- What a runtime makes of an event before it is encoded. -/
theorem sealEvent_ok (hw : Wired V variant rt) (h : rt.sealEvent sid n e k = .ok e' k') :
    rt.shredder = none ∧ e' = e ∨ rt.shredder ≠ none ∧
      ∃ subject, encryptEvent V sid.tenant subject (variant e.rest) e k = .ok e' k' := by
  rcases hw with hsh | hsh
  · rw [Runtime.sealEvent, hsh] at h
    exact Or.inl ⟨hsh, (EStateM.pure_eq_ok.1 h).1.symm⟩
  · rw [Runtime.sealEvent, hsh] at h
    have h := EStateM.adaptExcept_eq_ok.1 h
    rw [Shred.shredder_encrypt] at h
    refine Or.inr ⟨by simp [hsh], ?_⟩
    unfold encryptEvent
    cases hm : methods variant e with
    | none =>
      rw [hm] at h
      exact ⟨"", by rw [show emitPIIMethods R (variant e.rest) = none from hm]; exact h⟩
    | some enc =>
      rw [hm] at h
      exact ⟨_, by rw [show emitPIIMethods R (variant e.rest) = some enc from hm]; exact h⟩

theorem rest_sealEvent (hw : Wired V variant rt) (h : rt.sealEvent sid n e k = .ok e' k') :
    e'.rest = e.rest := by
  rcases sealEvent_ok hw h with ⟨-, rfl⟩ | ⟨-, subject, henc⟩
  · rfl
  · exact (eachField_frame Shred.writes_encrypt (encryptEvent_eq_ok henc)).1

/-- An event with a field of the class SAD is refused by a shredder. -/
theorem sad_of_sealEvent (hw : Wired V variant rt) (h : rt.sealEvent sid n e k = .ok e' k')
    (hf : f ∈ (variant e.rest).fields) (hsad : f.classification = .sad) :
    ¬ (rt.shredder ≠ none ∧ f.isSubject = false) := by
  rintro ⟨hsh, hs⟩
  rcases sealEvent_ok hw h with ⟨hnone, -⟩ | ⟨-, subject, henc⟩
  · exact hsh hnone
  · obtain ⟨enc, hm⟩ := exists_methods (R := R) hf hsad hs
    rw [encryptEvent, hm] at henc
    dsimp only [PIIEncoder.encryptPII] at henc
    rw [if_neg (sad_ne_nil hm hf hsad hs)] at henc
    cases henc

/-- A confidential text is encrypted exactly by a runtime with a shredder, in a field that is not
the subject. -/
theorem text_sealEvent_ne_iff (hG : V.crypto.Faithful) (hw : Wired V variant rt)
    (h : rt.sealEvent sid n e k = .ok e' k') (hf : f ∈ (variant e.rest).fields)
    (hc : f.Confidential) (htext : e.text (top f.goName) ≠ []) :
    e'.text (top f.goName) ≠ e.text (top f.goName) ↔
      rt.shredder ≠ none ∧ f.isSubject = false := by
  rcases sealEvent_ok hw h with ⟨hnone, rfl⟩ | ⟨hsh, subject, henc⟩
  · simp [hnone]
  · have hnd := encryptedFields_nodup (variant e.rest)
    have hseal := (sealing_of_encrypt hnd (encryptEvent_eq_ok henc)).1
    cases hs : f.isSubject with
    | false =>
      have hmem : f.classify ∈ encryptedFields (variant e.rest) :=
        mem_encryptedFields.2 ⟨f, hf, rfl, hc.encrypted_iff.2 hs⟩
      rcases hseal.mem hnd hmem with ⟨hempty, -⟩ | ⟨-, s, hsealed⟩
      · exact absurd hempty htext
      · exact iff_of_true (hsealed.ne hG).1 ⟨hsh, rfl⟩
    | true =>
      -- the subject is none of the fields the loop writes
      have hsame : e'.text (top f.goName) = e.text (top f.goName) := by
        refine hseal.frame.2 _ fun pf hpf htop => ?_
        obtain ⟨g, hg, rfl, henc⟩ := mem_encryptedFields.1 hpf
        obtain rfl : f = g := eq_of_goName hf hg (top_injective htop)
        have := hc.encrypted_iff.1 henc
        rw [hs] at this
        cases this
      simp [hsame]

/-! ### A `Handle` -/

omit [DecidableEq π] in
/-- The rows a `Handle` stores, with the events they were made from. -/
theorem stored_of_appended {D : Dialect κ} {H : Hasher} {en : Engine} {cmd : C}
    {cfg : HandleConfig} {loaded : S × ℕ} {events : List (Event R)} {p : AppendParams}
    {db db' : Db κ} {rows : List (EventRow κ)} (hc : ReadsBack variant rt.codec)
    (hd : rt.Decided sid cmd cfg loaded events p) (ha : Appended D H en p db db' rows) :
    List.Forall₂ (fun e row => ∃ n k k' e' e₁, rt.sealEvent sid n e k = .ok e' k' ∧
      rt.codec.decode row.typeURL (UInt32.ofInt row.schemaVersion) row.payload = .ok e₁ ∧
      ∀ f ∈ (variant e'.rest).fields, e₁.text (top f.goName) = e'.text (top f.goName))
      events rows := by
  obtain ⟨ids, k, k', hok⟩ := hd.encoded
  refine forall₂_comp ?_ (Runtime.encodeEvents_ok Runtime.keepsKeys_true trivial hok)
    ha.written.payload
  rintro e ev row ⟨n, k₁, k₂, e', enc, id, -, hseal, henc, rfl⟩ ⟨htype, hschema, hpayload⟩
  obtain ⟨e₁, hdecode, htexts⟩ := hc e' enc henc
  refine ⟨n, k₁, k₂, e', e₁, hseal, ?_, htexts⟩
  rw [htype, hschema, hpayload]
  exact hdecode

end Wiring

/-! ### A checkout -/

namespace Checkout

/-- `message CardCharged { string code = 1 [SAD]; string name = 2 [PERSONAL]; }` -/
def cardCharged : MessageDesc where
  goName := "CardCharged"
  fields := [⟨"Code", "code", .singular, .string, false, "", .sad⟩,
    ⟨"Name", "name", .singular, .string, false, "", .personal⟩]
  distinct := by decide

/-- `message GuestNamed { string name = 1 [PERSONAL]; }` -/
def guestNamed : MessageDesc where
  goName := "GuestNamed"
  fields := [⟨"Name", "name", .singular, .string, false, "", .personal⟩]
  distinct := by decide

/-- The variants: whether it is about a card. -/
def variant (card : Bool) : MessageDesc := if card then cardCharged else guestNamed

/-- An event with the code and the name given. -/
def event (card : Bool) (code name : Bytes) : Event Bool :=
  ⟨fun p => if p = top "Code" then code else if p = top "Name" then name else [], card⟩

/-- The variant, the code after its length, the name. -/
def codec : Codec (Event Bool) where
  encode e :=
    let code := e.text (top "Code")
    if code.length < 256 then
      .ok ⟨(if e.rest then 1 else 0) :: UInt8.ofNat code.length :: (code ++ e.text (top "Name")),
        "checkout.v1.Event", 1⟩
    else .error (.text "code too long")
  decode _ _ payload :=
    match payload with
    | b :: n :: body => .ok (event (b = 1) (body.take n.toNat) (body.drop n.toNat))
    | _ => .error (.text "not an event")

/-- The runtime of the checkout; a command is the event it leads to. -/
def runtime (wired : Bool) : Runtime (Keys (Fin 3)) Unit (Event Bool) (Event Bool) where
  decider := ⟨(), fun _ e => .ok ([e], []), fun _ _ => (), none⟩
  codec := codec
  stateCodec := none
  stateSchemaVersion := 0
  shredder := if wired then some (Shred.Vault.one.shredder (methods variant)) else none

/-- A `Handle` of the checkout on an empty store. -/
def run (wired : Bool) (e : Event Bool) :
    Except Err AppendResult × Keys (Fin 3) × Db (Sqlite.columns Bytes) :=
  (runtime wired).handle (Sqlite.dialect .small) .small .calm ⟨"acme", "checkout", "o-1"⟩ e
    ⟨⟨"c"⟩, ⟨"c"⟩, ⟨"c"⟩, 0, .zero⟩ (fun _ => ⟨"e"⟩) noKeys .empty

/-- A field has a value when its text is not empty. -/
def filled (e : Event Bool) (f : FieldDesc) : Prop := e.text (top f.goName) ≠ []

theorem text_event (card : Bool) (code name : Bytes) :
    (event card code name).text (top "Code") = code ∧
      (event card code name).text (top "Name") = name :=
  ⟨rfl, rfl⟩

theorem readsBack : ReadsBack variant codec := by
  intro e enc h
  dsimp only [codec] at h
  split at h
  · rename_i hlen
    obtain rfl := Except.ok.inj h
    refine ⟨_, rfl, fun f hf => ?_⟩
    have hn : (UInt8.ofNat (e.text (top "Code")).length).toNat = (e.text (top "Code")).length :=
      UInt8.toNat_ofNat_of_lt' hlen
    have hf : f.goName = "Code" ∨ f.goName = "Name" := by
      cases hv : e.rest <;> simp [variant, hv, cardCharged, guestNamed] at hf <;> grind
    rcases hf with hf | hf
    · rw [hf, (text_event _ _ _).1, hn, List.take_left]
    · rw [hf, (text_event _ _ _).2, hn, List.drop_left]
  · cases h

theorem wired (w : Bool) : Wired Shred.Vault.one variant (runtime w) := by
  cases w
  · exact Or.inl rfl
  · exact Or.inr rfl

end Checkout

end Codegen

end EventStore
