import EventStore.Codegen.Fields

/-!
# What `EncryptPII` covers

A text of an event lies in a field of a message, and the options of that field say whether it must
not be stored in plaintext, however deep the message is nested.  `classifyFields` looks at the
fields of the variant itself.

* `carrier` : the field a text lies in.
* `encryptPII_covers_iff` : **the texts of classified fields are all encrypted iff none of them lies
  in a nested message or in a map.**
* `nested_plaintext` : a name in a nested message, which stays as it is.
-/

namespace EventStore

namespace Codegen

open Shred (PIIField PIIEncoder PIIKind Instance Keys Crypto)

/-! ### Where a text lies -/

/-- The field a step of a path goes through. -/
def MessageDesc.step (M : MessageDesc) (st : PathStep) : Option FieldDesc :=
  M.fields.find? fun f => f.goName = st.field ∧ f.label.keyed = st.key.isSome

/-- The field the value at a path lies in. -/
def carrier (S : Schema) : MessageDesc → Path → Option FieldDesc
  | _, [] => none
  | M, [st] => M.step st
  | M, st :: st' :: p =>
    match M.step st with
    | some f =>
      match f.kind with
      | .message name =>
        match S name with
        | some M' => carrier S M' (st' :: p)
        | none => none
      | .bytes | .string | .scalar | .enum => none
    | none => none

/-- The text at the path is carried by a field with an encrypted classification. -/
def Classified (S : Schema) (M : MessageDesc) (p : Path) : Prop :=
  ∃ f, carrier S M p = some f ∧ f.isSubject = false ∧
    isEncryptedClassification f.classification = true ∧ (f.kind = .string ∨ f.kind = .bytes)

/-! ### The methods of a variant -/

section Cover

variable {π R : Type} [DecidableEq π]

/-- `EncryptPII` of a variant, where it has one. -/
def encryptEvent (V : Instance π) (t subject : String) (M : MessageDesc) (e : Event R) :
    EStateM Err (Keys π) (Event R) :=
  match emitPIIMethods R M with
  | none => pure e
  | some enc => enc.encryptPII V t subject e

variable {V : Instance π} {t subject : String} {S : Schema} {M : MessageDesc} {e e' : Event R}
  {k k' : Keys π} {p : Path}

theorem encryptEvent_eq_ok (h : encryptEvent V t subject M e k = .ok e' k') :
    Shred.eachField (PIIField.encrypt V t subject M.goName)
      ((encryptedFields M).map PiiField.method) e k = .ok e' k' := by
  unfold encryptEvent emitPIIMethods at h
  by_cases hpii : (classifyFields M).2 = true
  · rw [if_pos hpii] at h
    dsimp only [PIIEncoder.encryptPII] at h
    split_ifs at h
    · exact h
    · cases h
  · -- without a field to encrypt, the loop has nothing to do
    rw [if_neg hpii] at h
    have hnone : encryptedFields M = [] := by
      refine List.filter_eq_nil_iff.2 fun pf hpf henc => hpii ?_
      refine List.any_eq_true.2 ⟨pf, hpf, ?_⟩
      have : pf.kind = .bytes ∨ pf.kind = .string := by simpa [PiiField.encrypted] using henc
      rcases this with hk | hk <;> simp [hk]
    rw [hnone]
    exact h

/-- A classified text of the variant itself is one of the encrypted fields. -/
theorem Classified.encrypted {n : String} (h : Classified S M (top n)) :
    ∃ pf ∈ encryptedFields M, pf.goName = n := by
  obtain ⟨f, hcar, hsub, hclass, hkind⟩ := h
  have hstep : M.step ⟨n, none⟩ = some f := hcar
  have hf := List.find?_some hstep
  simp only [Option.isSome_none, decide_eq_true_eq] at hf
  refine ⟨f.classify, mem_encryptedFields.2 ⟨f, List.mem_of_find?_eq_some hstep, rfl, ?_⟩, hf.1⟩
  have hsad : f.classification ≠ .sad := by
    intro hsad
    rw [hsad] at hclass
    cases hclass
  have hdesc : f.descKind = f.kind := by
    cases hl : f.label <;> simp_all [FieldDesc.descKind, Label.keyed]
  rcases hkind with hk | hk <;>
    simp [PiiField.encrypted, FieldDesc.classify, FieldDesc.piiKind, hsub, hsad, hclass, hdesc, hk]

/-- **The texts of classified fields are all encrypted iff each of them lies in the variant
itself.** -/
theorem encryptPII_covers_iff (S : Schema) (hG : V.crypto.Faithful)
    (h : encryptEvent V t subject M e k = .ok e' k') :
    (∀ p, Classified S M p → e.text p ≠ [] → e'.text p ≠ e.text p) ↔
      ∀ p, Classified S M p → e.text p ≠ [] → ∃ n, p = top n := by
  have hloop := encryptEvent_eq_ok h
  have hseal := (sealing_of_encrypt (encryptedFields_nodup M) hloop).1
  constructor
  · intro hcover p hp htext
    by_contra htop
    -- the loop writes texts of the variant itself only
    refine hcover p hp htext (hseal.frame.2 p fun f _ hpf => htop ⟨f.goName, hpf⟩)
  · intro hflat p hp htext
    obtain ⟨n, rfl⟩ := hflat p hp htext
    obtain ⟨pf, hpf, rfl⟩ := hp.encrypted
    rcases hseal.mem (encryptedFields_nodup M) hpf with ⟨hempty, -⟩ | ⟨-, s, hs⟩
    · exact absurd hempty htext
    · exact (hs.ne hG).1

end Cover

/-! ### An order with an address -/

namespace Order

/-- `message Address { string street = 1 [PERSONAL]; }` -/
def address : MessageDesc where
  goName := "Address"
  fields := [⟨"Street", "street", .singular, .string, false, "", .personal⟩]
  distinct := by decide

/-- `message OrderPlaced { string name = 1 [PERSONAL]; Address address = 2; }` -/
def placed : MessageDesc where
  goName := "OrderPlaced"
  fields := [⟨"Name", "name", .singular, .string, false, "", .personal⟩,
    ⟨"Address", "address", .singular, .message "Address", false, "", .unspecified⟩]
  distinct := by decide

/-- The message types. -/
def schema : Schema := fun name => if name = "Address" then some address else none

/-- Where the street is. -/
def street : Path := [⟨"Address", none⟩, ⟨"Street", none⟩]

/-- An order with the name and the street given. -/
def order (name road : Bytes) : Event Unit :=
  ⟨fun p => if p = top "Name" then name else if p = street then road else [], ()⟩

theorem compiles : Compiles placed where
  plain _ := by decide
  override _ := by decide
  subject _ := by
    intro f hf
    cases hf

theorem classified_street : Classified schema placed street :=
  ⟨⟨"Street", "street", .singular, .string, false, "", .personal⟩, by decide, rfl, rfl, Or.inl rfl⟩

end Order

/-- An order without a street is encrypted as a whole. -/
theorem order_without_street : ∃ e' k',
    encryptEvent (Shred.Vault.shredder 0) "acme" "o-1" Order.placed (Order.order [65] []) noKeys =
      .ok e' k' ∧
    ∀ p, Classified Order.schema Order.placed p → (Order.order [65] []).text p ≠ [] →
      e'.text p ≠ (Order.order [65] []).text p := by
  obtain ⟨e', k', h⟩ : ∃ e' k', encryptEvent (Shred.Vault.shredder 0) "acme" "o-1" Order.placed
      (Order.order [65] []) noKeys = .ok e' k' := ⟨_, _, rfl⟩
  refine ⟨e', k', h, (encryptPII_covers_iff Order.schema Faithful.vault h).2 fun p _ hp => ?_⟩
  by_cases hname : p = top "Name"
  · exact ⟨"Name", hname⟩
  · simp [Order.order, hname] at hp

/-- **The street of an order stays in plaintext**, and `EncryptPII` returns no error. -/
theorem nested_plaintext : Compiles Order.placed ∧
    Classified Order.schema Order.placed Order.street ∧ ∃ e' k',
    encryptEvent (Shred.Vault.shredder 0) "acme" "o-1" Order.placed (Order.order [65] [66]) noKeys =
      .ok e' k' ∧ e'.text (top "Name") ≠ [65] ∧ e'.text Order.street = [66] := by
  obtain ⟨e', k', h⟩ : ∃ e' k', encryptEvent (Shred.Vault.shredder 0) "acme" "o-1" Order.placed
      (Order.order [65] [66]) noKeys = .ok e' k' := ⟨_, _, rfl⟩
  refine ⟨Order.compiles, Order.classified_street, e', k', h, ?_, ?_⟩
  · cases h
    decide +kernel
  · cases h
    rfl

end Codegen

end EventStore
