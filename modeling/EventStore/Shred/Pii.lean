import EventStore.Aggregate.Runtime
import EventStore.Shred.Keys

/-!
# Encrypted fields of events

The methods `protoc-gen-es-go` generates for the events that have encrypted fields.  `EncryptPII`
and `DecryptPII` go through the fields one after the other.  A field belongs to the subject that
the event names, or to one of its own; empty fields are left alone; and a field whose subject has
been shredded is set to its zero value, where any other failure aborts.

`PIIEncoder` is what the generator knows of a variant, and `Instance.shredder` the shredder a
runtime works with.

* `Lawful` : the fields of every variant are written and read one by one.
* `encrypt_eq_ok`, `decrypt_eq_ok` : what happens at one field.
-/

namespace EventStore

namespace Shred

/-- How an encrypted field is represented. -/
inductive PIIKind where
  /-- Raw ciphertext in a `bytes` field. -/
  | bytes
  /-- Ciphertext in base64 in a `string` field. -/
  | string
  deriving DecidableEq

/-- The ciphertext as the value of a field. -/
def PIIKind.wrap (G : Crypto) : PIIKind → Bytes → Bytes
  | .bytes, b => b
  | .string, b => G.encode64 b

/-- The ciphertext a field holds. -/
def PIIKind.unwrap (G : Crypto) : PIIKind → Bytes → Except Err Bytes
  | .bytes, b => .ok b
  | .string, b => G.decode64 b

/-- An encrypted field of an event.  A text is given by its bytes. -/
structure PIIField (E : Type) where
  /-- Its name in the proto file. -/
  name : String
  kind : PIIKind
  get : E → Bytes
  set : E → Bytes → E
  /-- The subject the option `es.v1.subject` names, if the field has it. -/
  subject : E → Option String

/-- What the generator knows of a variant with encrypted fields. -/
structure PIIEncoder (E : Type) where
  /-- The Go name of the variant. -/
  name : String
  /-- `Subject()`. -/
  subject : E → String
  fields : List (PIIField E)
  /-- The fields of the class SAD, which must not be stored. -/
  sad : List String

/-- The subject of a field, where `subject` is that of the event. -/
def PIIField.owner {E : Type} (f : PIIField E) (subject : String) (e : E) : String :=
  (f.subject e).getD subject

/-- The result of `DecryptField` as the value of the field: nothing for `ErrShredded`. -/
def orRedact {K : Type} (x : EStateM Err K Bytes) : EStateM Err K Bytes := fun k =>
  match x k with
  | .ok pt k' => .ok pt k'
  | .error e k' => if e.is .shredded then .ok [] k' else .error e k'

section Methods

variable {π E : Type} [DecidableEq π] (V : Instance π) (tenant subject : String)

/-- `EncryptPII` at one field. -/
def PIIField.encrypt (name : String) (f : PIIField E) (e : E) : EStateM Err (Keys π) E :=
  if f.get e = [] then pure e
  else do
    let field := f.name
    let sealed ← EStateM.adaptExcept (.wrap s!"{name}.EncryptPII {field}")
      (V.encryptField tenant (f.owner subject e) (f.get e))
    return f.set e (f.kind.wrap V.crypto sealed)

/-- `DecryptPII` at one field. -/
def PIIField.decrypt (name : String) (f : PIIField E) (e : E) : EStateM Err (Keys π) E :=
  if f.get e = [] then pure e
  else do
    let field := f.name
    let sealed ← EStateM.ofExcept ((f.kind.unwrap V.crypto (f.get e)).mapError
      (.wrap s!"{name}.DecryptPII {field} base64"))
    let pt ← EStateM.adaptExcept (.wrap s!"{name}.DecryptPII {field}")
      (orRedact (V.decryptField tenant (f.owner subject e) sealed))
    return f.set e pt

/-- Through the fields, one after the other. -/
def eachField (step : PIIField E → E → EStateM Err (Keys π) E) :
    List (PIIField E) → E → EStateM Err (Keys π) E
  | [], e => pure e
  | f :: fs, e => do
    let e ← step f e
    eachField step fs e

/-- The error for a variant with fields of the class SAD. -/
def PIIEncoder.sadError (enc : PIIEncoder E) : Err :=
  let name := enc.name
  let names := enc.sad
  .text s!"SAD MUST NOT be persisted: {name} contains DATA_CLASSIFICATION_SAD field(s) {names}"

/-- `EncryptPII`. -/
def PIIEncoder.encryptPII (enc : PIIEncoder E) (e : E) : EStateM Err (Keys π) E :=
  if enc.sad = [] then
    eachField (PIIField.encrypt V tenant subject enc.name) enc.fields e
  else throw enc.sadError

/-- `DecryptPII`. -/
def PIIEncoder.decryptPII (enc : PIIEncoder E) (e : E) : EStateM Err (Keys π) E :=
  if enc.sad = [] then
    eachField (PIIField.decrypt V tenant subject enc.name) enc.fields e
  else throw enc.sadError

/-- The shredder of a runtime whose events have the generated methods `P`. -/
def Instance.shredder (P : E → Option (PIIEncoder E)) : Shredder (Keys π) E where
  subject e := (P e).map fun enc => enc.subject e
  encryptPII tenant subject e :=
    match P e with
    | none => pure e
    | some enc => enc.encryptPII V tenant subject e
  decryptPII tenant subject e :=
    match P e with
    | none => pure e
    | some enc => enc.decryptPII V tenant subject e

/-- The subject of an event of the stream. -/
def PIIEncoder.subjectIn (enc : PIIEncoder E) (sid : StreamID) (e : E) : String :=
  if enc.subject e = "" then sid.id else enc.subject e

variable {V} in
theorem shredder_encrypt (P : E → Option (PIIEncoder E)) (sid : StreamID) (e : E) :
    (V.shredder P).encrypt sid e = match P e with
      | none => pure e
      | some enc => enc.encryptPII V sid.tenant (enc.subjectIn sid e) e := by
  cases h : P e <;> simp [Shredder.encrypt, Instance.shredder, h, PIIEncoder.subjectIn]

variable {V} in
theorem shredder_decrypt (P : E → Option (PIIEncoder E)) (sid : StreamID) (e : E) :
    (V.shredder P).decrypt sid e = match P e with
      | none => pure e
      | some enc => enc.decryptPII V sid.tenant (enc.subjectIn sid e) e := by
  cases h : P e <;> simp [Shredder.decrypt, Instance.shredder, h, PIIEncoder.subjectIn]

end Methods

/-! ### Redaction -/

section Redact

variable {E : Type}

/-- Writing either of two fields leaves the other alone, in the events of a variant. -/
structure PIIField.Apart (on : E → Prop) (f g : PIIField E) : Prop where
  get : ∀ e b, on e → g.get (f.set e b) = g.get e
  get' : ∀ e b, on e → f.get (g.set e b) = f.get e
  comm : ∀ e b c, on e → f.set (g.set e c) b = g.set (f.set e b) c

/-- The fields of a variant are written and read one by one, and the subject of none of them is an
encrypted field itself. -/
structure LawfulFields (on : E → Prop) (fs : List (PIIField E)) : Prop where
  closed : ∀ f ∈ fs, ∀ e b, on e → on (f.set e b)
  get_set : ∀ f ∈ fs, ∀ e b, on e → f.get (f.set e b) = b
  set_get : ∀ f ∈ fs, ∀ e, on e → f.set e (f.get e) = e
  apart : fs.Pairwise (PIIField.Apart on)
  override : ∀ f ∈ fs, ∀ g ∈ fs, ∀ e b, on e → g.subject (f.set e b) = g.subject e

/-- The fields of each variant are lawful, and so is its subject. -/
structure Lawful (P : E → Option (PIIEncoder E)) : Prop where
  fields : ∀ e enc, P e = some enc → LawfulFields (fun e => P e = some enc) enc.fields
  subject : ∀ enc, ∀ f ∈ enc.fields, ∀ e b, P e = some enc → enc.subject (f.set e b) = enc.subject e

end Redact

/-! ### Going through the fields -/

section Loop

variable {π E : Type} [DecidableEq π] {V : Instance π} {on : E → Prop} {t s subject name : String}
  {f : PIIField E} {fs : List (PIIField E)} {e e' : E} {k k' : Keys π}
  {step : PIIField E → E → EStateM Err (Keys π) E}

omit [DecidableEq π] in
theorem eachField_cons_eq_ok : eachField step (f :: fs) e k = .ok e' k' ↔
    ∃ e₁ k₁, step f e k = .ok e₁ k₁ ∧ eachField step fs e₁ k₁ = .ok e' k' := by
  rw [eachField, EStateM.bind_eq_ok]

/-- At a field, a step leaves the event or writes the field. -/
def Writes (step : PIIField E → E → EStateM Err (Keys π) E) : Prop :=
  ∀ f e k e' k', step f e k = .ok e' k' → e' = e ∨ ∃ b, e' = f.set e b

theorem encrypt_eq_ok : f.encrypt V t subject name e k = .ok e' k' ↔
    f.get e = [] ∧ e' = e ∧ k' = k ∨ f.get e ≠ [] ∧ ∃ sealed,
      V.encryptField t (f.owner subject e) (f.get e) k = .ok sealed k' ∧
        e' = f.set e (f.kind.wrap V.crypto sealed) := by
  unfold PIIField.encrypt
  split_ifs with hempty
  · rw [EStateM.pure_eq_ok]
    simp [hempty, eq_comm]
  · simp only [EStateM.bind_eq_ok, EStateM.adaptExcept_eq_ok, EStateM.pure_eq_ok]
    constructor
    · rintro ⟨sealed, k₁, hs, rfl, rfl⟩
      exact Or.inr ⟨hempty, sealed, hs, rfl⟩
    · rintro (⟨h, -⟩ | ⟨-, sealed, hs, rfl⟩)
      · exact absurd h hempty
      · exact ⟨sealed, k', hs, rfl, rfl⟩

theorem decrypt_eq_ok : f.decrypt V t subject name e k = .ok e' k' ↔
    f.get e = [] ∧ e' = e ∧ k' = k ∨ f.get e ≠ [] ∧ ∃ sealed pt,
      f.kind.unwrap V.crypto (f.get e) = .ok sealed ∧
        orRedact (V.decryptField t (f.owner subject e) sealed) k = .ok pt k' ∧
        e' = f.set e pt := by
  unfold PIIField.decrypt
  split_ifs with hempty
  · rw [EStateM.pure_eq_ok]
    simp [hempty, eq_comm]
  · simp only [EStateM.bind_eq_ok, EStateM.adaptExcept_eq_ok, EStateM.pure_eq_ok,
      EStateM.ofExcept_eq_ok, Except.mapError_eq_ok]
    constructor
    · rintro ⟨sealed, _, ⟨hu, rfl⟩, pt, k₁, hs, rfl, rfl⟩
      exact Or.inr ⟨hempty, sealed, pt, hu, hs, rfl⟩
    · rintro (⟨h, -⟩ | ⟨-, sealed, pt, hu, hs, rfl⟩)
      · exact absurd h hempty
      · exact ⟨sealed, k, ⟨hu, rfl⟩, pt, k', hs, rfl, rfl⟩

theorem writes_encrypt : Writes (PIIField.encrypt (E := E) V t subject name) := by
  intro f e k e' k' h
  rcases encrypt_eq_ok.1 h with ⟨-, rfl, -⟩ | ⟨-, sealed, -, rfl⟩
  · exact Or.inl rfl
  · exact Or.inr ⟨_, rfl⟩

theorem writes_decrypt : Writes (PIIField.decrypt (E := E) V t subject name) := by
  intro f e k e' k' h
  rcases decrypt_eq_ok.1 h with ⟨-, rfl, -⟩ | ⟨-, sealed, pt, -, -, rfl⟩
  · exact Or.inl rfl
  · exact Or.inr ⟨_, rfl⟩

end Loop

/-! ### Events -/

section Events

variable {π E : Type} [DecidableEq π] {V : Instance π} {P : E → Option (PIIEncoder E)} {s : String}
  {sid : StreamID} {e e' : E} {k k' : Keys π}

theorem decrypt_shredder_eq_ok {enc : PIIEncoder E} (hP : P e = some enc) :
    (V.shredder P).decrypt sid e k = .ok e' k' ↔ enc.sad = [] ∧
      eachField (PIIField.decrypt V sid.tenant (enc.subjectIn sid e) enc.name) enc.fields e k =
        .ok e' k' := by
  rw [shredder_decrypt, hP]
  simp only [PIIEncoder.decryptPII]
  split_ifs with hsad
  · simp [hsad]
  · simp [hsad]

end Events

end Shred

end EventStore
