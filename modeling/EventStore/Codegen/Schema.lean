import EventStore.Shred.Pii

/-!
# The generator of the methods for encrypted fields

`protoc-gen-es-go` looks at the fields of an event variant (`classifyFields`) and writes
`EncryptPII` and `DecryptPII` for it (`emitPIIMethods`).  Here are the descriptors it reads, the
events its methods work on, and the methods it writes as a `PIIEncoder`.

The generator refuses no schema.  Whether the code it writes is accepted by the Go compiler is
`Compiles`: a method for a field of a type the field does not have is not.
-/

namespace EventStore

namespace Codegen

open Shred (PIIField PIIEncoder PIIKind)

/-! ### Descriptors -/

/-- `es.v1.DataClassification`. -/
inductive DataClassification where
  | unspecified | pub | internal | personal | quasiIdentifier | sensitive | financial | cardholder
  | sad | credential | unstructured
  deriving DecidableEq

/-- The type of the values of a field. -/
inductive Kind where
  | bytes
  | string
  | message (name : String)
  /-- Numbers and booleans. -/
  | scalar
  | enum
  deriving DecidableEq

/-- How many values a field has. -/
inductive Label where
  | singular
  | optional
  | repeated
  | map
  /-- A variant of a oneof. -/
  | oneof (name : String)
  deriving DecidableEq

/-- The label says whether a value has an index or a key. -/
def Label.keyed : Label → Bool
  | .repeated | .map => true
  | .singular | .optional | .oneof _ => false

/-- A field of a message, with the options of `es.v1`. -/
structure FieldDesc where
  goName : String
  protoName : String
  label : Label
  /-- The type of its values; of a map, that of the values under its keys. -/
  kind : Kind
  /-- `es.v1.subject_field`. -/
  isSubject : Bool
  /-- `es.v1.subject`. -/
  subjectField : String
  /-- `es.v1.data_classification`. -/
  classification : DataClassification
  deriving DecidableEq

/-- `f.Desc.Kind()`; the entries of a map are messages. -/
def FieldDesc.descKind (f : FieldDesc) : Kind :=
  match f.label with
  | .map => .message (f.goName ++ "Entry")
  | .singular | .optional | .repeated | .oneof _ => f.kind

/-- A message type. -/
structure MessageDesc where
  goName : String
  fields : List FieldDesc
  /-- The Go names of the fields are different. -/
  distinct : (fields.map FieldDesc.goName).Nodup

/-- The message types, by their names. -/
abbrev Schema := String → Option MessageDesc

/-! ### Classification -/

/-- `piiKind`. -/
inductive PiiKind where
  | none
  | bytes
  | string
  | rejected
  deriving DecidableEq

/-- `piiField`. -/
structure PiiField where
  goName : String
  protoName : String
  isSubject : Bool
  subjectField : String
  classification : DataClassification
  kind : PiiKind
  deriving DecidableEq

/-- `isEncryptedClassification`. -/
def isEncryptedClassification : DataClassification → Bool
  | .personal | .quasiIdentifier | .sensitive | .financial | .cardholder | .credential
  | .unstructured => true
  | .unspecified | .pub | .internal | .sad => false

/-- How `classifyFields` decides to encrypt a field. -/
def FieldDesc.piiKind (f : FieldDesc) : PiiKind :=
  if f.isSubject then .none
  else if f.classification = .sad then .rejected
  else if isEncryptedClassification f.classification then
    match f.descKind with
    | .bytes => .bytes
    | .string => .string
    | .message _ | .scalar | .enum => .none
  else .none

/-- One field in `classifyFields`. -/
def FieldDesc.classify (f : FieldDesc) : PiiField :=
  ⟨f.goName, f.protoName, f.isSubject, f.subjectField, f.classification, f.piiKind⟩

/-- `classifyFields`: the fields, and whether there is something to encrypt. -/
def classifyFields (M : MessageDesc) : List PiiField × Bool :=
  let fields := M.fields.map FieldDesc.classify
  (fields, fields.any fun pf => pf.kind ≠ .none)

/-! ### Events -/

/-- A field on the way to a value, and the index or key of an element. -/
structure PathStep where
  field : String
  key : Option String
  deriving DecidableEq

/-- The way to a value in an event, through its nested messages. -/
abbrev Path := List PathStep

/-- The value of a field of the event itself. -/
def top (goName : String) : Path := [⟨goName, none⟩]

/-- An event: the texts and bytes in it, empty where there are none, and everything else. -/
structure Event (R : Type) where
  text : Path → Bytes
  rest : R

/-- The event with one text set. -/
def Event.setText {R : Type} (e : Event R) (p : Path) (b : Bytes) : Event R :=
  { e with text := fun q => if q = p then b else e.text q }

/-- A Go string, with one character for each of its bytes. -/
def asText (b : Bytes) : String := String.ofList (b.map fun x => Char.ofNat x.toNat)

/-- The method `Get…` of a text. -/
def Event.getter {R : Type} (e : Event R) (goName : String) : String := asText (e.text (top goName))

/-! ### The methods -/

/-- The loop of `upperGoFieldName`; `upper` is set at the beginning and after an underscore. -/
def camel : Bool → List Char → List Char
  | _, [] => []
  | upper, c :: cs =>
    if c = '_' then camel true cs
    else (if upper ∧ 'a' ≤ c ∧ c ≤ 'z' then Char.ofNat (c.toNat - 32) else c) :: camel false cs

/-- `upperGoFieldName`. -/
def upperGoFieldName (protoName : String) : String := String.ofList (camel true protoName.toList)

namespace PiiField

/-- The fields the methods encrypt. -/
def encrypted (pf : PiiField) : Bool := pf.kind = .bytes ∨ pf.kind = .string

/-- The expression for the subject, for a field with the option `es.v1.subject`. -/
def override {R : Type} (pf : PiiField) (e : Event R) : Option String :=
  if pf.subjectField = "" then none else some (e.getter (upperGoFieldName pf.subjectField))

/-- The code for one encrypted field. -/
def method {R : Type} (pf : PiiField) : PIIField (Event R) where
  name := pf.protoName
  kind := if pf.kind = .bytes then .bytes else .string
  get e := e.text (top pf.goName)
  set e b := e.setText (top pf.goName) b
  subject := pf.override

end PiiField

/-- `Subject()`. -/
def subjectMethod {R : Type} (fields : List PiiField) (e : Event R) : String :=
  match fields.find? PiiField.isSubject with
  | some pf => e.getter pf.goName
  | none => ""

/-- The encrypted fields of a message. -/
def encryptedFields (M : MessageDesc) : List PiiField :=
  (classifyFields M).1.filter PiiField.encrypted

/-- `emitPIIMethods`; nothing for a variant without such fields. -/
def emitPIIMethods (R : Type) (M : MessageDesc) : Option (PIIEncoder (Event R)) :=
  if (classifyFields M).2 then
    some {
      name := M.goName
      subject := subjectMethod (classifyFields M).1
      fields := (encryptedFields M).map PiiField.method
      sad := ((classifyFields M).1.filter fun pf => pf.kind = .rejected).map PiiField.protoName }
  else none

/-! ### What the compiler says of them -/

/-- The method `Get…` of the field returns a `string`. -/
def FieldDesc.TextGetter (f : FieldDesc) : Prop :=
  f.kind = .string ∧ f.label ≠ .repeated ∧ f.label ≠ .map

instance : DecidablePred FieldDesc.TextGetter := fun f =>
  inferInstanceAs (Decidable (f.kind = .string ∧ f.label ≠ .repeated ∧ f.label ≠ .map))

/-- The field of the generated struct has the type the methods take it for: a `string` or a
`[]byte`. -/
def FieldDesc.Plain (f : FieldDesc) : Prop :=
  f.label = .singular ∨ f.label = .optional ∧ f.kind = .bytes

instance : DecidablePred FieldDesc.Plain := fun f =>
  inferInstanceAs (Decidable (f.label = .singular ∨ f.label = .optional ∧ f.kind = .bytes))

/-- The methods of the variant compile.  A variant with fields of the class SAD has no code for its
other fields. -/
structure Compiles (M : MessageDesc) : Prop where
  plain : (∀ f ∈ M.fields, f.piiKind ≠ .rejected) →
    ∀ f ∈ M.fields, f.classify.encrypted = true → f.Plain
  override : (∀ f ∈ M.fields, f.piiKind ≠ .rejected) →
    ∀ f ∈ M.fields, f.classify.encrypted = true → f.subjectField ≠ "" →
      ∃ g ∈ M.fields, g.goName = upperGoFieldName f.subjectField ∧ g.TextGetter
  subject : (classifyFields M).2 = true →
    ∀ f, M.fields.find? FieldDesc.isSubject = some f → f.TextGetter

end Codegen

end EventStore
