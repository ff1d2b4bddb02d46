import EventStore.Codegen.Schema

/-!
# Messages and access levels

The values of the generated Go types, and which fields of them an audience may see.  A message maps
each of its fields, by the Go name, to the values it holds: one for a singular field, one or none
for an optional field or a variant of a oneof, any number for repeated fields and maps.  A value of
a repeated field or of a map has an index or a key.

`Agree S level same v w kind` says that two values agree on every field that is visible at the
level, at every depth; `same` compares bytes.
-/

namespace EventStore

namespace Codegen

/-! ### Levels -/

/-- `es.AccessLevel`. -/
inductive AccessLevel where
  | pub
  | internal
  | subject
  | compliance
  | operator
  deriving DecidableEq

/-- The value of the Go constant. -/
def AccessLevel.rank : AccessLevel → ℕ
  | .pub => 0
  | .internal => 1
  | .subject => 2
  | .compliance => 3
  | .operator => 4

/-- `es.MinLevelFor`. -/
def minLevelFor : DataClassification → AccessLevel
  | .unspecified | .pub => .pub
  | .internal => .internal
  | .personal | .quasiIdentifier | .unstructured => .subject
  | .sensitive | .financial | .cardholder => .compliance
  | .credential => .operator
  -- closed by default
  | .sad => .operator

/-- The level reaches the one that is required. -/
def AccessLevel.Reaches (level required : AccessLevel) : Prop := required.rank ≤ level.rank

instance (level required : AccessLevel) : Decidable (level.Reaches required) :=
  inferInstanceAs (Decidable (required.rank ≤ level.rank))

/-- The descriptor of a field, by its Go name. -/
def MessageDesc.field? (M : MessageDesc) (goName : String) : Option FieldDesc :=
  M.fields.find? fun d => d.goName = goName

theorem MessageDesc.field?_eq_some {M : MessageDesc} {n : String} {d : FieldDesc} :
    M.field? n = some d ↔ d ∈ M.fields ∧ d.goName = n := by
  constructor
  · intro h
    exact ⟨List.mem_of_find?_eq_some h, by simpa using List.find?_some h⟩
  · rintro ⟨hd, rfl⟩
    cases hfind : M.field? d.goName with
    | none => exact absurd (decide_eq_true rfl) (List.find?_eq_none.1 hfind d hd)
    | some g =>
      have hg : g.goName = d.goName := by simpa using List.find?_some hfind
      rw [List.inj_on_of_nodup_map M.distinct (List.mem_of_find?_eq_some hfind) hd hg]

/-- The variants of a oneof. -/
def Label.isOneof : Label → Bool
  | .oneof _ => true
  | .singular | .optional | .repeated | .map => false

/-- The field is visible at the level, in a message that is: a variant of a oneof if all variants
are, any other field if it is a subject or its classification is reached. -/
def MessageDesc.Visible (M : MessageDesc) (level : AccessLevel) (d : FieldDesc) : Prop :=
  if d.label.isOneof then
    ∀ g ∈ M.fields, g.label = d.label → level.Reaches (minLevelFor g.classification)
  else d.isSubject = true ∨ level.Reaches (minLevelFor d.classification)

instance (M : MessageDesc) (level : AccessLevel) (d : FieldDesc) :
    Decidable (M.Visible level d) :=
  inferInstanceAs (Decidable (if d.label.isOneof = true then
    ∀ g ∈ M.fields, g.label = d.label → level.Reaches (minLevelFor g.classification)
    else d.isSubject = true ∨ level.Reaches (minLevelFor d.classification)))

/-! ### Values -/

/-- A value of a field. -/
inductive Value where
  /-- A number or a boolean. -/
  | number (z : ℤ)
  | enum (z : ℤ)
  | text (b : Bytes)
  /-- A byte slice, which may be nil. -/
  | bytes (b : Option Bytes)
  /-- The nil pointer to a message. -/
  | null
  /-- A message: the indices or keys of the values of a field, and the values. -/
  | message (keys : String → List (Option String)) (value : String → Option String → Value)

/-- The zero value. -/
def Value.zero : Kind → Value
  | .bytes => .bytes none
  | .string => .text []
  | .message _ => .null
  | .scalar => .number 0
  | .enum => .enum 0

/-- The operator sees everything. -/
theorem visible_operator (M : MessageDesc) (d : FieldDesc) : M.Visible .operator d := by
  have hall : ∀ c, AccessLevel.operator.Reaches (minLevelFor c) := by
    intro c
    cases c <;> decide
  unfold MessageDesc.Visible
  split_ifs
  · exact fun g _ _ => hall g.classification
  · exact Or.inr (hall d.classification)

/-- Keys are compared with `==`. -/
scoped instance lawfulBEqKey : LawfulBEq (Option String) := inferInstance

/-- The nil slice. -/
def Value.isNilBytes : Value → Bool
  | .bytes none => true
  | _ => false

/-- Nil and empty slices are the same. -/
def SameBytes (b b' : Option Bytes) : Prop := b'.getD [] = b.getD []

/-- The two values agree on the fields that are visible at the level, at every depth. -/
def Agree (S : Schema) (level : AccessLevel) (same : Option Bytes → Option Bytes → Prop) :
    Value → Value → Kind → Prop
  | .message keys value, w, .message name =>
    match S name with
    -- not a generated message: there is nothing to hide in it
    | none => w = .message keys value
    | some M => ∃ keys' value', w = .message keys' value' ∧
      ∀ f d, M.field? f = some d → M.Visible level d → keys' f = keys f ∧
        ∀ key ∈ keys f, Agree S level same (value f key) (value' f key) d.kind
  | .bytes b, w, .bytes => ∃ b', w = .bytes b' ∧ same b b'
  | v, w, _ => w = v

end Codegen

end EventStore
