import EventStore.Codegen.Clone

/-!
# `Clone` and `proto.Clone`

`cloneProtoEvent` takes the generated `Clone` where there is one and `proto.Clone` otherwise, and
what is stored is the deterministic encoding of the copy.  `Value.wire` says what is in it: of each
field the records that are written, and the unknown fields of the message.  In Go these are one more
field of the struct, `unknownFields`, which is no field of the message type.  The keys of a map are
listed in the order in which they are written.

The generated copy starts from an empty struct.  It has no unknown fields, and it has lost what is
set but empty (`Codegen.Clone`).

* `wire_clone_iff` : when the two copies are stored as the same bytes.
-/

namespace EventStore

namespace Codegen

/-! ### The encoding -/

/-- What the encoding of a value has. -/
inductive Wire where
  | varint (z : ℤ)
  | chunk (b : Bytes)
  /-- A value of another type. -/
  | foreign (v : Value)
  /-- The records of each field, with their keys, and the unknown fields. -/
  | message (records : String → List (Option String × Wire)) (unknown : Bytes)

/-- The value of a field is written: a singular field if it is not zero, an optional slice if it is
not nil. -/
def FieldDesc.emits (d : FieldDesc) (v : Value) : Bool :=
  match d.label, v with
  | .singular, .number z => z ≠ 0
  | .singular, .enum z => z ≠ 0
  | .singular, .text b => b ≠ []
  | .singular, .bytes b => b.getD [] ≠ []
  | .singular, .null => false
  | .optional, .bytes none => false
  | _, _ => true

/-- The Go field of the unknown fields. -/
def unknownFields : String := "unknownFields"

/-- What the deterministic encoding of a value has.  A nil message in a list, a map or a oneof is
written as an empty one. -/
def Value.wire (S : Schema) : Value → Kind → Wire
  | .message keys value, .message name =>
    match S name with
    | none => .foreign (.message keys value)
    | some M =>
      .message (fun f =>
        match M.field? f with
        | none => []
        | some d => ((keys f).filter fun key => d.emits (value f key)).map fun key =>
            (key, (value f key).wire S d.kind))
        (sliceOf (keys unknownFields) (value unknownFields))
  | .null, .message _ => .message (fun _ => []) []
  | .number z, _ => .varint z
  | .enum z, _ => .varint z
  | .text b, _ => .chunk b
  | .bytes b, .bytes => .chunk (b.getD [])
  | v, _ => .foreign v

/-- `cloneProtoEvent`: the generated copy, or `proto.Clone`. -/
def cloneProtoEvent (S : Schema) (protoClone : Value → Value) (generated : Bool) (kind : Kind)
    (v : Value) : Value :=
  if generated then v.clone S kind else protoClone v

/-- The Go names of the fields of a message are exported. -/
def Schema.Exported (S : Schema) : Prop :=
  ∀ name M, S name = some M → M.field? unknownFields = none

/-- Nowhere in the value are unknown fields, optional slices that are set and empty, or nil entries
of maps to bytes. -/
def Whole (S : Schema) : Value → Kind → Prop
  | .message keys value, .message name =>
    ∀ M, S name = some M → sliceOf (keys unknownFields) (value unknownFields) = [] ∧
      ∀ f d, M.field? f = some d → ∀ key ∈ keys f,
        (d.emits (value f key) = true → d.leavesOut (value f key) = false) ∧
          Whole S (value f key) d.kind
  | _, _ => True

section Encoding

variable {S : Schema} {v : Value} {kind : Kind} {d : FieldDesc}

/-- A value that is not left out is written if and only if its copy is. -/
theorem emits_clone (h : d.leavesOut v = false) : d.emits (v.clone S d.kind) = d.emits v := by
  cases v with
  | number | enum | text | null => rfl
  | message keys value =>
    cases hk : d.kind with
    | message name =>
      rw [Value.clone]
      cases S name <;> cases hl : d.label <;> simp [FieldDesc.emits, hl]
    | bytes | string | scalar | enum => rfl
  | bytes b =>
    cases hk : d.kind with
    | bytes =>
      have hsame : (copyBytes b).getD [] = b.getD [] := sameBytes_copyBytes b
      cases hl : d.label with
      | singular => simp only [Value.clone, FieldDesc.emits, hl, hsame]
      | optional =>
        -- a slice that is copied has bytes, and so has its copy
        simp only [FieldDesc.leavesOut, hl, hk, Value.isEmptyBytes, decide_eq_false_iff_not] at h
        have hcopy : copyBytes b = b := if_neg h
        rw [Value.clone, hcopy]
      | repeated | map | oneof _ => simp only [Value.clone, FieldDesc.emits, hl]
    | string | message _ | scalar | enum => rfl

/-- What is not written has no fields. -/
theorem whole_of_not_emits (h : d.emits v = false) : Whole S v kind := by
  cases v with
  | message keys value =>
    cases hl : d.label <;> simp [FieldDesc.emits, hl] at h
  | number | enum | text | null | bytes => trivial

variable {keys : List (Option String)} {value value' : Option String → Value}

/-- The records of a field and of its copy. -/
theorem records_iff
    (hvalue : ∀ key ∈ keys, d.leavesOut (value key) = false →
      value' key = (value key).clone S d.kind)
    (ih : ∀ key, ((value key).clone S d.kind).wire S d.kind = (value key).wire S d.kind ↔
      Whole S (value key) d.kind) :
    (((keys.filter fun key => !d.leavesOut (value key)).filter fun key => d.emits (value' key)).map
        fun key => (key, (value' key).wire S d.kind)) =
      ((keys.filter fun key => d.emits (value key)).map
        fun key => (key, (value key).wire S d.kind)) ↔
      ∀ key ∈ keys, (d.emits (value key) = true → d.leavesOut (value key) = false) ∧
        Whole S (value key) d.kind := by
  have hkeys : ((keys.filter fun key => !d.leavesOut (value key)).filter
      fun key => d.emits (value' key)) =
      (keys.filter fun key => d.emits (value key)).filter fun key => !d.leavesOut (value key) := by
    rw [List.filter_filter, List.filter_filter]
    refine List.filter_congr fun key hk => ?_
    cases hout : d.leavesOut (value key) with
    | true => simp
    | false => simp [hvalue key hk hout, emits_clone hout]
  rw [hkeys]
  constructor
  · intro h key hk
    -- as many records as before, so nothing has been left out
    have hlen := congrArg List.length h
    rw [List.length_map, List.length_map] at hlen
    have hall := List.filter_sublist.eq_of_length hlen
    rw [hall] at h
    cases hemits : d.emits (value key) with
    | false => exact ⟨fun h => Bool.noConfusion h, whole_of_not_emits hemits⟩
    | true =>
      have hmem : key ∈ keys.filter fun key => d.emits (value key) :=
        List.mem_filter.2 ⟨hk, hemits⟩
      have hout : d.leavesOut (value key) = false := by
        simpa using List.filter_eq_self.1 hall key hmem
      have hrec := List.map_inj_left.1 h key hmem
      rw [hvalue key hk hout] at hrec
      exact ⟨fun _ => hout, (ih key).1 (Prod.ext_iff.1 hrec).2⟩
  · intro h
    have hall : (keys.filter fun key => d.emits (value key)).filter
        (fun key => !d.leavesOut (value key)) = keys.filter fun key => d.emits (value key) := by
      refine List.filter_eq_self.2 fun key hk => ?_
      obtain ⟨hk, hemits⟩ := List.mem_filter.1 hk
      simp [(h key hk).1 hemits]
    rw [hall]
    refine List.map_congr_left fun key hk => ?_
    obtain ⟨hk, hemits⟩ := List.mem_filter.1 hk
    rw [hvalue key hk ((h key hk).1 hemits), (ih key).2 (h key hk).2]

/-- The records of a field. -/
def records (S : Schema) (M : MessageDesc) (f : String) (keys : List (Option String))
    (value : Option String → Value) : List (Option String × Wire) :=
  match M.field? f with
  | none => []
  | some d => (keys.filter fun key => d.emits (value key)).map fun key =>
      (key, (value key).wire S d.kind)

theorem wire_message {M : MessageDesc} {name : String} (hM : S name = some M)
    (keys : String → List (Option String)) (value : String → Option String → Value) :
    (Value.message keys value).wire S (.message name) =
      .message (fun f => records S M f (keys f) (value f))
        (sliceOf (keys unknownFields) (value unknownFields)) := by
  rw [Value.wire, hM]
  rfl

/-- **The generated copy is encoded as the message is**, if and only if the message is whole. -/
theorem wire_clone (hS : S.Exported) :
    (v.clone S kind).wire S kind = v.wire S kind ↔ Whole S v kind := by
  induction v generalizing kind with
  | number z => exact iff_of_true rfl trivial
  | enum z => exact iff_of_true rfl trivial
  | text b => exact iff_of_true rfl trivial
  | null => exact iff_of_true rfl trivial
  | bytes b =>
    cases kind with
    | bytes => exact iff_of_true (congrArg Wire.chunk (sameBytes_copyBytes b)) trivial
    | string | message _ | scalar | enum => exact iff_of_true rfl trivial
  | message keys value ih =>
    cases kind with
    | bytes | string | scalar | enum => exact iff_of_true rfl trivial
    | message name =>
      cases hM : S name with
      | none => simp [Value.clone, Whole, hM]
      | some M =>
        have hunknown : M.cloneKeys unknownFields (keys unknownFields) (value unknownFields) =
            [] := by
          rw [MessageDesc.cloneKeys, hS name M hM]
        rw [Value.clone, hM]
        dsimp only
        rw [wire_message hM, wire_message hM, Wire.message.injEq, Whole, hM]
        simp only [hunknown, Option.some.injEq, forall_eq']
        rw [and_comm, eq_comm (a := sliceOf [] _), funext_iff]
        refine and_congr Iff.rfl (forall_congr' fun f => ?_)
        unfold records
        cases hd : M.field? f with
        | none => simp
        | some d =>
          simp only [Option.some.injEq, forall_eq', MessageDesc.cloneKeys, hd]
          refine records_iff (fun key hk hout => if_pos ?_) fun key => ih f key
          exact List.mem_filter.2 ⟨hk, by simp [hout]⟩

/-- **When the fast path stores what the fallback stores**: the message has no unknown fields, no
optional slice that is set and empty, and no nil entry in a map to bytes, at any depth.  `marshal`
writes different contents as different bytes, and `proto.Clone` keeps the content. -/
theorem cloneProtoEvent_same_iff {β : Type} (marshal : Wire → β) {protoClone : Value → Value}
    (hmarshal : Function.Injective marshal) (hS : S.Exported) (name : String) (v : Value)
    (hclone : ((protoClone v).wire S (.message name)) = v.wire S (.message name)) :
    marshal ((cloneProtoEvent S protoClone true (.message name) v).wire S (.message name)) =
      marshal ((cloneProtoEvent S protoClone false (.message name) v).wire S (.message name)) ↔
      Whole S v (.message name) := by
  rw [hmarshal.eq_iff]
  refine Eq.congr_right ?_ |>.trans (wire_clone hS)
  exact hclone

end Encoding

/-! ### A message from a newer version -/

/-- A message with an unknown field and no others. -/
def newer : Value :=
  .message (fun f => if f = unknownFields then [none] else []) fun _ _ => .bytes (some [8, 1])

theorem tagSchema_exported : tagSchema.Exported := by
  rintro name M hM
  cases hM
  decide

/-- The generated copy loses the unknown field. -/
theorem clone_loses_unknown :
    (cloneProtoEvent tagSchema id true (.message "Tags") newer).wire tagSchema (.message "Tags") ≠
      (cloneProtoEvent tagSchema id false (.message "Tags") newer).wire tagSchema
        (.message "Tags") := by
  intro h
  exact absurd (((wire_clone tagSchema_exported).1 h) tags rfl).1 (by decide)

/-- A message with one entry. -/
def oneTag : Value :=
  .message (fun f => if f = "Tags" then [some "k"] else []) fun _ _ => .bytes (some [1])

theorem cloneProtoEvent_same_oneTag : Whole tagSchema oneTag (.message "Tags") ∧
    (cloneProtoEvent tagSchema id true (.message "Tags") oneTag).wire tagSchema (.message "Tags") =
      (cloneProtoEvent tagSchema id false (.message "Tags") oneTag).wire tagSchema
        (.message "Tags") := by
  have hwhole : Whole tagSchema oneTag (.message "Tags") := by
    intro M hM
    refine ⟨rfl, fun f d _ key _ => ⟨fun _ => ?_, ?_⟩⟩
    · unfold FieldDesc.leavesOut
      split <;> rfl
    · trivial
  exact ⟨hwhole, (cloneProtoEvent_same_iff id Function.injective_id tagSchema_exported "Tags" oneTag
    rfl).2 hwhole⟩

end Codegen

end EventStore
