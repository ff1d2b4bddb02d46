import EventStore.Codegen.Coverage
import EventStore.Codegen.View
import Mathlib.Data.List.Find

/-!
# `LogValue`

`emitLogValueMethod` writes for each message what is logged of it: the fields that are visible at
the level `internal`, and markers for the others.  A nested message is passed on as it is; `slog`
calls its `LogValue`, because it has one.  A oneof is passed on as the struct that wraps its
variant, and that has none: `slog` then renders the struct with everything in it.

* `logValue` : the rendered output.
* `logValue_eq_iff` : **messages that agree on what is visible are rendered alike iff the messages
  in their visible oneofs agree on all of their fields.**
* `wrapped_street` : a street in the log.
-/

namespace EventStore

namespace Codegen

/-! ### The output -/

/-- Rendered output. -/
inductive Log where
  | nothing
  /-- The length of a slice, `….len`. -/
  | len (n : ℕ)
  /-- `[REDACTED:…]`. -/
  | redacted (label : String)
  /-- A collection: `count`, and a marker if it is hidden. -/
  | count (n : ℕ) (redacted : Option String)
  /-- What `slog` renders when `LogValue` panics. -/
  | panicked
  /-- A value as it is: a text, a number, or a message whose type is not a generated one. -/
  | whole (v : Value)
  /-- A group: the names of its attributes, and the values by position. -/
  | group (names : List String) (attr : ℕ → Log)
  /-- The values of a field, under their indices or keys. -/
  | values (keys : List (Option String)) (value : Option String → Log)

/-- `classificationLabelFor`. -/
def classificationLabelFor : DataClassification → String
  | .unspecified => "UNSPECIFIED"
  | .pub => "PUBLIC"
  | .internal => "INTERNAL"
  | .personal => "PERSONAL"
  | .quasiIdentifier => "QUASI_IDENTIFIER"
  | .unstructured => "UNSTRUCTURED"
  | .sensitive => "SENSITIVE"
  | .financial => "FINANCIAL"
  | .cardholder => "CARDHOLDER"
  | .credential => "CREDENTIAL"
  | .sad => "UNKNOWN"

/-- The output for a value that has no `LogValue`: all of its fields, recursively. -/
def Value.raw (S : Schema) : Value → Kind → Log
  | .message keys value, .message name =>
    match S name with
    | none => .whole (.message keys value)
    | some M =>
      .group (M.fields.map FieldDesc.goName) fun i =>
        match M.fields[i]? with
        | none => .nothing
        | some d => .values (keys d.goName) fun key =>
          if key ∈ keys d.goName then (value d.goName key).raw S d.kind else .nothing
  | v, _ => .whole v

/-- An attribute of the group of a message. -/
inductive Attr where
  | field (d : FieldDesc)
  | oneof (name : String)

namespace MessageDesc

variable (M : MessageDesc)

/-- The names of the oneofs, each once. -/
def oneofs : List String :=
  (M.fields.filterMap fun d => match d.label with
    | .oneof o => some o
    | _ => none).dedup

/-- The attributes, in the order of the generated code: the fields, then the oneofs. -/
def attrs : List Attr :=
  (M.fields.filter fun d => !d.label.isOneof).map .field ++ M.oneofs.map .oneof

/-- `oneofVisibleAtInternal`. -/
def oneofVisibleAtInternal (o : String) : Bool :=
  (M.fields.filter fun d => d.label = .oneof o).all fun d =>
    match d.classification with
    | .unspecified | .pub | .internal => true
    | _ => false

/-- The variant of a oneof that is set. -/
def variant (keys : String → List (Option String)) (o : String) : Option FieldDesc :=
  M.fields.find? fun d => d.label = .oneof o ∧ none ∈ keys d.goName

end MessageDesc

/-- The variable `visible` in `emitLogValueAttr`. -/
def FieldDesc.visibleAtInternal (d : FieldDesc) : Bool :=
  d.isSubject || d.classification = .unspecified || d.classification = .pub ||
    d.classification = .internal

/-- The name of an attribute. -/
def Attr.name : Attr → String
  | .field d =>
    if d.kind = .bytes ∧ ¬ d.label.keyed ∧ d.visibleAtInternal then d.protoName ++ ".len"
    else d.protoName
  | .oneof o => o

/-- The value of a field that holds one at most. -/
def FieldDesc.only (d : FieldDesc) (keys : List (Option String)) (value : Option String → Value) :
    Value := if none ∈ keys then value none else .zero d.kind

/-- The length of a slice. -/
def Value.len : Value → ℕ
  | .bytes b => (b.getD []).length
  | _ => 0

namespace MessageDesc

variable (M : MessageDesc)

/-- The value of an attribute; `nested` renders the message a field holds. -/
def attrLog (S : Schema) (keys : String → List (Option String))
    (value : String → Option String → Value) (nested : FieldDesc → Log) : Attr → Log
  | .field d =>
    if d.label.keyed then
      .count (keys d.goName).length
        (if d.visibleAtInternal then none else some (classificationLabelFor d.classification))
    else if d.visibleAtInternal then
      match d.kind with
      | .message _ => if none ∈ keys d.goName then nested d else .group [] fun _ => .nothing
      | .bytes => .len (d.only (keys d.goName) (value d.goName)).len
      | .string | .scalar | .enum => .whole (d.only (keys d.goName) (value d.goName))
    else .redacted (classificationLabelFor d.classification)
  | .oneof o =>
    if M.oneofVisibleAtInternal o then
      match M.variant keys o with
      | none => .nothing
      -- the struct that wraps the variant has no `LogValue`
      | some d => .group [d.goName] fun _ => (value d.goName none).raw S d.kind
    else .redacted "ONEOF"

/-- An optional enumeration that is not set is a nil pointer, and `String()` panics. -/
def panics (keys : String → List (Option String)) : Bool :=
  M.fields.any fun d => d.label = .optional ∧ d.kind = .enum ∧ d.visibleAtInternal ∧
    none ∉ keys d.goName

end MessageDesc

/-- `LogValue`, fully rendered. -/
def Value.logValue (S : Schema) : Value → Kind → Log
  | .message keys value, .message name =>
    match S name with
    | none => .whole (.message keys value)
    | some M =>
      if M.panics keys then .panicked
      else .group (M.attrs.map Attr.name) fun i =>
        (M.attrs[i]?).elim .nothing
          (M.attrLog S keys value fun d => (value d.goName none).logValue S d.kind)
  | .null, .message _ => .group [] fun _ => .nothing
  | v, _ => .whole v

/-! ### Messages that agree -/

/-- The lengths of slices and collections are the same, at every depth. -/
def SameLengths (S : Schema) : Value → Value → Kind → Prop
  | .message keys value, .message keys' value', .message name =>
    ∀ M, S name = some M → ∀ d ∈ M.fields,
      (d.label.keyed = true → (keys' d.goName).length = (keys d.goName).length) ∧
      ∀ key ∈ keys d.goName, key ∈ keys' d.goName →
        SameLengths S (value d.goName key) (value' d.goName key) d.kind
  | v, w, .bytes => w.len = v.len
  | _, _, _ => True

/-- The messages in visible oneofs, of all messages whose `LogValue` is called, agree on all of
their fields. -/
def OneofsAgree (S : Schema) : Value → Value → Kind → Prop
  | .message keys value, .message _ value', .message name =>
    ∀ M, S name = some M → M.panics keys = false →
      (∀ o ∈ M.oneofs, M.oneofVisibleAtInternal o = true → ∀ d, M.variant keys o = some d →
        Agree S .operator Eq (value d.goName none) (value' d.goName none) d.kind) ∧
      ∀ d ∈ M.fields, d.label.isOneof = false → d.label.keyed = false →
        d.visibleAtInternal = true → none ∈ keys d.goName →
        OneofsAgree S (value d.goName none) (value' d.goName none) d.kind
  | _, _, _ => True

/-! ### Rendering everything -/

section Raw

variable {S : Schema} {v w : Value} {kind : Kind}

theorem raw_eq_whole (h : w.raw S kind = .whole v) : w = v := by
  unfold Value.raw at h
  split at h
  · split at h
    · exact Log.whole.inj h
    · cases h
  · exact Log.whole.inj h

/-- Two messages of one type, field by field. -/
theorem raw_message_iff {name : String} {M : MessageDesc} (hS : S name = some M)
    {keys keys' : String → List (Option String)} {value value' : String → Option String → Value} :
    (Value.message keys value).raw S (.message name) =
        (Value.message keys' value').raw S (.message name) ↔
      ∀ d ∈ M.fields, keys' d.goName = keys d.goName ∧ ∀ key ∈ keys d.goName,
        (value d.goName key).raw S d.kind = (value' d.goName key).raw S d.kind := by
  rw [Value.raw, Value.raw, hS]
  constructor
  · intro h d hd
    obtain ⟨i, hi⟩ := List.mem_iff_getElem?.1 hd
    have hattr := congrFun (Log.group.inj h).2 i
    rw [hi] at hattr
    obtain ⟨hkeys, hvals⟩ := Log.values.inj hattr
    refine ⟨hkeys.symm, fun key hkey => ?_⟩
    have hval := congrFun hvals key
    rwa [if_pos hkey, if_pos (hkeys ▸ hkey)] at hval
  · intro h
    dsimp only
    congr 1
    funext i
    cases hi : M.fields[i]? with
    | none => rfl
    | some d =>
      obtain ⟨hkeys, hvals⟩ := h d (List.mem_of_getElem? hi)
      dsimp only
      rw [hkeys]
      congr 1
      funext key
      split_ifs with hkey
      · exact hvals key hkey
      · rfl

/-- **What is rendered with everything in it shows all fields.** -/
theorem raw_eq_iff : v.raw S kind = w.raw S kind ↔ Agree S .operator Eq v w kind := by
  induction v generalizing w kind with
  | number z => exact ⟨fun h => raw_eq_whole h.symm, fun h : w = _ => by rw [h]⟩
  | enum z => exact ⟨fun h => raw_eq_whole h.symm, fun h : w = _ => by rw [h]⟩
  | text b => exact ⟨fun h => raw_eq_whole h.symm, fun h : w = _ => by rw [h]⟩
  | null => exact ⟨fun h => raw_eq_whole h.symm, fun h : w = _ => by rw [h]⟩
  | bytes b =>
    cases kind with
    | bytes =>
      constructor
      · intro h
        exact ⟨b, raw_eq_whole h.symm, rfl⟩
      · rintro ⟨b', rfl, rfl⟩
        rfl
    | string | message _ | scalar | enum =>
      exact ⟨fun h => raw_eq_whole h.symm, fun h : w = _ => by rw [h]⟩
  | message keys value ih =>
    cases kind with
    | bytes | string | scalar | enum =>
      exact ⟨fun h => raw_eq_whole h.symm, fun h : w = _ => by rw [h]⟩
    | message name =>
      cases hS : S name with
      | none =>
        rw [Value.raw, Agree, hS]
        exact ⟨fun h => raw_eq_whole h.symm, fun h : w = _ => by rw [h, Value.raw, hS]⟩
      | some M =>
        rw [Agree, hS]
        constructor
        · intro h
          cases w with
          | message keys' value' =>
            refine ⟨keys', value', rfl, fun f d hd _ => ?_⟩
            obtain ⟨hmem, rfl⟩ := MessageDesc.field?_eq_some.1 hd
            obtain ⟨hkeys, hvals⟩ := (raw_message_iff hS).1 h d hmem
            exact ⟨hkeys, fun key hkey => (ih d.goName key).1 (hvals key hkey)⟩
          | number _ | enum _ | text _ | bytes _ | null =>
            rw [Value.raw, hS] at h
            cases h
        · rintro ⟨keys', value', rfl, hagree⟩
          refine (raw_message_iff hS).2 fun d hd => ?_
          obtain ⟨hkeys, hvals⟩ := hagree d.goName d (MessageDesc.field?_eq_some.2 ⟨hd, rfl⟩)
            (visible_operator M d)
          exact ⟨hkeys, fun key hkey => (ih d.goName key).2 (hvals key hkey)⟩

end Raw

/-! ### What the log shows -/

section Attrs

variable {S : Schema} {M : MessageDesc} {keys keys' : String → List (Option String)}
  {value value' : String → Option String → Value}

theorem visibleAtInternal_iff {d : FieldDesc} (hone : d.label.isOneof = false) :
    d.visibleAtInternal = true ↔ M.Visible .internal d := by
  have hclass : ∀ c : DataClassification, (c = .unspecified ∨ c = .pub) ∨ c = .internal ↔
      AccessLevel.internal.Reaches (minLevelFor c) := by
    intro c
    cases c <;> decide
  rw [MessageDesc.Visible, hone, if_neg Bool.false_ne_true, ← hclass]
  simp only [FieldDesc.visibleAtInternal, Bool.or_eq_true, decide_eq_true_eq, or_assoc]

theorem visible_of_oneof {o : String} (h : M.oneofVisibleAtInternal o = true) {d : FieldDesc}
    (hd : d.label = .oneof o) : M.Visible .internal d := by
  have hone : d.label.isOneof = true := by rw [hd]; rfl
  rw [MessageDesc.Visible, if_pos hone]
  intro g hg hlabel
  have hg' := List.all_eq_true.1 h g (List.mem_filter.2 ⟨hg, by simp [hlabel, hd]⟩)
  cases hc : g.classification <;> simp_all [AccessLevel.Reaches, minLevelFor, AccessLevel.rank]

/-- The fields of the two messages that are visible at the level `internal` are there alike. -/
def SameKeys (M : MessageDesc) (keys keys' : String → List (Option String)) : Prop :=
  ∀ d ∈ M.fields, M.Visible .internal d → keys' d.goName = keys d.goName

theorem panics_eq (h : SameKeys M keys keys') : M.panics keys' = M.panics keys := by
  rw [Bool.eq_iff_iff]
  simp only [MessageDesc.panics, List.any_eq_true, decide_eq_true_eq]
  refine exists_congr fun d => and_congr_right fun hd => ?_
  refine and_congr_right fun hopt => and_congr_right fun _ => and_congr_right fun hvis => ?_
  have hone : d.label.isOneof = false := by rw [hopt]; rfl
  rw [h d hd ((visibleAtInternal_iff hone).1 hvis)]

theorem variant_eq (h : SameKeys M keys keys') {o : String}
    (ho : M.oneofVisibleAtInternal o = true) : M.variant keys' o = M.variant keys o := by
  refine List.find?_congr fun d hd => ?_
  rw [decide_eq_decide]
  refine and_congr_right fun hlabel => ?_
  rw [h d hd (visible_of_oneof ho hlabel)]

/-- The groups of two messages are the same if all attributes are. -/
theorem group_eq_iff {names : List String} {attrs : List Attr} {F G : Attr → Log} :
    Log.group names (fun i => (attrs[i]?).elim .nothing F) =
        .group names (fun i => (attrs[i]?).elim .nothing G) ↔ ∀ a ∈ attrs, F a = G a := by
  constructor
  · intro h a ha
    obtain ⟨i, hi⟩ := List.mem_iff_getElem?.1 ha
    have hattr := congrFun (Log.group.inj h).2 i
    rwa [hi] at hattr
  · intro h
    congr 1
    funext i
    cases hi : attrs[i]? with
    | none => rfl
    | some a => exact h a (List.mem_of_getElem? hi)

/-- A oneof shows everything in its variant. -/
theorem attrLog_oneof_iff (h : SameKeys M keys keys') {nested nested' : FieldDesc → Log}
    (o : String) :
    M.attrLog S keys value nested (.oneof o) = M.attrLog S keys' value' nested' (.oneof o) ↔
      (M.oneofVisibleAtInternal o = true → ∀ d, M.variant keys o = some d →
        Agree S .operator Eq (value d.goName none) (value' d.goName none) d.kind) := by
  simp only [MessageDesc.attrLog]
  by_cases ho : M.oneofVisibleAtInternal o = true
  · rw [if_pos ho, if_pos ho, variant_eq h ho]
    cases M.variant keys o with
    | none => simp
    | some d =>
      simp only [ho, true_imp_iff, Option.some.injEq, forall_eq', ← raw_eq_iff]
      constructor
      · intro heq
        exact congrFun (Log.group.inj heq).2 0
      · intro heq
        rw [heq]
  · simp [ho]

/-- A value that is not a message is visible or not as a whole. -/
theorem Agree.eq_of_not_message {level : AccessLevel} {v w : Value} {kind : Kind}
    (h : Agree S level Eq v w kind) (hkind : ∀ name, kind ≠ .message name) : w = v := by
  unfold Agree at h
  split at h
  · exact absurd rfl (hkind _)
  · obtain ⟨b', rfl, rfl⟩ := h
    rfl
  · exact h

theorem Agree.refl (level : AccessLevel) (v : Value) (kind : Kind) :
    Agree S level Eq v v kind := by
  induction v generalizing kind with
  | number z => rfl
  | enum z => rfl
  | text b => rfl
  | null => rfl
  | bytes b =>
    cases kind with
    | bytes => exact ⟨b, rfl, rfl⟩
    | string | message _ | scalar | enum => rfl
  | message keys value ih =>
    cases kind with
    | bytes | string | scalar | enum => rfl
    | message name =>
      rw [Agree]
      cases S name with
      | none => rfl
      | some M => exact ⟨keys, value, rfl, fun f d _ _ => ⟨rfl, fun key _ => ih f key d.kind⟩⟩

/-- A field shows what is visible, and the output of the message it holds. -/
theorem attrLog_field_iff {d : FieldDesc} (hd : d ∈ M.fields) (hone : d.label.isOneof = false)
    (h : SameKeys M keys keys')
    (hlen : d.label.keyed = true → (keys' d.goName).length = (keys d.goName).length)
    (hvals : M.Visible .internal d → ∀ key ∈ keys d.goName,
      Agree S .internal Eq (value d.goName key) (value' d.goName key) d.kind)
    {nested nested' : FieldDesc → Log} :
    M.attrLog S keys value nested (.field d) = M.attrLog S keys' value' nested' (.field d) ↔
      (d.label.keyed = false → d.visibleAtInternal = true → none ∈ keys d.goName →
        ∀ name, d.kind = .message name → nested d = nested' d) := by
  simp only [MessageDesc.attrLog]
  cases hk : d.label.keyed with
  | true => simp [hlen hk]
  | false =>
    by_cases hvis : d.visibleAtInternal = true
    · have hV := (visibleAtInternal_iff (M := M) hone).1 hvis
      have honly : (∀ name, d.kind ≠ .message name) →
          d.only (keys d.goName) (value' d.goName) = d.only (keys d.goName) (value d.goName) := by
        intro hkind
        unfold FieldDesc.only
        split_ifs with hmem
        · exact (hvals hV none hmem).eq_of_not_message hkind
        · rfl
      rw [h d hd hV]
      simp only [Bool.false_eq_true, if_false, hvis, true_imp_iff]
      cases hkind : d.kind with
      | message name =>
        by_cases hmem : none ∈ keys d.goName
        · simp [hmem]
        · simp [hmem]
      | bytes | string | scalar | enum =>
        rw [honly (by simp [hkind])]
        simp
    · simp [hvis]

end Attrs

section Log

variable {S : Schema} {v w : Value} {kind : Kind}

theorem oneofsAgree_of_not_message (hkind : ∀ name, kind ≠ .message name) :
    OneofsAgree S v w kind := by
  unfold OneofsAgree
  split
  · exact absurd rfl (hkind _)
  · trivial

/-- **Messages that agree on what is visible at the level `internal`, and on lengths, are rendered
alike iff the messages in their visible oneofs agree on all of their fields.** -/
theorem logValue_eq_iff (h : Agree S .internal Eq v w kind) (hlen : SameLengths S v w kind) :
    v.logValue S kind = w.logValue S kind ↔ OneofsAgree S v w kind := by
  induction v generalizing w kind with
  | number z =>
    obtain rfl : w = .number z := h
    simp [OneofsAgree]
  | enum z =>
    obtain rfl : w = .enum z := h
    simp [OneofsAgree]
  | text b =>
    obtain rfl : w = .text b := h
    simp [OneofsAgree]
  | null =>
    obtain rfl : w = .null := h
    simp [OneofsAgree]
  | bytes b =>
    obtain rfl : w = .bytes b := by
      cases kind with
      | bytes =>
        obtain ⟨b', rfl, rfl⟩ := h
        rfl
      | string | message _ | scalar | enum => exact h
    simp [OneofsAgree]
  | message keys value ih =>
    cases kind with
    | bytes | string | scalar | enum =>
      obtain rfl : w = .message keys value := h
      simp [OneofsAgree]
    | message name =>
      cases hS : S name with
      | none =>
        rw [Agree, hS] at h
        obtain rfl : w = .message keys value := h
        simp [OneofsAgree, hS]
      | some M =>
        rw [Agree, hS] at h
        obtain ⟨keys', value', rfl, hagree⟩ := h
        have hfield : ∀ d ∈ M.fields, M.Visible .internal d → keys' d.goName = keys d.goName ∧
            ∀ key ∈ keys d.goName,
              Agree S .internal Eq (value d.goName key) (value' d.goName key) d.kind :=
          fun d hd => hagree d.goName d (MessageDesc.field?_eq_some.2 ⟨hd, rfl⟩)
        have hkeys : SameKeys M keys keys' := fun d hd hvis => (hfield d hd hvis).1
        rw [Value.logValue, Value.logValue, hS]
        dsimp only
        rw [panics_eq hkeys]
        by_cases hp : M.panics keys = true
        · simp [hp, OneofsAgree, hS]
        · have hno : M.panics keys = false := by simpa using hp
          have hone : OneofsAgree S (.message keys value) (.message keys' value') (.message name) ↔
              _ := ⟨fun hall => hall M hS hno, fun hM M' hS' _ => by
                rw [hS] at hS'
                cases hS'
                exact hM⟩
          rw [if_neg hp, if_neg hp, group_eq_iff, hone, MessageDesc.attrs, List.forall_mem_append,
            List.forall_mem_map, List.forall_mem_map, and_comm]
          refine and_congr (forall₂_congr fun o _ => attrLog_oneof_iff hkeys o) ?_
          simp only [List.mem_filter, and_imp, Bool.not_eq_true']
          refine forall₃_congr fun d hd hd₁ => ?_
          have hl := hlen M hS d hd
          rw [attrLog_field_iff hd hd₁ hkeys hl.1 fun hvis => (hfield d hd hvis).2]
          refine forall₃_congr fun hk hvis hmem => ?_
          have hV := (visibleAtInternal_iff (M := M) hd₁).1 hvis
          -- the message the field holds, if it holds one
          have hsub := ih d.goName none ((hfield d hd hV).2 none hmem)
            (hl.2 none hmem (by rw [hkeys d hd hV]; exact hmem))
          rw [hsub]
          constructor
          · intro hall
            by_cases hmsg : ∃ n, d.kind = .message n
            · obtain ⟨n, hn⟩ := hmsg
              exact hall n hn
            · exact oneofsAgree_of_not_message fun n hn => hmsg ⟨n, hn⟩
          · intro hall n _
            exact hall

end Log

/-! ### A delivery -/

namespace Delivery

/-- `message Delivered { oneof place { Address address = 1; string box = 2; } }` -/
def delivered : MessageDesc where
  goName := "Delivered"
  fields := [⟨"Address", "address", .oneof "place", .message "Address", false, "", .unspecified⟩,
    ⟨"Box", "box", .oneof "place", .string, false, "", .unspecified⟩]
  distinct := by decide

/-- The message types. -/
def schema : Schema := fun name => if name = "Delivered" then some delivered else Order.schema name

/-- An address. -/
def address (street : Bytes) : Value :=
  .message (fun f => if f = "Street" then [none] else []) fun _ _ => .text street

/-- A delivery to an address. -/
def place (street : Bytes) : Value :=
  .message (fun f => if f = "Address" then [none] else []) fun _ _ => address street

end Delivery

/-- The emails of profiles are not logged. -/
theorem profile_logged :
    Agree Profile.schema .internal Eq (Profile.of [1] [2]) (Profile.of [3] [2])
      (.message "Profile") ∧
    (Profile.of [1] [2]).logValue Profile.schema (.message "Profile") =
      (Profile.of [3] [2]).logValue Profile.schema (.message "Profile") := by
  have hagree : Agree Profile.schema .internal Eq (Profile.of [1] [2]) (Profile.of [3] [2])
      (.message "Profile") := by
    refine ⟨_, _, rfl, fun f d hd hvis => ⟨rfl, fun key _ => ?_⟩⟩
    obtain ⟨hmem, rfl⟩ := MessageDesc.field?_eq_some.1 hd
    have hnot : ∀ d ∈ Profile.profile.fields, Profile.profile.Visible .internal d →
        d.goName ≠ "Email" := by decide
    simp only [if_neg (hnot d hmem hvis)]
    exact Agree.refl _ _ _
  have hkind : ∀ d ∈ Profile.profile.fields, ∀ name, d.kind ≠ .message name := by
    simp [Profile.profile]
  refine ⟨hagree, (logValue_eq_iff hagree ?_).2 ?_⟩
  · intro M hM d hd
    cases hM
    refine ⟨fun _ => rfl, fun key hkey _ => ?_⟩
    simp only [Profile.profile, List.mem_cons, List.not_mem_nil, or_false] at hd
    rcases hd with rfl | rfl | rfl | rfl
    · trivial
    · trivial
    · trivial
    · rfl
  · intro M hM _
    cases hM
    refine ⟨fun o _ _ d hd => ?_, fun d hd _ _ _ _ => oneofsAgree_of_not_message (hkind d hd)⟩
    -- the variants of the oneof do not contain the email
    have hnot : ∀ d ∈ Profile.profile.fields, d.label.isOneof = true → d.goName ≠ "Email" := by
      decide
    have hlabel : d.label = .oneof o := by
      have hfound := List.find?_some hd
      simp only [decide_eq_true_eq] at hfound
      exact hfound.1
    simp only [if_neg (hnot d (List.mem_of_find?_eq_some hd) (by rw [hlabel]; rfl))]
    exact Agree.refl _ _ _

/-- **The street of an address in a oneof is in the log.**  The deliveries agree on what is visible
at the level `internal`, and on all lengths. -/
theorem wrapped_street :
    Agree Delivery.schema .internal Eq (Delivery.place [1]) (Delivery.place [2])
      (.message "Delivered") ∧
    SameLengths Delivery.schema (Delivery.place [1]) (Delivery.place [2]) (.message "Delivered") ∧
    (Delivery.place [1]).logValue Delivery.schema (.message "Delivered") ≠
      (Delivery.place [2]).logValue Delivery.schema (.message "Delivered") := by
  have hstreet : ∀ M, Delivery.schema "Address" = some M → M = Order.address := by
    intro M hM
    cases hM
    rfl
  refine ⟨?_, ?_, ?_⟩
  · refine ⟨_, _, rfl, fun f d hd _ => ⟨rfl, fun key hkey => ?_⟩⟩
    obtain ⟨hmem, rfl⟩ := MessageDesc.field?_eq_some.1 hd
    simp only [Delivery.delivered, List.mem_cons, List.not_mem_nil, or_false] at hmem
    rcases hmem with rfl | rfl
    · -- the address has no field that is visible
      refine ⟨_, _, rfl, fun g d hd hvis => ?_⟩
      obtain ⟨hmem, rfl⟩ := MessageDesc.field?_eq_some.1 hd
      have hnone : ∀ d ∈ Order.address.fields, ¬ Order.address.Visible .internal d := by decide
      exact absurd hvis (hnone d hmem)
    · cases hkey
  · intro M hM d hd
    cases hM
    refine ⟨fun _ => rfl, fun key hkey _ => ?_⟩
    simp only [Delivery.delivered, List.mem_cons, List.not_mem_nil, or_false] at hd
    rcases hd with rfl | rfl
    · intro M hM d hd
      obtain rfl := hstreet M hM
      simp only [Order.address, List.mem_cons, List.not_mem_nil, or_false] at hd
      subst hd
      exact ⟨fun _ => rfl, fun _ _ _ => trivial⟩
    · trivial
  · intro h
    have hattr := congrFun (Log.group.inj h).2 0
    have hraw : (Delivery.address [1]).raw Delivery.schema (.message "Address") =
        (Delivery.address [2]).raw Delivery.schema (.message "Address") :=
      congrFun (Log.group.inj hattr).2 0
    have hS : Delivery.schema "Address" = some Order.address := rfl
    have hvals := ((raw_message_iff hS).1 hraw _ List.mem_cons_self).2 none List.mem_cons_self
    cases hvals

end Codegen

end EventStore
