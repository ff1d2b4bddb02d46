import EventStore.Codegen.View

/-!
# `Clone`, and copies of copies

`emitCloneMethod` writes for each message a copy of all its fields, and `emitCloneAsSumType` the
method `CloneSum` for events, which `Handle` calls before it encrypts one.  The copy of a byte slice
is made only if the slice has a length, and the copy of an entry of a map to bytes only if its value
is not nil.

A view of a view should be the view at the lower of the two levels, a copy of a copy should be the
copy, and the operator's view should be the copy.  `View` and `Clone` are two cases of one copy
(`Value.copy`): it shows some of the fields, and leaves out some values.

What is in the way is the copy of a map to bytes.  It leaves out the entries that are nil, and
`append([]byte(nil), v...)` makes an entry nil that is empty: the second copy leaves out what the
first one has kept.

* `alike_copy_copy_iff` : a copy of a copy is a copy, if and only if no such map has an empty entry.
* `view_clone_action` : the same for `View` and `Clone`.
-/

namespace EventStore

namespace Codegen

/-! ### `Clone` -/

/-- A slice without bytes. -/
def Value.isEmptyBytes : Value → Bool
  | .bytes b => b.getD [] = []
  | _ => false

/-- The copy leaves the value out: it is an optional slice that is empty, or a nil slice in a
map. -/
def FieldDesc.leavesOut (d : FieldDesc) (v : Value) : Bool :=
  match d.label, d.kind with
  | .optional, .bytes => v.isEmptyBytes
  | .map, .bytes => v.isNilBytes
  | _, _ => false

/-- The keys of a field in the copy. -/
def MessageDesc.cloneKeys (M : MessageDesc) (f : String) (keys : List (Option String))
    (value : Option String → Value) : List (Option String) :=
  match M.field? f with
  | none => []
  | some d => keys.filter fun key => !d.leavesOut (value key)

/-- `Clone`, and the copies of other values it makes. -/
def Value.clone (S : Schema) : Value → Kind → Value
  | .message keys value, .message name =>
    match S name with
    -- a well-known type: the pointer is copied
    | none => .message keys value
    | some M =>
      .message (fun f => M.cloneKeys f (keys f) (value f)) fun f key =>
        match M.field? f with
        | none => .null
        | some d =>
          if key ∈ M.cloneKeys f (keys f) (value f) then (value f key).clone S d.kind else .null
  | .bytes b, .bytes => .bytes (copyBytes b)
  | v, _ => v

/-! ### One copy -/

/-- The lower of two levels. -/
def AccessLevel.min (a b : AccessLevel) : AccessLevel := if a.rank ≤ b.rank then a else b

/-- The fields a copy shows, and whether it leaves out optional slices that are empty. -/
structure Copying where
  shows : MessageDesc → FieldDesc → Bool
  omits : Bool

namespace Copying

variable (C : Copying)

/-- The copy leaves the value out. -/
def drops (d : FieldDesc) (v : Value) : Bool :=
  match d.label, d.kind with
  | .map, .bytes => v.isNilBytes
  | .optional, .bytes => C.omits && v.isEmptyBytes
  | _, _ => false

/-- The keys of a field in the copy. -/
def keys (M : MessageDesc) (f : String) (keys : List (Option String))
    (value : Option String → Value) : List (Option String) :=
  match M.field? f with
  | none => []
  | some d => if C.shows M d then keys.filter fun key => !C.drops d (value key)
      else d.label.zeroKeys

end Copying

/-- The copy of a value. -/
def Value.copy (S : Schema) (C : Copying) : Value → Kind → Value
  | .message keys value, .message name =>
    match S name with
    | none => .message keys value
    | some M =>
      .message (fun f => C.keys M f (keys f) (value f)) fun f key =>
        match M.field? f with
        | none => .null
        | some d =>
          if key ∈ C.keys M f (keys f) (value f) then
            if C.shows M d then (value f key).copy S C d.kind else .zero d.kind
          else .null
  | .bytes b, .bytes => .bytes (copyBytes b)
  | v, _ => v

/-- The copies of `View`. -/
def viewing (level : AccessLevel) : Copying := ⟨fun M d => M.Shows level d, false⟩

/-- The copies of `Clone`. -/
def cloning : Copying := ⟨fun _ _ => true, true⟩

/-! ### What is the same -/

/-- The bytes of a value. -/
def Value.slice : Value → Bytes
  | .bytes b => b.getD []
  | _ => []

/-- The bytes of an optional field, none if it is not set. -/
def sliceOf (keys : List (Option String)) (value : Option String → Value) : Bytes :=
  keys.flatMap fun key => (value key).slice

/-- The two values are the same but for nil and empty slices; an optional slice that is not set is
nil. -/
def Alike (S : Schema) : Value → Value → Kind → Prop
  | .message keys value, w, .message name =>
    match S name with
    | none => w = .message keys value
    | some M => ∃ keys' value', w = .message keys' value' ∧ ∀ f d, M.field? f = some d →
      if d.label = .optional ∧ d.kind = .bytes then
        sliceOf (keys' f) (value' f) = sliceOf (keys f) (value f)
      else keys' f = keys f ∧ ∀ key ∈ keys f, Alike S (value f key) (value' f key) d.kind
  | .bytes b, w, .bytes => ∃ b', w = .bytes b' ∧ SameBytes b b'
  | v, w, _ => w = v

/-- Nowhere among the fields that are shown is an entry of a map to bytes set and empty. -/
def Steady (S : Schema) (shows : MessageDesc → FieldDesc → Bool) : Value → Kind → Prop
  | .message keys value, .message name =>
    ∀ M, S name = some M → ∀ f d, M.field? f = some d → shows M d = true → ∀ key ∈ keys f,
      (d.label = .map → d.kind = .bytes → value f key ≠ .bytes (some [])) ∧
        Steady S shows (value f key) d.kind
  | _, _ => True

section Copies

variable {S : Schema} {C C₁ C₂ : Copying} {v : Value} {kind : Kind} {d : FieldDesc}

theorem drops_eq_false (h : ¬ (d.label = .map ∧ d.kind = .bytes))
    (h' : ¬ (d.label = .optional ∧ d.kind = .bytes)) : C.drops d v = false := by
  unfold Copying.drops
  split
  · exact absurd ⟨‹_›, ‹_›⟩ h
  · exact absurd ⟨‹_›, ‹_›⟩ h'
  · rfl

theorem slice_copy : (v.copy S C .bytes).slice = v.slice := by
  cases v with
  | bytes b => exact sameBytes_copyBytes b
  | number | enum | text | null | message => rfl

theorem steady_bytes {shows : MessageDesc → FieldDesc → Bool} : Steady S shows v .bytes := by
  cases v <;> trivial

/-- The zero value is its own copy. -/
theorem copy_zero (kind : Kind) : (Value.zero kind).copy S C kind = .zero kind := by
  cases kind <;> rfl

theorem alike_zero (kind : Kind) : Alike S (.zero kind) (.zero kind) kind := by
  cases kind with
  | bytes => exact ⟨none, rfl, rfl⟩
  | string | message _ | scalar | enum => rfl

variable (C d) in
/-- A field that is not set stays so. -/
theorem filter_zeroKeys : (d.label.zeroKeys.filter fun _ => !C.drops d (.zero d.kind)) =
    d.label.zeroKeys := by
  cases hl : d.label with
  | singular =>
    have : C.drops d (.zero d.kind) = false := drops_eq_false (by simp [hl]) (by simp [hl])
    simp [Label.zeroKeys, this]
  | optional | repeated | map | oneof _ => rfl

/-- The values of a field in the copy. -/
def copied (S : Schema) (C : Copying) (M : MessageDesc) (f : String) (keys : List (Option String))
    (value : Option String → Value) (key : Option String) : Value :=
  match M.field? f with
  | none => .null
  | some d =>
    if key ∈ C.keys M f keys value then
      if C.shows M d then (value key).copy S C d.kind else .zero d.kind
    else .null

theorem copy_message {M : MessageDesc} {name : String} (hS : S name = some M)
    (keys : String → List (Option String)) (value : String → Option String → Value) :
    (Value.message keys value).copy S C (.message name) =
      .message (fun f => C.keys M f (keys f) (value f))
        fun f => copied S C M f (keys f) (value f) := by
  rw [Value.copy, hS]
  rfl

/-! ### The fields of a copy -/

section Field

variable {M : MessageDesc} {f : String} {keys : List (Option String)}
  {value : Option String → Value} {key : Option String}

theorem keys_shown (hd : M.field? f = some d) (hs : C.shows M d = true) :
    C.keys M f keys value = keys.filter fun key => !C.drops d (value key) := by
  rw [Copying.keys, hd]
  exact if_pos hs

theorem keys_hidden (hd : M.field? f = some d) (hs : C.shows M d = false) :
    C.keys M f keys value = d.label.zeroKeys := by
  rw [Copying.keys, hd]
  exact if_neg (by simp [hs])

theorem copied_shown (hd : M.field? f = some d) (hs : C.shows M d = true)
    (hk : key ∈ C.keys M f keys value) :
    copied S C M f keys value key = (value key).copy S C d.kind := by
  rw [copied, hd]
  exact (if_pos hk).trans (if_pos hs)

theorem copied_hidden (hd : M.field? f = some d) (hs : C.shows M d = false)
    (hk : key ∈ C.keys M f keys value) : copied S C M f keys value key = .zero d.kind := by
  rw [copied, hd]
  exact (if_pos hk).trans (if_neg (by simp [hs]))

variable (S keys value) in
/-- What one copy hides is the zero value after another one. -/
theorem hidden_twice (hd : M.field? f = some d) (hs : (C₁.shows M d && C₂.shows M d) = false) :
    C₂.keys M f (C₁.keys M f keys value) (copied S C₁ M f keys value) = d.label.zeroKeys ∧
      ∀ key ∈ d.label.zeroKeys, copied S C₂ M f (C₁.keys M f keys value)
        (copied S C₁ M f keys value) key = .zero d.kind := by
  cases h₂ : C₂.shows M d with
  | false =>
    have hkeys : C₂.keys M f (C₁.keys M f keys value) (copied S C₁ M f keys value) =
        d.label.zeroKeys := keys_hidden hd h₂
    exact ⟨hkeys, fun key hk => copied_hidden hd h₂ (hkeys ▸ hk)⟩
  | true =>
    have h₁ : C₁.shows M d = false := by simpa [h₂] using hs
    have hkeys₁ : C₁.keys M f keys value = d.label.zeroKeys := keys_hidden hd h₁
    have hval : ∀ key ∈ d.label.zeroKeys, copied S C₁ M f keys value key = .zero d.kind :=
      fun key hk => copied_hidden hd h₁ (hkeys₁ ▸ hk)
    have hkeys : C₂.keys M f (C₁.keys M f keys value) (copied S C₁ M f keys value) =
        d.label.zeroKeys := by
      rw [keys_shown hd h₂, hkeys₁]
      refine (List.filter_congr fun key hk => ?_).trans (filter_zeroKeys C₂ d)
      rw [hval key hk]
    refine ⟨hkeys, fun key hk => ?_⟩
    rw [copied_shown hd h₂ (hkeys ▸ hk), hval key hk, copy_zero]

/-- Empty or nil is what a slice stays in a copy. -/
theorem isEmptyBytes_copy : (v.copy S C .bytes).isEmptyBytes = v.isEmptyBytes := by
  cases v with
  | bytes b =>
    refine decide_eq_decide.2 ?_
    rw [sameBytes_copyBytes b]
  | number | enum | text | null | message => rfl

/-- An entry that is not nil is nil in a copy if it is empty. -/
theorem isNilBytes_copy (hv : v.isNilBytes = false) :
    (v.copy S C .bytes).isNilBytes = false ↔ v ≠ .bytes (some []) := by
  cases v with
  | bytes b =>
    cases b with
    | none => cases hv
    | some x =>
      rw [Value.copy, copyBytes]
      by_cases hx : x = []
      · simp [hx, Value.isNilBytes]
      · simp [hx, Value.isNilBytes]
  | number | enum | text | null | message => simp [Value.copy, Value.isNilBytes]

variable (S keys value) in
/-- The keys and values of a field after two copies that show it. -/
theorem shown_twice (hd : M.field? f = some d) (hs₁ : C₁.shows M d = true)
    (hs₂ : C₂.shows M d = true) (h₁ : C₁.omits = C.omits) (h₂ : C₂.omits = C.omits) :
    C₂.keys M f (C₁.keys M f keys value) (copied S C₁ M f keys value) =
        (keys.filter fun key => !C.drops d (value key)).filter
          (fun key => !C.drops d ((value key).copy S C₁ d.kind)) ∧
      ∀ key ∈ C₂.keys M f (C₁.keys M f keys value) (copied S C₁ M f keys value),
        copied S C₂ M f (C₁.keys M f keys value) (copied S C₁ M f keys value) key =
          ((value key).copy S C₁ d.kind).copy S C₂ d.kind := by
  have hdrops : ∀ {C' : Copying}, C'.omits = C.omits → ∀ x, C'.drops d x = C.drops d x := by
    intro C' h x
    rw [Copying.drops, Copying.drops, h]
  have hkeys₁ : C₁.keys M f keys value = keys.filter fun key => !C.drops d (value key) := by
    rw [keys_shown hd hs₁]
    exact List.filter_congr fun key _ => by rw [hdrops h₁]
  have hvals₁ : ∀ key ∈ C₁.keys M f keys value,
      copied S C₁ M f keys value key = (value key).copy S C₁ d.kind :=
    fun key hk => copied_shown hd hs₁ hk
  constructor
  · rw [keys_shown hd hs₂, ← hkeys₁]
    exact List.filter_congr fun key hk => by rw [hdrops h₂, hvals₁ key hk]
  · intro key hk
    have hk₁ : key ∈ C₁.keys M f keys value := by
      rw [keys_shown hd hs₂] at hk
      exact (List.mem_filter.1 hk).1
    rw [copied_shown hd hs₂ hk, hvals₁ key hk₁]

/-- A field in a copy of a copy. -/
theorem alike_field_iff (hd : M.field? f = some d)
    (hshows : C.shows M d = (C₁.shows M d && C₂.shows M d)) (h₁ : C₁.omits = C.omits)
    (h₂ : C₂.omits = C.omits)
    (ih : ∀ key, Alike S ((value key).copy S C d.kind)
      (((value key).copy S C₁ d.kind).copy S C₂ d.kind) d.kind ↔
        Steady S C.shows (value key) d.kind) :
    (if d.label = .optional ∧ d.kind = .bytes then
      sliceOf (C₂.keys M f (C₁.keys M f keys value) (copied S C₁ M f keys value))
        (copied S C₂ M f (C₁.keys M f keys value) (copied S C₁ M f keys value)) =
          sliceOf (C.keys M f keys value) (copied S C M f keys value)
      else C₂.keys M f (C₁.keys M f keys value) (copied S C₁ M f keys value) =
          C.keys M f keys value ∧
        ∀ key ∈ C.keys M f keys value, Alike S (copied S C M f keys value key)
          (copied S C₂ M f (C₁.keys M f keys value) (copied S C₁ M f keys value) key) d.kind) ↔
      (C.shows M d = true → ∀ key ∈ keys,
        (d.label = .map → d.kind = .bytes → value key ≠ .bytes (some [])) ∧
          Steady S C.shows (value key) d.kind) := by
  cases hs : C.shows M d with
  | false =>
    -- hidden by one of the two
    obtain ⟨hkeys, hvals⟩ := hidden_twice S keys value hd (hshows ▸ hs)
    rw [hkeys, keys_hidden hd hs]
    refine iff_of_true ?_ (by simp)
    split_ifs with hopt
    · rw [hopt.1]
      rfl
    · refine ⟨rfl, fun key hk => ?_⟩
      rw [hvals key hk, copied_hidden hd hs (by rwa [keys_hidden hd hs])]
      exact alike_zero d.kind
  | true =>
    obtain ⟨hs₁, hs₂⟩ : C₁.shows M d = true ∧ C₂.shows M d = true := by
      rw [← Bool.and_eq_true, ← hshows, hs]
    obtain ⟨hkeys₂, hvals₂⟩ := shown_twice S keys value hd hs₁ hs₂ h₁ h₂
    have hkeys : C.keys M f keys value = keys.filter fun key => !C.drops d (value key) :=
      keys_shown hd hs
    have hvals := fun key (hk : key ∈ C.keys M f keys value) =>
      copied_shown (S := S) hd hs hk
    simp only [forall_const]
    by_cases hopt : d.label = .optional ∧ d.kind = .bytes
    · -- an optional slice: what is empty is left out both times, or not at all
      have hsame : ∀ x, C.drops d (x.copy S C₁ d.kind) = C.drops d x := by
        intro x
        simp only [Copying.drops, hopt.1, hopt.2, isEmptyBytes_copy]
      have hkeys₂' : C₂.keys M f (C₁.keys M f keys value) (copied S C₁ M f keys value) =
          C.keys M f keys value := by
        rw [hkeys₂, hkeys, List.filter_filter]
        exact List.filter_congr fun key _ => by rw [hsame, Bool.and_self]
      rw [hkeys₂'] at hvals₂
      rw [if_pos hopt, hkeys₂']
      refine iff_of_true (List.flatMap_congr fun key hk => ?_) fun key _ => ⟨?_, ?_⟩
      · rw [hvals key hk, hvals₂ key hk, hopt.2, slice_copy, slice_copy, slice_copy]
      · rw [hopt.1]
        exact fun h => by cases h
      · rw [hopt.2]
        exact steady_bytes
    rw [if_neg hopt]
    by_cases hmap : d.label = .map ∧ d.kind = .bytes
    · -- a map to bytes: the second copy leaves out what the first one has made nil
      have hdrops : ∀ x, C.drops d x = x.isNilBytes := fun x => by
        simp only [Copying.drops, hmap.1, hmap.2]
      have hiff : C₂.keys M f (C₁.keys M f keys value) (copied S C₁ M f keys value) =
          C.keys M f keys value ↔ ∀ key ∈ keys, value key ≠ .bytes (some []) := by
        rw [hkeys₂, hkeys, List.filter_eq_self]
        simp only [hdrops, hmap.2, List.mem_filter, Bool.not_eq_true']
        refine forall_congr' fun key => ⟨fun h hk => ?_, fun h hk => ?_⟩
        · cases hnil : (value key).isNilBytes with
          | true =>
            intro heq
            rw [heq] at hnil
            cases hnil
          | false => exact (isNilBytes_copy hnil).1 (h ⟨hk, hnil⟩)
        · exact (isNilBytes_copy hk.2).2 (h hk.1)
      constructor
      · rintro ⟨heq, -⟩ key hk
        exact ⟨fun _ _ => hiff.1 heq key hk, by rw [hmap.2]; exact steady_bytes⟩
      · intro h
        have heq := hiff.2 fun key hk => (h key hk).1 hmap.1 hmap.2
        rw [heq] at hvals₂
        refine ⟨heq, fun key hk => ?_⟩
        rw [hvals key hk, hvals₂ key hk, ih key, hmap.2]
        exact steady_bytes
    · -- all keys are copied
      have hno : ∀ x, C.drops d x = false := fun x => drops_eq_false hmap hopt
      simp only [hno, Bool.not_false, List.filter_true] at hkeys₂ hkeys
      rw [hkeys] at hvals ⊢
      rw [hkeys₂] at hvals₂ ⊢
      rw [eq_self, true_and]
      refine forall₂_congr fun key hk => ?_
      rw [hvals key hk, hvals₂ key hk, ih key]
      exact (and_iff_right fun hl hk => absurd ⟨hl, hk⟩ hmap).symm

/-- What is left out of an optional slice has no bytes. -/
theorem sliceOf_shown (hd : M.field? f = some d) (hs : C.shows M d = true)
    (hopt : d.label = .optional ∧ d.kind = .bytes) :
    sliceOf (C.keys M f keys value) (copied S C M f keys value) = sliceOf keys value := by
  have hvals : sliceOf (C.keys M f keys value) (copied S C M f keys value) =
      sliceOf (C.keys M f keys value) value :=
    List.flatMap_congr fun key hk => by rw [copied_shown hd hs hk, hopt.2, slice_copy]
  rw [hvals, keys_shown hd hs]
  have hempty : ∀ x, C.drops d x = true → x.slice = [] := by
    intro x hx
    simp only [Copying.drops, hopt.1, hopt.2, Bool.and_eq_true] at hx
    cases x with
    | bytes b => exact of_decide_eq_true hx.2
    | number | enum | text | null | message => rfl
  clear hvals
  unfold sliceOf
  induction keys with
  | nil => rfl
  | cons key keys ih =>
    cases hdrop : C.drops d (value key) with
    | true => simp [hdrop, hempty _ hdrop, ih]
    | false => simp [hdrop, ih]

/-- A field in two copies that differ in the empty slices they leave out. -/
theorem alike_field (hd : M.field? f = some d) (hshows : C₁.shows = C.shows)
    (ih : ∀ key, Alike S ((value key).copy S C d.kind) ((value key).copy S C₁ d.kind) d.kind) :
    if d.label = .optional ∧ d.kind = .bytes then
      sliceOf (C₁.keys M f keys value) (copied S C₁ M f keys value) =
        sliceOf (C.keys M f keys value) (copied S C M f keys value)
    else C₁.keys M f keys value = C.keys M f keys value ∧
      ∀ key ∈ C.keys M f keys value,
        Alike S (copied S C M f keys value key) (copied S C₁ M f keys value key) d.kind := by
  have hshows' : C₁.shows M d = C.shows M d := by rw [hshows]
  cases hs : C.shows M d with
  | false =>
    have hs₁ := hshows'.trans hs
    rw [keys_hidden hd hs₁, keys_hidden hd hs]
    split_ifs with hopt
    · rw [hopt.1]
      rfl
    · refine ⟨rfl, fun key hk => ?_⟩
      rw [copied_hidden hd hs (by rwa [keys_hidden hd hs]),
        copied_hidden hd hs₁ (by rwa [keys_hidden hd hs₁])]
      exact alike_zero d.kind
  | true =>
    have hs₁ := hshows'.trans hs
    split_ifs with hopt
    · rw [sliceOf_shown hd hs hopt, sliceOf_shown hd hs₁ hopt]
    · have hdrops : ∀ x, C₁.drops d x = C.drops d x := by
        intro x
        unfold Copying.drops
        split
        · rfl
        · exact absurd ⟨‹_›, ‹_›⟩ hopt
        · rfl
      have hkeys : C₁.keys M f keys value = C.keys M f keys value := by
        rw [keys_shown hd hs₁, keys_shown hd hs]
        exact List.filter_congr fun key _ => by rw [hdrops]
      refine ⟨hkeys, fun key hk => ?_⟩
      rw [copied_shown hd hs hk, copied_shown hd hs₁ (hkeys ▸ hk)]
      exact ih key

end Field

/-- **A copy of a copy is a copy**, if and only if no entry of a map to bytes that is shown is set
and empty. -/
theorem alike_copy_copy_iff (hshows : ∀ M d, C.shows M d = (C₁.shows M d && C₂.shows M d))
    (h₁ : C₁.omits = C.omits) (h₂ : C₂.omits = C.omits) :
    Alike S (v.copy S C kind) ((v.copy S C₁ kind).copy S C₂ kind) kind ↔
      Steady S C.shows v kind := by
  induction v generalizing kind with
  | number z => exact iff_of_true rfl trivial
  | enum z => exact iff_of_true rfl trivial
  | text b => exact iff_of_true rfl trivial
  | null => exact iff_of_true rfl trivial
  | bytes b =>
    cases kind with
    | bytes => exact iff_of_true ⟨_, rfl, sameBytes_copyBytes (copyBytes b)⟩ trivial
    | string | message _ | scalar | enum => exact iff_of_true rfl trivial
  | message keys value ih =>
    cases kind with
    | bytes | string | scalar | enum => exact iff_of_true rfl trivial
    | message name =>
      cases hS : S name with
      | none =>
        simp only [Value.copy, hS, Alike, Steady]
        simp
      | some M =>
        rw [copy_message hS, copy_message hS, copy_message hS, Alike, hS, Steady, hS]
        constructor
        · rintro ⟨_, _, heq, h⟩ M' hM' f d hd
          cases heq
          cases hM'
          exact (alike_field_iff hd (hshows M d) h₁ h₂ fun key => ih f key).1 (h f d hd)
        · intro h
          exact ⟨_, _, rfl, fun f d hd =>
            (alike_field_iff hd (hshows M d) h₁ h₂ fun key => ih f key).2 (h M rfl f d hd)⟩

/-- Two copies that show the same differ in nil and empty slices only. -/
theorem alike_copy (hshows : C₁.shows = C.shows) :
    Alike S (v.copy S C kind) (v.copy S C₁ kind) kind := by
  induction v generalizing kind with
  | number z => rfl
  | enum z => rfl
  | text b => rfl
  | null => rfl
  | bytes b =>
    cases kind with
    | bytes => exact ⟨_, rfl, rfl⟩
    | string | message _ | scalar | enum => rfl
  | message keys value ih =>
    cases kind with
    | bytes | string | scalar | enum => rfl
    | message name =>
      cases hS : S name with
      | none => simp only [Value.copy, hS, Alike]
      | some M =>
        rw [copy_message hS, copy_message hS, Alike, hS]
        exact ⟨_, _, rfl, fun f d hd => alike_field hd hshows fun key => ih f key⟩

end Copies

/-! ### `View` and `Clone` -/

section Action

variable {S : Schema} {level : AccessLevel} {v : Value} {kind : Kind}

theorem viewKeys_eq_keys {M : MessageDesc} {f : String} {keys : List (Option String)}
    {value : Option String → Value} :
    M.viewKeys level f keys value = (viewing level).keys M f keys value := by
  unfold MessageDesc.viewKeys Copying.keys
  cases M.field? f with
  | none => rfl
  | some d =>
    have hkeys : d.copiedKeys keys value =
        keys.filter fun key => !(viewing level).drops d (value key) := by
      unfold FieldDesc.copiedKeys
      split_ifs with hmap
      · simp only [Copying.drops, hmap.1, hmap.2]
      · refine (List.filter_eq_self.2 fun key _ => ?_).symm
        unfold Copying.drops
        split
        · exact absurd ⟨‹_›, ‹_›⟩ hmap
        · rfl
        · rfl
    dsimp only
    rw [hkeys]
    exact if_congr decide_eq_true_iff.symm rfl rfl

theorem cloneKeys_eq_keys {M : MessageDesc} {f : String} {keys : List (Option String)}
    {value : Option String → Value} :
    M.cloneKeys f keys value = cloning.keys M f keys value := by
  unfold MessageDesc.cloneKeys Copying.keys
  cases M.field? f with
  | none => rfl
  | some d =>
    refine List.filter_congr fun key _ => congrArg (!·) ?_
    unfold FieldDesc.leavesOut Copying.drops
    cases d.label <;> cases d.kind <;> rfl

theorem view_eq_copy : v.view S level kind = v.copy S (viewing level) kind := by
  induction v generalizing kind with
  | number | enum | text | null => rfl
  | bytes b => cases kind <;> rfl
  | message keys value ih =>
    cases kind with
    | bytes | string | scalar | enum => rfl
    | message name =>
      rw [Value.view, Value.copy]
      cases S name with
      | none => rfl
      | some M =>
        simp only [viewKeys_eq_keys, ih]
        congr 1
        funext f key
        cases M.field? f with
        | none => rfl
        | some d => exact if_congr Iff.rfl (if_congr decide_eq_true_iff.symm rfl rfl) rfl

theorem clone_eq_copy : v.clone S kind = v.copy S cloning kind := by
  induction v generalizing kind with
  | number | enum | text | null => rfl
  | bytes b => cases kind <;> rfl
  | message keys value ih =>
    cases kind with
    | bytes | string | scalar | enum => rfl
    | message name =>
      rw [Value.clone, Value.copy]
      cases S name with
      | none => rfl
      | some M =>
        simp only [cloneKeys_eq_keys, ih]
        rfl

theorem reaches_min {a b required : AccessLevel} :
    (a.min b).Reaches required ↔ b.Reaches required ∧ a.Reaches required := by
  unfold AccessLevel.min AccessLevel.Reaches
  split_ifs <;> omega

/-- **`View` and `Clone` are copies at the levels**, if and only if no entry of a map to bytes that
is shown is set and empty; the operator's view is the copy in any case. -/
theorem view_clone_action (S : Schema) (v : Value) (name : String) :
    (∀ a b, Alike S (v.view S (a.min b) (.message name))
        ((v.view S b (.message name)).view S a (.message name)) (.message name) ↔
      Steady S (fun M d => M.Shows (a.min b) d) v (.message name)) ∧
    (Alike S (v.clone S (.message name)) ((v.clone S (.message name)).clone S (.message name))
        (.message name) ↔
      Steady S (fun _ _ => true) v (.message name)) ∧
    Alike S (v.view S .operator (.message name)) (v.clone S (.message name)) (.message name) := by
  simp only [view_eq_copy, clone_eq_copy]
  refine ⟨fun a b => alike_copy_copy_iff (fun M d => ?_) rfl rfl,
    alike_copy_copy_iff (fun M d => rfl) rfl rfl, alike_copy ?_⟩
  · have hshows : M.Shows (a.min b) d ↔ M.Shows b d ∧ M.Shows a d := by
      simp only [MessageDesc.Shows, reaches_min, forall₂_and]
    refine Bool.eq_iff_iff.2 (decide_eq_true_iff.trans (hshows.trans ?_))
    rw [Bool.and_eq_true]
    exact and_congr decide_eq_true_iff.symm decide_eq_true_iff.symm
  · funext M d
    exact (decide_eq_true (shows_iff.2 (visible_operator M d))).symm

/-! ### A map with an empty entry -/

/-- `message Tags { map<string, bytes> tags = 1; }` -/
def tags : MessageDesc where
  goName := "Tags"
  fields := [⟨"Tags", "tags", .map, .bytes, false, "", .unspecified⟩]
  distinct := by decide

/-- The entry `"k"` is set, and empty. -/
def tagged : Value := .message (fun _ => [some "k"]) fun _ _ => .bytes (some [])

/-- The message types. -/
def tagSchema : Schema := fun _ => some tags

/-- The copy of the copy has lost the entry, and so has the view of the view. -/
theorem copies_lose :
    ¬ Alike tagSchema (tagged.clone tagSchema (.message "Tags"))
      ((tagged.clone tagSchema (.message "Tags")).clone tagSchema (.message "Tags"))
      (.message "Tags") ∧
    ¬ Alike tagSchema (tagged.view tagSchema .operator (.message "Tags"))
      ((tagged.view tagSchema .operator (.message "Tags")).view tagSchema .operator
        (.message "Tags")) (.message "Tags") := by
  constructor
  · rintro ⟨_, _, heq, h⟩
    cases heq
    exact absurd (h "Tags" _ rfl).1 (by decide)
  · rintro ⟨_, _, heq, h⟩
    cases heq
    exact absurd (h "Tags" _ rfl).1 (by decide)

end Action

end Codegen

end EventStore
