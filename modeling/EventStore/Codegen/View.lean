import EventStore.Codegen.Values

/-!
# `View`

`emitViewMethod` writes for each message a copy that leaves out the fields above the level of the
caller.  The gate of a field is a constant the generator puts into the code (`levelConstName`, and
`strictestOneofLevel` for a oneof); nested messages are copied by their own `View`.

* `shows_iff` : the gates are those of `es.MinLevelFor`.
* `view_eq_of_agree` : a copy depends on the visible fields only.
* `agree_view` : and has all of them.
-/

namespace EventStore

namespace Codegen

/-! ### The gates -/

/-- `levelConstName`; nothing where no gate is written. -/
def levelConstName : DataClassification → Option AccessLevel
  | .unspecified | .pub => none
  | .internal => some .internal
  | .personal | .quasiIdentifier | .unstructured => some .subject
  | .sensitive | .financial | .cardholder => some .compliance
  | .credential => some .operator
  | .sad => some .operator

/-- The function `rank` in `strictestOneofLevel`. -/
def oneofRank : DataClassification → ℕ
  | .unspecified | .pub => 0
  | .internal => 1
  | .personal | .quasiIdentifier | .unstructured => 2
  | .sensitive | .financial | .cardholder => 3
  | .credential => 4
  | .sad => 4

/-- The loop of `strictestOneofLevel`. -/
def highestRank (variants : List FieldDesc) : ℕ :=
  variants.foldl (fun highest d =>
    if oneofRank d.classification > highest then oneofRank d.classification else highest) 0

/-- `strictestOneofLevel`. -/
def strictestOneofLevel (variants : List FieldDesc) : Option AccessLevel :=
  match highestRank variants with
  | 0 => none
  | 1 => some .internal
  | 2 => some .subject
  | 3 => some .compliance
  | _ => some .operator

namespace MessageDesc

variable (M : MessageDesc)

/-- The gate `emitViewMethod` writes for a field. -/
def gate (d : FieldDesc) : Option AccessLevel :=
  if d.label.isOneof then strictestOneofLevel (M.fields.filter fun g => g.label = d.label)
  else if d.isSubject then none
  else levelConstName d.classification

/-- The gate lets the level through. -/
def Shows (level : AccessLevel) (d : FieldDesc) : Prop :=
  ∀ required ∈ M.gate d, level.Reaches required

instance (level : AccessLevel) (d : FieldDesc) : Decidable (M.Shows level d) :=
  inferInstanceAs (Decidable (∀ required ∈ M.gate d, level.Reaches required))

end MessageDesc

/-! ### The copy -/

/-- The copy of a byte slice; an empty one is nil. -/
def copyBytes (b : Option Bytes) : Option Bytes := if b.getD [] = [] then none else b

/-- The keys of the copy of a field.  In a map to bytes, nil slices are left out. -/
def FieldDesc.copiedKeys (d : FieldDesc) (keys : List (Option String))
    (value : Option String → Value) : List (Option String) :=
  if d.label = .map ∧ d.kind = .bytes then keys.filter fun key => !(value key).isNilBytes else keys

/-- The keys of a field that is not set. -/
def Label.zeroKeys : Label → List (Option String)
  | .singular => [none]
  | .optional | .repeated | .map | .oneof _ => []

/-- The keys of a field in the view. -/
def MessageDesc.viewKeys (M : MessageDesc) (level : AccessLevel) (f : String)
    (keys : List (Option String)) (value : Option String → Value) : List (Option String) :=
  match M.field? f with
  | none => []
  | some d => if M.Shows level d then d.copiedKeys keys value else d.label.zeroKeys

/-- `View`, and the copies of other values it makes. -/
def Value.view (S : Schema) (level : AccessLevel) : Value → Kind → Value
  | .message keys value, .message name =>
    match S name with
    -- a type without `View`: the pointer is copied
    | none => .message keys value
    | some M =>
      .message (fun f => M.viewKeys level f (keys f) (value f)) fun f key =>
        match M.field? f with
        | none => .null
        | some d =>
          if key ∈ M.viewKeys level f (keys f) (value f) then
            if M.Shows level d then (value f key).view S level d.kind else .zero d.kind
          else .null
  | .bytes b, .bytes => .bytes (copyBytes b)
  | v, _ => v

/-! ### The gates are those of the levels -/

section Gates

variable {M : MessageDesc} {level : AccessLevel} {d : FieldDesc}

theorem levelConstName_reaches (c : DataClassification) :
    (∀ required ∈ levelConstName c, level.Reaches required) ↔ level.Reaches (minLevelFor c) := by
  cases c <;> simp [levelConstName, minLevelFor, AccessLevel.Reaches, AccessLevel.rank]

theorem oneofRank_eq (c : DataClassification) : oneofRank c = (minLevelFor c).rank := by
  cases c <;> rfl

theorem highestRank_le (variants : List FieldDesc) (n : ℕ) :
    highestRank variants ≤ n ↔ ∀ g ∈ variants, (minLevelFor g.classification).rank ≤ n := by
  have hloop : ∀ h, variants.foldl (fun highest d => if oneofRank d.classification > highest then
      oneofRank d.classification else highest) h ≤ n ↔
      h ≤ n ∧ ∀ g ∈ variants, (minLevelFor g.classification).rank ≤ n := by
    induction variants with
    | nil => simp
    | cons g gs ih =>
      intro h
      have hmax : (if oneofRank g.classification > h then oneofRank g.classification else h) ≤ n ↔
          h ≤ n ∧ (minLevelFor g.classification).rank ≤ n := by
        rw [oneofRank_eq]
        split_ifs <;> omega
      rw [List.foldl_cons, ih, List.forall_mem_cons, hmax, and_assoc]
  rw [highestRank, hloop]
  simp

theorem strictestOneofLevel_reaches (variants : List FieldDesc) :
    (∀ required ∈ strictestOneofLevel variants, level.Reaches required) ↔
      ∀ g ∈ variants, level.Reaches (minLevelFor g.classification) := by
  have h4 : highestRank variants ≤ 4 := by
    rw [highestRank_le]
    intro g _
    cases g.classification <;> decide
  have hle := highestRank_le variants level.rank
  unfold AccessLevel.Reaches
  rw [← hle]
  unfold strictestOneofLevel
  generalize highestRank variants = n at h4
  obtain rfl | rfl | rfl | rfl | rfl : n = 0 ∨ n = 1 ∨ n = 2 ∨ n = 3 ∨ n = 4 := by omega
  all_goals simp [AccessLevel.rank]

/-- **The generator writes the gates of `es.MinLevelFor`.** -/
theorem shows_iff : M.Shows level d ↔ M.Visible level d := by
  unfold MessageDesc.Shows MessageDesc.gate MessageDesc.Visible
  split_ifs with hone hsub
  · rw [strictestOneofLevel_reaches]
    simp [List.mem_filter]
  · simp [hsub]
  · rw [levelConstName_reaches]
    simp [hsub]

end Gates

/-! ### What a view shows -/

section View

variable {S : Schema} {level : AccessLevel} {v w : Value} {kind : Kind}

/-- Nowhere in the value is a map to bytes with a nil slice. -/
def Solid (S : Schema) : Value → Kind → Prop
  | .message keys value, .message name =>
    ∀ M, S name = some M → ∀ f d, M.field? f = some d → ∀ key ∈ keys f,
      (d.label = .map → d.kind = .bytes → (value f key).isNilBytes = false) ∧
        Solid S (value f key) d.kind
  | _, _ => True

theorem copyBytes_eq {b b' : Option Bytes} (h : SameBytes b b') : copyBytes b = copyBytes b' := by
  unfold SameBytes at h
  unfold copyBytes
  rw [h]
  split_ifs with hne
  · rfl
  · -- both are there, so they are the same slice
    cases b with
    | none => exact absurd rfl hne
    | some x =>
      cases b' with
      | none => exact absurd h.symm hne
      | some y => exact congrArg some h.symm

theorem sameBytes_copyBytes (b : Option Bytes) : SameBytes b (copyBytes b) := by
  unfold SameBytes copyBytes
  split_ifs with hb
  · exact hb.symm
  · rfl

/-- Without nil slices in maps, all keys are copied. -/
theorem copiedKeys_eq {d : FieldDesc} {keys : List (Option String)}
    {value : Option String → Value}
    (h : d.label = .map → d.kind = .bytes → ∀ key ∈ keys, (value key).isNilBytes = false) :
    d.copiedKeys keys value = keys := by
  unfold FieldDesc.copiedKeys
  split_ifs with hmap
  · rw [List.filter_eq_self]
    intro key hkey
    rw [h hmap.1 hmap.2 key hkey]
    rfl
  · rfl

/-- The keys of a field in the view, where there is no nil slice. -/
theorem viewKeys_eq {M : MessageDesc} {f : String} {d : FieldDesc} (hd : M.field? f = some d)
    {keys : List (Option String)} {value : Option String → Value}
    (h : ∀ key ∈ keys, d.label = .map → d.kind = .bytes → (value key).isNilBytes = false) :
    M.viewKeys level f keys value = if M.Visible level d then keys else d.label.zeroKeys := by
  unfold MessageDesc.viewKeys
  rw [hd]
  dsimp only
  rw [copiedKeys_eq fun hl hk key hkey => h key hkey hl hk]
  exact if_congr shows_iff rfl rfl

/-- **A view depends on the visible fields only.** -/
theorem view_eq_of_agree (hv : Solid S v kind) (hw : Solid S w kind)
    (h : Agree S level SameBytes v w kind) : v.view S level kind = w.view S level kind := by
  induction v generalizing w kind with
  | number z =>
    obtain rfl : w = .number z := h
    rfl
  | enum z =>
    obtain rfl : w = .enum z := h
    rfl
  | text b =>
    obtain rfl : w = .text b := h
    rfl
  | null =>
    obtain rfl : w = .null := h
    rfl
  | bytes b =>
    cases kind with
    | bytes =>
      obtain ⟨b', rfl, hsame⟩ := h
      exact congrArg Value.bytes (copyBytes_eq hsame)
    | string | message _ | scalar | enum =>
      obtain rfl : w = .bytes b := h
      rfl
  | message keys value ih =>
    cases kind with
    | bytes | string | scalar | enum =>
      obtain rfl : w = .message keys value := h
      rfl
    | message name =>
      cases hS : S name with
      | none =>
        rw [Agree, hS] at h
        obtain rfl : w = .message keys value := h
        rfl
      | some M =>
        rw [Agree, hS] at h
        obtain ⟨keys', value', rfl, hagree⟩ := h
        -- field by field: the keys, then the values
        have hkeys : ∀ f, M.viewKeys level f (keys f) (value f) =
            M.viewKeys level f (keys' f) (value' f) := by
          intro f
          cases hd : M.field? f with
          | none => simp [MessageDesc.viewKeys, hd]
          | some d =>
            rw [viewKeys_eq hd fun key hk => (hv M hS f d hd key hk).1,
              viewKeys_eq hd fun key hk => (hw M hS f d hd key hk).1]
            by_cases hvis : M.Visible level d
            · rw [if_pos hvis, if_pos hvis, (hagree f d hd hvis).1]
            · rw [if_neg hvis, if_neg hvis]
        rw [Value.view, Value.view, hS]
        dsimp only
        congr 1
        · funext f
          exact hkeys f
        · funext f key
          rw [hkeys f]
          cases hd : M.field? f with
          | none => rfl
          | some d =>
            dsimp only
            by_cases hvis : M.Shows level d
            · split_ifs with hmem
              · rw [viewKeys_eq hd fun key hk => (hw M hS f d hd key hk).1,
                  if_pos (shows_iff.1 hvis)] at hmem
                obtain ⟨hsame, hvals⟩ := hagree f d hd (shows_iff.1 hvis)
                have hmem' : key ∈ keys f := hsame ▸ hmem
                exact ih f key (hv M hS f d hd key hmem').2 (hw M hS f d hd key hmem).2
                  (hvals key hmem')
              · rfl
            · simp only [if_neg hvis]

/-- **A view has all visible fields.** -/
theorem agree_view (hv : Solid S v kind) :
    Agree S level SameBytes v (v.view S level kind) kind := by
  induction v generalizing kind with
  | number z => rfl
  | enum z => rfl
  | text b => rfl
  | null => rfl
  | bytes b =>
    cases kind with
    | bytes => exact ⟨copyBytes b, rfl, sameBytes_copyBytes b⟩
    | string | message _ | scalar | enum => rfl
  | message keys value ih =>
    cases kind with
    | bytes | string | scalar | enum => rfl
    | message name =>
      cases hS : S name with
      | none =>
        rw [Agree, Value.view, hS]
      | some M =>
        rw [Agree, Value.view, hS]
        refine ⟨_, _, rfl, fun f d hd hvis => ?_⟩
        have hkeys : M.viewKeys level f (keys f) (value f) = keys f := by
          rw [viewKeys_eq hd fun key hk => (hv M hS f d hd key hk).1, if_pos hvis]
        refine ⟨hkeys, fun key hkey => ?_⟩
        rw [hkeys, hd]
        simp only [if_pos hkey, if_pos (shows_iff.2 hvis)]
        exact ih f key (hv M hS f d hd key hkey).2

/-- **`View` shows the visible fields and nothing else**: messages that agree on them have the same
view, and the view agrees with the message. -/
theorem view_noninterferent (S : Schema) (level : AccessLevel) (name : String)
    (hv : Solid S v (.message name)) :
    (∀ w, Solid S w (.message name) → Agree S level SameBytes v w (.message name) →
      v.view S level (.message name) = w.view S level (.message name)) ∧
    Agree S level SameBytes v (v.view S level (.message name)) (.message name) :=
  ⟨fun _ hw h => view_eq_of_agree hv hw h, agree_view hv⟩

end View

/-! ### A profile -/

namespace Profile

/-- `message Profile { string nick = 1; string email = 2 [PERSONAL]; oneof contact { string phone =
3; bytes fax = 4 [INTERNAL]; } }` -/
def profile : MessageDesc where
  goName := "Profile"
  fields := [⟨"Nick", "nick", .singular, .string, false, "", .unspecified⟩,
    ⟨"Email", "email", .singular, .string, false, "", .personal⟩,
    ⟨"Phone", "phone", .oneof "contact", .string, false, "", .unspecified⟩,
    ⟨"Fax", "fax", .oneof "contact", .bytes, false, "", .internal⟩]
  distinct := by decide

/-- The message types. -/
def schema : Schema := fun name => if name = "Profile" then some profile else none

/-- A profile with an email and a phone. -/
def of (email phone : Bytes) : Value :=
  .message (fun f => if f = "Fax" then [] else [none]) fun f _ =>
    if f = "Nick" then .text [78] else if f = "Email" then .text email else
    if f = "Phone" then .text phone else .null

theorem solid (email phone : Bytes) : Solid schema (of email phone) (.message "Profile") := by
  rintro M hM f d hd key -
  cases hM
  obtain ⟨hmem, rfl⟩ := MessageDesc.field?_eq_some.1 hd
  have hlabel : ∀ d ∈ profile.fields, d.label ≠ .map := by decide
  refine ⟨fun hl => absurd hl (hlabel d hmem), ?_⟩
  -- none of the values is a message
  dsimp only
  split_ifs <;> trivial

end Profile

/-- At the level of the public, profiles with different emails and phones are the same, and the
name is there. -/
theorem profile_public :
    Agree Profile.schema .pub SameBytes (Profile.of [1] [2]) (Profile.of [3] [4])
      (.message "Profile") ∧
    (Profile.of [1] [2]).view Profile.schema .pub (.message "Profile") =
      (Profile.of [3] [4]).view Profile.schema .pub (.message "Profile") := by
  have hagree : Agree Profile.schema .pub SameBytes (Profile.of [1] [2]) (Profile.of [3] [4])
      (.message "Profile") := by
    refine ⟨_, _, rfl, fun f d hd hvis => ⟨rfl, fun key _ => ?_⟩⟩
    obtain ⟨hmem, rfl⟩ := MessageDesc.field?_eq_some.1 hd
    have honly : ∀ d ∈ Profile.profile.fields, Profile.profile.Visible .pub d →
        d.goName = "Nick" := by decide
    rw [honly d hmem hvis]
    exact rfl
  exact ⟨hagree, (view_noninterferent Profile.schema .pub "Profile" (Profile.solid [1] [2])).1 _
    (Profile.solid [3] [4]) hagree⟩

end Codegen

end EventStore
