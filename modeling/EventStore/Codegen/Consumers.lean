import EventStore.Shred.Pii
import EventStore.Workflow.Bus

/-!
# The events consumers see

An envelope is read in three ways.  `Load` decodes it with the codec of the runtime, which may turn
old versions into new ones, and decrypts it (`Runtime.openEvent`).  A projection gets it from the
generated `NewProjectionDispatcher`, which decodes it with the generated codec.  The subscribers of
a command get it from `decodeEvents`, which decodes it with the codec of the runtime.  The last two
know no shredder.

* `dispatch` : `NewProjectionDispatcher`.
* `decrypt_eq_self_iff` : decryption leaves an event as it is iff its encrypted fields are empty.
* `consumers_agree_iff` : **the projection and the subscribers see the event `Load` sees iff the
  generated codec decodes the envelope like the runtime's, and its encrypted fields are empty.**
-/

namespace EventStore

namespace Codegen

open Shred (PIIField PIIEncoder Instance Keys Crypto)

/-! ### The generated codec and dispatcher -/

/-- The variants of an event interface, by their type URLs, with `proto.Unmarshal` for each. -/
structure EventTypes (E : Type) where
  /-- The name of the interface. -/
  name : String
  /-- The proto package. -/
  package : String
  unmarshal : String → Option (Bytes → Except Err E)

namespace EventTypes

variable {E : Type} (T : EventTypes E)

/-- `Decode` of the generated codec; it does not look at the schema version. -/
def decode (typeURL : String) (_schemaVersion : UInt32) (payload : Bytes) : Except Err E :=
  let name := T.name
  match T.unmarshal typeURL with
  | some unmarshal => unmarshal payload
  | none => .error (.text s!"{name}Codec.Decode: unknown type_url \"{typeURL}\"")

/-- `isOurType`. -/
def isOurType (typeURL : String) : Bool := (T.unmarshal typeURL).isSome

/-- The handler of `NewProjectionDispatcher`: the event it hands to the projection, if any. -/
def dispatch (ignoreUnknown : Bool) (env : Envelope) : Except Err (Option E) :=
  let typeURL := env.typeURL
  let package := T.package
  if T.isOurType typeURL then
    ((T.decode typeURL env.schemaVersion env.payload).mapError
      (.wrap s!"projection: decode {typeURL}")).map some
  else if ignoreUnknown then .ok none
  else .error (.text s!"projection: unknown TypeURL \"{typeURL}\" for package {package}")

end EventTypes

/-! ### What decryption does to an event -/

/-- AES-GCM and base64 do not make texts longer when they are undone. -/
structure Shrinks (G : Crypto) : Prop where
  gcmOpen : ∀ dek iv ct pt, G.gcmOpen dek iv ct = some pt → pt.length ≤ ct.length
  decode64 : ∀ s b, G.decode64 s = .ok b → b.length ≤ s.length

/-- The fields of a variant are written and read one by one. -/
structure Separate {E : Type} (on : E → Prop) (fs : List (PIIField E)) : Prop where
  closed : ∀ f ∈ fs, ∀ e b, on e → on (f.set e b)
  get_set : ∀ f ∈ fs, ∀ e b, on e → f.get (f.set e b) = b
  apart : fs.Pairwise (PIIField.Apart on)

section Decrypt

variable {π E : Type} [DecidableEq π] {V : Instance π} {t s subject name : String} {k k' : Keys π}
  {on : E → Prop} {f g : PIIField E} {fs : List (PIIField E)} {e e' : E} {sealed pt : Bytes}

omit [DecidableEq π] in
theorem Separate.tail (h : Separate on (f :: fs)) : Separate on fs where
  closed g hg := h.closed g (List.mem_cons_of_mem f hg)
  get_set g hg := h.get_set g (List.mem_cons_of_mem f hg)
  apart := (List.pairwise_cons.1 h.apart).2

theorem length_aesGCMOpenField {G : Crypto} (hG : Shrinks G) {dek : Bytes}
    (h : Shred.aesGCMOpenField G dek sealed = .ok pt) : pt.length < sealed.length := by
  cases sealed with
  | nil => cases h
  | cons version body =>
    simp only [Shred.aesGCMOpenField] at h
    split_ifs at h with hversion hshort
    · obtain ⟨-, -, hshort⟩ := Except.bind_eq_ok.1 h
      cases hshort
    · obtain ⟨-, -, hopen⟩ := Except.bind_eq_ok.1 h
      split at hopen
      · rename_i x hx
        cases hopen
        have hle := hG.gcmOpen _ _ _ _ hx
        rw [List.length_drop] at hle
        rw [List.length_cons]
        omega
      · cases hopen

/-- A decrypted text is shorter. -/
theorem length_decryptField (hG : Shrinks V.crypto) (h : V.decryptField t s sealed k = .ok pt k') :
    pt.length < sealed.length := by
  unfold Instance.decryptField at h
  obtain ⟨cached, k₁, -, h₁⟩ := EStateM.bind_eq_ok.1 h
  cases cached with
  | some dek => exact length_aesGCMOpenField hG (EStateM.ofExcept_eq_ok.1 h₁).1
  | none =>
    obtain ⟨found, k₂, -, h₂⟩ := EStateM.bind_eq_ok.1 h₁
    cases found with
    | none => cases h₂
    | some row =>
      dsimp only at h₂
      split_ifs at h₂
      · cases h₂
      · obtain ⟨dek, k₃, -, h₃⟩ := EStateM.bind_eq_ok.1 h₂
        obtain ⟨⟨⟩, k₄, -, h₄⟩ := EStateM.bind_eq_ok.1 h₃
        exact length_aesGCMOpenField hG (EStateM.ofExcept_eq_ok.1 h₄).1

/-- A field with a text is changed: to a shorter one, or to none. -/
theorem get_decrypt_ne (hG : Shrinks V.crypto) (hset : ∀ b, f.get (f.set e b) = b)
    (hne : f.get e ≠ []) (h : f.decrypt V t subject name e k = .ok e' k') :
    f.get e' ≠ f.get e := by
  rcases Shred.decrypt_eq_ok.1 h with ⟨hempty, -⟩ | ⟨-, sealed, pt, hunwrap, hpt, rfl⟩
  · exact absurd hempty hne
  · rw [hset]
    have hlen : sealed.length ≤ (f.get e).length := by
      cases hk : f.kind with
      | bytes =>
        rw [hk] at hunwrap
        exact (congrArg List.length (Except.ok.inj hunwrap)).ge
      | string =>
        rw [hk] at hunwrap
        exact hG.decode64 _ _ hunwrap
    unfold Shred.orRedact at hpt
    split at hpt
    · rename_i pt' k'' hdec
      cases hpt
      have hlt := length_decryptField hG hdec
      intro heq
      rw [heq] at hlt
      omega
    · split_ifs at hpt
      cases hpt
      exact hne.symm

/-- The loop leaves a field alone that is none of its own. -/
theorem get_eachField (hclosed : ∀ g ∈ fs, ∀ e b, on e → on (g.set e b))
    (hf : ∀ g ∈ fs, ∀ e b, on e → f.get (g.set e b) = f.get e) (he : on e)
    (h : Shred.eachField (PIIField.decrypt V t subject name) fs e k = .ok e' k') :
    f.get e' = f.get e := by
  induction fs generalizing e k with
  | nil =>
    obtain ⟨rfl, -⟩ := EStateM.pure_eq_ok.1 h
    rfl
  | cons g fs ih =>
    obtain ⟨e₁, k₁, hstep, hloop⟩ := Shred.eachField_cons_eq_ok.1 h
    have hg := List.mem_cons_self (a := g) (l := fs)
    have hone : on e₁ ∧ f.get e₁ = f.get e := by
      rcases Shred.writes_decrypt _ _ _ _ _ hstep with rfl | ⟨b, rfl⟩
      · exact ⟨he, rfl⟩
      · exact ⟨hclosed g hg e b he, hf g hg e b he⟩
    rw [ih (fun g' hg' => hclosed g' (List.mem_cons_of_mem g hg'))
      (fun g' hg' => hf g' (List.mem_cons_of_mem g hg')) hone.1 hloop, hone.2]

/-- **Decryption leaves an event as it is iff its encrypted fields are empty.** -/
theorem decrypt_eq_self_iff (hG : Shrinks V.crypto) (hfs : Separate on fs) (he : on e)
    (h : Shred.eachField (PIIField.decrypt V t subject name) fs e k = .ok e' k') :
    e' = e ↔ ∀ f ∈ fs, f.get e = [] := by
  induction fs generalizing e k with
  | nil =>
    obtain ⟨rfl, -⟩ := EStateM.pure_eq_ok.1 h
    simp
  | cons f fs ih =>
    obtain ⟨e₁, k₁, hstep, hloop⟩ := Shred.eachField_cons_eq_ok.1 h
    have hf := List.mem_cons_self (a := f) (l := fs)
    have hapart := (List.pairwise_cons.1 hfs.apart).1
    rw [List.forall_mem_cons]
    by_cases hempty : f.get e = []
    · -- the step does nothing
      obtain ⟨rfl, rfl⟩ : e₁ = e ∧ k₁ = k := by
        rcases Shred.decrypt_eq_ok.1 hstep with ⟨-, h₁, h₂⟩ | ⟨hne, -⟩
        · exact ⟨h₁, h₂⟩
        · exact absurd hempty hne
      rw [ih hfs.tail he hloop]
      simp [hempty]
    · -- the field is changed, and nothing changes it back
      have hon : on e₁ := by
        rcases Shred.writes_decrypt _ _ _ _ _ hstep with rfl | ⟨b, rfl⟩
        · exact he
        · exact hfs.closed f hf e b he
      have hlater : f.get e' = f.get e₁ :=
        get_eachField hfs.tail.closed (fun g hg e b he => (hapart g hg).get' e b he) hon hloop
      have hne := get_decrypt_ne hG (fun b => hfs.get_set f hf e b he) hempty hstep
      constructor
      · intro heq
        rw [heq] at hlater
        exact absurd hlater.symm hne
      · rintro ⟨hnone, -⟩
        exact absurd hnone hempty

end Decrypt

/-! ### The three ways -/

section Consumers

variable {π S C E : Type} [DecidableEq π] {V : Instance π} {P : E → Option (PIIEncoder E)}
  {rt : Runtime (Keys π) S C E} {T : EventTypes E} {sid : StreamID} {env : Envelope}
  {k k' : Keys π} {evt : E}

theorem openEvent_eq_ok (hrt : rt.shredder = some (V.shredder P))
    (h : rt.openEvent sid env k = .ok evt k') : ∃ e,
      rt.codec.decode env.typeURL env.schemaVersion env.payload = .ok e ∧
        (V.shredder P).decrypt sid e k = .ok evt k' := by
  unfold Runtime.openEvent at h
  obtain ⟨e, k₁, hdec, hopen⟩ := EStateM.bind_eq_ok.1 h
  rw [EStateM.ofExcept_eq_ok, Except.mapError_eq_ok] at hdec
  obtain ⟨hdec, rfl⟩ := hdec
  rw [hrt] at hopen
  exact ⟨e, hdec, EStateM.adaptExcept_eq_ok.1 hopen⟩

omit [DecidableEq π] in
theorem decodeEvents_getElem? {codec : Codec E} {n i : ℕ} {envs : List Envelope} {evts : List E}
    (h : decodeEvents codec n envs = .ok evts) (hi : envs[i]? = some env) {e : E}
    (he : codec.decode env.typeURL env.schemaVersion env.payload = .ok e) :
    evts[i]? = some e := by
  induction envs generalizing n i evts with
  | nil => simp at hi
  | cons env' envs ih =>
    rw [decodeEvents] at h
    obtain ⟨e', hdec, hrest⟩ := Except.bind_eq_ok.1 h
    obtain ⟨rest, hrec, hret⟩ := Except.bind_eq_ok.1 hrest
    cases hret
    rw [Except.mapError_eq_ok] at hdec
    cases i with
    | zero =>
      cases hi
      rw [hdec] at he
      cases he
      rfl
    | succ i =>
      rw [List.getElem?_cons_succ] at hi ⊢
      exact ih hrec hi

/-- The encrypted fields of the event are empty. -/
def NoCipher (P : E → Option (PIIEncoder E)) (e : E) : Prop :=
  ∀ enc, P e = some enc → ∀ f ∈ enc.fields, f.get e = []

/-- **The projection and the subscribers see the event `Load` sees iff the generated codec decodes
the envelope like the runtime's, and the encrypted fields are empty.** -/
theorem consumers_agree_iff (hG : Shrinks V.crypto)
    (hP : ∀ e enc, P e = some enc → Separate (fun e => P e = some enc) enc.fields)
    (hrt : rt.shredder = some (V.shredder P)) (hours : T.isOurType env.typeURL = true)
    (hload : rt.openEvent sid env k = .ok evt k') {n i : ℕ} {envs : List Envelope} {evts : List E}
    (hbus : decodeEvents rt.codec n envs = .ok evts) (hi : envs[i]? = some env)
    (ignoreUnknown : Bool) :
    (T.dispatch ignoreUnknown env = .ok (some evt) ∧ evts[i]? = some evt) ↔
      T.decode env.typeURL env.schemaVersion env.payload =
          rt.codec.decode env.typeURL env.schemaVersion env.payload ∧
        ∀ e, rt.codec.decode env.typeURL env.schemaVersion env.payload = .ok e → NoCipher P e := by
  obtain ⟨e, hdec, hopen⟩ := openEvent_eq_ok hrt hload
  have hevt := decodeEvents_getElem? hbus hi hdec
  have hsame : evt = e ↔ NoCipher P e := by
    cases henc : P e with
    | none =>
      rw [Shred.shredder_decrypt, henc] at hopen
      obtain ⟨rfl, -⟩ := EStateM.pure_eq_ok.1 hopen
      simp [NoCipher, henc]
    | some enc =>
      obtain ⟨-, hloop⟩ := (Shred.decrypt_shredder_eq_ok henc).1 hopen
      rw [decrypt_eq_self_iff hG (hP e enc henc) henc hloop]
      simp [NoCipher, henc]
  have hdispatch : T.dispatch ignoreUnknown env = .ok (some evt) ↔
      T.decode env.typeURL env.schemaVersion env.payload = .ok evt := by
    unfold EventTypes.dispatch
    rw [if_pos hours]
    cases T.decode env.typeURL env.schemaVersion env.payload <;> simp [Except.mapError, Except.map]
  rw [hdispatch, hevt, hdec]
  constructor
  · rintro ⟨hproj, hsub⟩
    obtain rfl := Option.some.inj hsub
    refine ⟨hproj, fun e' he' => ?_⟩
    cases he'
    exact hsame.1 rfl
  · rintro ⟨hproj, hno⟩
    obtain rfl := hsame.2 (hno e rfl)
    exact ⟨hproj, rfl⟩

end Consumers

end Codegen

namespace Shred

/-! ### Memos -/

/-- A memo about a person, with an encrypted text. -/
structure Memo where
  /-- 1 is alice, anyone else is bob. -/
  about : UInt8
  text : Bytes
  deriving DecidableEq

namespace Memo

/-- The field `text`. -/
def textField : PIIField Memo where
  name := "text"
  kind := .bytes
  get := Memo.text
  set e b := { e with text := b }
  subject _ := none

/-- The generated methods. -/
def methods (_ : Memo) : Option (PIIEncoder Memo) :=
  some ⟨"Noted", fun e => if e.about = 1 then "alice" else "bob", [textField], []⟩

theorem lawful : Lawful methods where
  fields _ enc he := by
    obtain rfl := Option.some.inj he
    refine ⟨?_, ?_, ?_, List.pairwise_singleton _ _, ?_⟩ <;> simp [textField, methods]
  subject enc f hf e b he := by
    obtain rfl := Option.some.inj he
    obtain rfl := List.mem_singleton.1 hf
    rfl

/-- A command is a list of memos to add, and the state holds their texts. -/
def decider : Decider Bytes (List Memo) Memo where
  initial := []
  decide _ memos := .ok (memos, [])
  evolve s e := s ++ e.text
  isTerminal := none

/-- A memo in one message. -/
def codec : Codec Memo where
  encode e := .ok ⟨e.about :: e.text, "memo.v1.Noted", 1⟩
  decode _ _ payload :=
    match payload with
    | about :: text => .ok ⟨about, text⟩
    | [] => .error (.text "not a memo")

/-- Encryption small enough to compute with: bits are inverted, and the tag is zero. -/
def crypto : Crypto where
  gcmSeal _ _ pt := pt.map (· ^^^ 255) ++ List.replicate overhead 0
  gcmOpen _ _ ct := some ((ct.take (ct.length - overhead)).map (· ^^^ 255))
  encode64 := id
  decode64 := .ok

/-- The shredder of a process, with a key store that leaves keys as they are. -/
def process (j : Fin 2) : Instance (Fin 2) :=
  ⟨j, ⟨fun _ dek => .ok (dek, 1), fun _ wrapped _ => .ok wrapped⟩, crypto, none, none⟩

/-- The runtime of a process that caches states under a schema version, or not at all. -/
def runtime (j : Fin 2) (cached : Bool) (v : UInt32) :
    Runtime (Keys (Fin 2)) Bytes (List Memo) Memo where
  decider := decider
  codec := codec
  stateCodec := if cached then some (Journal.stateCodec (defaultSchema v)) else none
  stateSchemaVersion := v
  shredder := some ((process j).shredder methods)

/-- The stream of the memos below. -/
abbrev stream : StreamID := ⟨"acme", "memo", "1"⟩

end Memo

end Shred

namespace Codegen

open Shred (PIIField PIIEncoder Instance Keys Crypto)

/-! ### Memos of two versions -/

namespace Memos

open Shred (Memo)

/-- The generated codec of memos. -/
def types : EventTypes Memo where
  name := "Event"
  package := "memo.v1"
  unmarshal typeURL :=
    if typeURL = "memo.v1.Noted" then some (Memo.codec.decode typeURL 0) else none

/-- A codec that turns old memos, which counted people from 0, into new ones. -/
def migrating : Codec Memo where
  encode := Memo.codec.encode
  decode typeURL schemaVersion payload :=
    (types.decode typeURL schemaVersion payload).map fun e =>
      if schemaVersion < 2 then { e with about := e.about + 1 } else e

/-- A runtime with that codec and a shredder. -/
def runtime (j : Fin 2) : Runtime (Keys (Fin 2)) Bytes (List Memo) Memo :=
  { Memo.runtime j false 1 with codec := migrating }

/-- A stored memo. -/
def stored (schemaVersion : UInt32) (payload : Bytes) : Envelope :=
  ⟨⟨"e"⟩, "acme", Memo.stream, 1, 1, "memo.v1.Noted", schemaVersion, 0, 0, ⟨"c"⟩, ⟨"c"⟩, ⟨"c"⟩,
    Actor.zero, payload, none, none, [], []⟩

/-- Alice has a key. -/
def keys : Keys (Fin 2) :=
  ⟨fun _ _ => some ⟨List.replicate 32 0, 1, false⟩, fun _ _ => some (List.replicate 32 0),
    fun _ => 0⟩

/-- The text `[5]` as it is stored. -/
def sealed : Bytes :=
  Shred.wireV1AESGCM :: (List.replicate Shred.nonceSize 0 ++ (250 :: List.replicate 16 0))

theorem shrinks : Shrinks Memo.crypto where
  gcmOpen _ _ ct pt h := by
    cases h
    simp
  decode64 s b h := by
    cases h
    exact le_refl _

theorem separate (e : Memo) (enc : PIIEncoder Memo) (h : Memo.methods e = some enc) :
    Separate (fun e => Memo.methods e = some enc) enc.fields :=
  ⟨(Memo.lawful.fields e enc h).closed, (Memo.lawful.fields e enc h).get_set,
    (Memo.lawful.fields e enc h).apart⟩

end Memos

/-- A new memo without a text is the same for all consumers. -/
theorem empty_memo_agrees :
    Memos.types.dispatch false (Memos.stored 2 [2]) = .ok (some ⟨2, []⟩) ∧
      ([⟨2, []⟩] : List Shred.Memo)[0]? = some ⟨2, []⟩ := by
  have hload : (Memos.runtime 0).openEvent Shred.Memo.stream (Memos.stored 2 [2]) Memos.keys =
      .ok ⟨2, []⟩ Memos.keys := rfl
  have hbus : decodeEvents (Memos.runtime 0).codec 0 [Memos.stored 2 [2]] = .ok [⟨2, []⟩] := rfl
  refine (consumers_agree_iff (T := Memos.types) Memos.shrinks Memos.separate rfl rfl hload hbus rfl
    false).2 ⟨rfl, fun e he enc henc f hf => ?_⟩
  cases he
  cases henc
  obtain rfl := List.mem_singleton.1 hf
  rfl

/-- **An old memo with a text**: `Load` sees it about alice and in plaintext, a subscriber sees the
ciphertext, and a projection the ciphertext of a memo about nobody. -/
theorem three_readings :
    (∃ k', (Memos.runtime 0).openEvent Shred.Memo.stream (Memos.stored 1 (0 :: Memos.sealed))
      Memos.keys = .ok ⟨1, [5]⟩ k') ∧
    decodeEvents (Memos.runtime 0).codec 0 [Memos.stored 1 (0 :: Memos.sealed)] =
      .ok [⟨1, Memos.sealed⟩] ∧
    Memos.types.dispatch false (Memos.stored 1 (0 :: Memos.sealed)) =
      .ok (some ⟨0, Memos.sealed⟩) :=
  ⟨⟨_, rfl⟩, rfl, rfl⟩

end Codegen

end EventStore
