import EventStore.Codegen.Coverage

/-!
# The subjects of the two calls

The subject of a field with the option `es.v1.subject` is read from another field of the event.
`EncryptPII` reads it from the event in which the fields before are encrypted already, `DecryptPII`
from the one in which they are decrypted already.

* `eachFieldLogged` : the loop, with the subject each field is sealed or opened under.
* `uses` : these subjects, from the events before and after the loop.
* `decrypt_sealing` : opening the fields of a sealed event under the subjects they were sealed
  under.
* `decryptPII_stable_iff` : **the subjects are the same, and the event is decrypted, iff no field
  with a text reads its subject from an encrypted field with a text.**
* `renamed_subject` : an event that cannot be decrypted.
-/

namespace EventStore

namespace Codegen

open Shred (PIIField PIIEncoder PIIKind Instance Keys Crypto Extends)

/-! ### The loop with its subjects -/

section Log

variable {π E : Type}

/-- The loop, with the name of each field that is not empty and the subject it belongs to. -/
def eachFieldLogged (step : PIIField E → E → EStateM Err (Keys π) E) (subject : String) :
    List (PIIField E) → E → EStateM Err (Keys π) (E × List (String × String))
  | [], e => pure (e, [])
  | f :: fs, e => do
    let e₁ ← step f e
    let (e₂, log) ← eachFieldLogged step subject fs e₁
    return (e₂, if f.get e = [] then log else (f.name, f.owner subject e) :: log)

variable {step : PIIField E → E → EStateM Err (Keys π) E} {subject : String} {f : PIIField E}
  {fs : List (PIIField E)} {e e' : E} {k k' : Keys π} {log : List (String × String)}

theorem eachFieldLogged_cons : eachFieldLogged step subject (f :: fs) e k = .ok (e', log) k' ↔
    ∃ e₁ k₁ log', step f e k = .ok e₁ k₁ ∧
      eachFieldLogged step subject fs e₁ k₁ = .ok (e', log') k' ∧
      log = if f.get e = [] then log' else (f.name, f.owner subject e) :: log' := by
  rw [eachFieldLogged]
  simp only [EStateM.bind_eq_ok, EStateM.pure_eq_ok]
  constructor
  · rintro ⟨e₁, k₁, hstep, ⟨e₂, log'⟩, k₂, hloop, hret, rfl⟩
    cases hret
    exact ⟨e₁, k₁, log', hstep, hloop, rfl⟩
  · rintro ⟨e₁, k₁, log', hstep, hloop, rfl⟩
    exact ⟨e₁, k₁, hstep, (e', log'), k', hloop, rfl, rfl⟩

/-- The log does not change the loop. -/
theorem eachField_of_logged (h : eachFieldLogged step subject fs e k = .ok (e', log) k') :
    Shred.eachField step fs e k = .ok e' k' := by
  induction fs generalizing e k log with
  | nil =>
    obtain ⟨hret, rfl⟩ := EStateM.pure_eq_ok.1 h
    cases hret
    rfl
  | cons f fs ih =>
    obtain ⟨e₁, k₁, log', hstep, hloop, -⟩ := eachFieldLogged_cons.1 h
    exact Shred.eachField_cons_eq_ok.2 ⟨e₁, k₁, hstep, ih hloop⟩

end Log

/-! ### Which subjects they are -/

section Uses

variable {R : Type} {subject : String} {f : PiiField} {fs : List PiiField} {a a' b : Event R}

/-- The subjects of the fields, when the loop goes from the event `a` to the event `a'`. -/
def uses (subject : String) : List PiiField → Event R → Event R → List (String × String)
  | [], _, _ => []
  | f :: fs, a, a' =>
    let log := uses subject fs (a.setText (top f.goName) (a'.text (top f.goName))) a'
    if a.text (top f.goName) = [] then log else (f.protoName, f.method.owner subject a) :: log

theorem log_eq_uses {π : Type}
    {step : PIIField (Event R) → Event R → EStateM Err (Keys π) (Event R)}
    (hw : Shred.Writes step) {k k' : Keys π} {log : List (String × String)}
    (hnd : (fs.map PiiField.goName).Nodup)
    (h : eachFieldLogged step subject (fs.map PiiField.method) a k = .ok (a', log) k') :
    log = uses subject fs a a' := by
  induction fs generalizing a k log with
  | nil =>
    obtain ⟨hret, -⟩ := EStateM.pure_eq_ok.1 h
    cases hret
    rfl
  | cons f fs ih =>
    obtain ⟨a₁, k₁, log', hstep, hloop, rfl⟩ := eachFieldLogged_cons.1 h
    rw [List.map_cons, List.nodup_cons] at hnd
    have hlater : a'.text (top f.goName) = a₁.text (top f.goName) :=
      (eachField_frame hw (eachField_of_logged hloop)).2 _ fun g hg htop =>
        hnd.1 (List.mem_map.2 ⟨g, hg, (top_injective htop).symm⟩)
    have hset : a₁ = a.setText (top f.goName) (a₁.text (top f.goName)) := by
      rcases hw _ a k a₁ k₁ hstep with rfl | ⟨b, rfl⟩
      · exact (Event.setText_self a₁).symm
      · change a.setText _ b = a.setText _ ((a.setText (top f.goName) b).text (top f.goName))
        rw [Event.text_setText_self]
    rw [uses, hlater, ← hset, ih hnd.2 hloop]
    rfl

/-- The path the subject of a field is read from agrees in two events. -/
def PiiField.Agree (f : PiiField) (a b : Event R) : Prop :=
  f.subjectField = "" ∨
    a.text (top (upperGoFieldName f.subjectField)) = b.text (top (upperGoFieldName f.subjectField))

theorem owner_eq_iff :
    f.method.owner subject a = f.method.owner subject b ↔ f.Agree a b := by
  by_cases hs : f.subjectField = ""
  · simp [PIIField.owner, PiiField.method, PiiField.override, PiiField.Agree, hs]
  · simp only [PIIField.owner, PiiField.method, PiiField.override, PiiField.Agree, hs, false_or,
      Event.getter]
    exact asText_injective.eq_iff

/-- Two events that exchange a text agree where they agreed. -/
theorem agree_exchange {p q : Path} (hb : b.text p = a'.text p) :
    (a.setText p (a'.text p)).text q = (b.setText p (a.text p)).text q ↔ a.text q = b.text q := by
  by_cases hq : q = p
  · rw [hq, Event.text_setText_self, Event.text_setText_self, ← hb]
    exact eq_comm
  · rw [Event.text_setText_of_ne a hq, Event.text_setText_of_ne b hq]

/-- The event `b` with the texts of the fields as in the event `a`. -/
def restore (fs : List PiiField) (a b : Event R) : Event R :=
  { b with text := fun p => if p ∈ fs.map (fun f => top f.goName) then a.text p else b.text p }

theorem restore_nil : restore [] a b = b := rfl

theorem restore_cons (hf : f.goName ∉ fs.map PiiField.goName) (c : Bytes) :
    restore (f :: fs) a b =
      restore fs (a.setText (top f.goName) c)
        (b.setText (top f.goName) (a.text (top f.goName))) := by
  have hmem : ∀ n, top n ∈ fs.map (fun f => top f.goName) → n ∈ fs.map PiiField.goName := by
    intro n hn
    obtain ⟨g, hg, htop⟩ := List.mem_map.1 hn
    exact List.mem_map.2 ⟨g, hg, top_injective htop⟩
  refine Event.eq_of (fun p => ?_) rfl
  simp only [restore, List.map_cons, List.mem_cons]
  by_cases hp : p = top f.goName
  · subst hp
    simp [mt (hmem f.goName) hf]
  · simp [hp, Event.text_setText_of_ne]

end Uses

/-! ### Opening what is sealed -/

section Open

variable {π R : Type} [DecidableEq π] {V : Instance π} {t subject name : String} {k : Keys π}
  {fs : List PiiField} {f : PiiField} {a a' b : Event R}

/-- Under its subject, a sealed field is opened. -/
theorem decrypt_method (hG : V.crypto.Faithful) {s : String} {pt : Bytes}
    (h : FieldSealed V t k (f.method (R := R)).kind s pt (b.text (top f.goName)))
    (hs : f.method.owner subject b = s) :
    f.method.decrypt V t subject name b k = .ok (b.setText (top f.goName) pt) k := by
  have hne : b.text (top f.goName) ≠ [] := (h.ne hG).2
  obtain ⟨dek, sealed, hcache, hv, hsealed, hct⟩ := h
  refine Shred.decrypt_eq_ok.2 (Or.inr ⟨hne, sealed, pt, ?_, ?_, rfl⟩)
  · change (f.method (R := R)).kind.unwrap V.crypto (b.text (top f.goName)) = .ok sealed
    rw [hct]
    cases (f.method (R := R)).kind with
    | bytes => rfl
    | string => exact hG.decode64 sealed
  · rw [Shred.orRedact, hs, Shred.decryptField_cached hcache, hsealed.opens hG.toLawful hv]
    rfl

/-- **The loop of `DecryptPII` opens the fields under the subjects they were sealed under iff the
subjects are read from texts that the two events have in common.** -/
theorem decrypt_sealing (hG : V.crypto.Faithful) (hnd : (fs.map PiiField.goName).Nodup)
    (h : Sealing V t subject k fs a a')
    (hb : ∀ f ∈ fs, b.text (top f.goName) = a'.text (top f.goName)) (name : String) (b' : Event R)
    (k' : Keys π) :
    eachFieldLogged (PIIField.decrypt V t subject name) subject (fs.map PiiField.method) b k =
        .ok (b', uses subject fs a a') k' ↔
      (∀ f ∈ fs, a.text (top f.goName) ≠ [] → f.Agree a b) ∧ b' = restore fs a b ∧ k' = k := by
  induction fs generalizing a b with
  | nil =>
    rw [restore_nil, List.map_nil, eachFieldLogged, EStateM.pure_eq_ok, uses]
    constructor
    · rintro ⟨hret, rfl⟩
      cases hret
      exact ⟨fun _ hf => absurd hf List.not_mem_nil, rfl, rfl⟩
    · rintro ⟨-, rfl, rfl⟩
      exact ⟨rfl, rfl⟩
  | cons f fs ih =>
    rw [List.map_cons, List.nodup_cons] at hnd
    have hbf := hb f List.mem_cons_self
    have hother : ∀ g ∈ fs, top g.goName ≠ top f.goName := fun g hg htop =>
      hnd.1 (List.mem_map.2 ⟨g, hg, top_injective htop⟩)
    -- the two events exchange the text of the field
    have hrec := ih (b := b.setText (top f.goName) (a.text (top f.goName))) hnd.2 h.2 fun g hg => by
      rw [Event.text_setText_of_ne b (hother g hg)]
      exact hb g (List.mem_cons_of_mem f hg)
    have hcond : (∀ g ∈ fs, (a.setText (top f.goName) (a'.text (top f.goName))).text
          (top g.goName) ≠ [] → g.Agree (a.setText (top f.goName) (a'.text (top f.goName)))
          (b.setText (top f.goName) (a.text (top f.goName)))) ↔
        ∀ g ∈ fs, a.text (top g.goName) ≠ [] → g.Agree a b := by
      refine forall₂_congr fun g hg => ?_
      rw [Event.text_setText_of_ne a (hother g hg), PiiField.Agree, agree_exchange hbf,
        PiiField.Agree]
    rw [hcond, ← restore_cons hnd.1] at hrec
    rw [List.map_cons, eachFieldLogged_cons, List.forall_mem_cons]
    rcases h.1 with ⟨hempty, hempty'⟩ | ⟨hne, hsealed⟩
    · -- an empty field is left alone
      have hb₀ : b.text (top f.goName) = [] := hbf.trans hempty'
      have hstep : f.method.decrypt V t subject name b k =
          .ok (b.setText (top f.goName) (a.text (top f.goName))) k := by
        rw [hempty, ← hb₀, Event.setText_self]
        exact Shred.decrypt_eq_ok.2 (Or.inl ⟨hb₀, rfl, rfl⟩)
      have huses : uses subject (f :: fs) a a' =
          uses subject fs (a.setText (top f.goName) (a'.text (top f.goName))) a' := if_pos hempty
      rw [huses]
      constructor
      · rintro ⟨b₁, k₁, log', hdec, hloop, hlog⟩
        rw [hstep] at hdec
        cases hdec
        rw [show log' = _ from (hlog.trans (if_pos hb₀)).symm] at hloop
        exact ⟨⟨fun hne => absurd hempty hne, (hrec.1 hloop).1⟩, (hrec.1 hloop).2⟩
      · rintro ⟨⟨-, hagree⟩, heq⟩
        exact ⟨_, _, _, hstep, hrec.2 ⟨hagree, heq⟩, (if_pos hb₀).symm⟩
    · have hb₀ : b.text (top f.goName) ≠ [] := by
        rw [hbf]
        exact (hsealed.ne hG).2
      have huses : uses subject (f :: fs) a a' = (f.protoName, f.method.owner subject a) ::
          uses subject fs (a.setText (top f.goName) (a'.text (top f.goName))) a' := if_neg hne
      have hstep : f.Agree a b → f.method.decrypt V t subject name b k =
          .ok (b.setText (top f.goName) (a.text (top f.goName))) k := fun hagree =>
        decrypt_method hG (hbf ▸ hsealed) (owner_eq_iff.2 hagree).symm
      rw [huses]
      constructor
      · rintro ⟨b₁, k₁, log', hdec, hloop, hlog⟩
        obtain ⟨hentry, rfl⟩ := List.cons.inj (hlog.trans (if_neg hb₀))
        have hagree : f.Agree a b := owner_eq_iff.1 (congrArg Prod.snd hentry)
        rw [hstep hagree] at hdec
        cases hdec
        exact ⟨⟨fun _ => hagree, (hrec.1 hloop).1⟩, (hrec.1 hloop).2⟩
      · rintro ⟨⟨hf, hagree⟩, heq⟩
        refine ⟨_, _, _, hstep (hf hne), hrec.2 ⟨hagree, heq⟩, ?_⟩
        rw [owner_eq_iff.2 (hf hne)]
        exact (if_neg hb₀).symm

end Open

/-! ### The two methods -/

section Methods

variable {π R : Type} [DecidableEq π] {V : Instance π} {t subject : String} {k k' k₂ : Keys π}
  {M : MessageDesc} {enc : PIIEncoder (Event R)} {e e' : Event R} {log : List (String × String)}

/-- `EncryptPII`, with the subjects it seals under. -/
def encryptLogged {E : Type} (V : Instance π) (t subject : String) (enc : PIIEncoder E) (e : E) :
    EStateM Err (Keys π) (E × List (String × String)) :=
  if enc.sad = [] then
    eachFieldLogged (PIIField.encrypt V t subject enc.name) subject enc.fields e
  else throw enc.sadError

/-- `DecryptPII`, with the subjects it opens under. -/
def decryptLogged {E : Type} (V : Instance π) (t subject : String) (enc : PIIEncoder E) (e : E) :
    EStateM Err (Keys π) (E × List (String × String)) :=
  if enc.sad = [] then
    eachFieldLogged (PIIField.decrypt V t subject enc.name) subject enc.fields e
  else throw enc.sadError

/-- No field with a text reads its subject from an encrypted field with a text. -/
def Stable (M : MessageDesc) (e : Event R) : Prop :=
  ∀ f ∈ encryptedFields M, e.text (top f.goName) ≠ [] → f.subjectField ≠ "" →
    ∀ g ∈ encryptedFields M, g.goName = upperGoFieldName f.subjectField → e.text (top g.goName) = []

theorem emitPIIMethods_eq_some (h : emitPIIMethods R M = some enc) :
    enc.fields = (encryptedFields M).map PiiField.method ∧ enc.name = M.goName ∧
      enc.subject = subjectMethod (classifyFields M).1 := by
  unfold emitPIIMethods at h
  split_ifs at h
  cases h
  exact ⟨rfl, rfl, rfl⟩

omit [DecidableEq π] in
/-- The texts the events before and after have in common. -/
theorem Sealing.text_eq_iff (hG : V.crypto.Faithful) {fs : List PiiField}
    (hnd : (fs.map PiiField.goName).Nodup) (h : Sealing V t subject k fs e e') (n : String) :
    e.text (top n) = e'.text (top n) ↔ ∀ g ∈ fs, g.goName = n → e.text (top g.goName) = [] := by
  constructor
  · rintro heq g hg rfl
    rcases h.mem hnd hg with ⟨hempty, -⟩ | ⟨-, s, hs⟩
    · exact hempty
    · exact absurd heq.symm (hs.ne hG).1
  · intro hall
    by_cases hn : ∃ g ∈ fs, g.goName = n
    · obtain ⟨g, hg, rfl⟩ := hn
      rcases h.mem hnd hg with ⟨hempty, hempty'⟩ | ⟨hne, -⟩
      · rw [hempty, hempty']
      · exact absurd (hall g hg rfl) hne
    · exact (h.frame.2 _ fun g hg htop => hn ⟨g, hg, (top_injective htop).symm⟩).symm

omit [DecidableEq π] in
/-- With its fields as before, the event is the one before. -/
theorem Sealing.restore {fs : List PiiField} (h : Sealing V t subject k fs e e') :
    Codegen.restore fs e e' = e := by
  refine Event.eq_of (fun p => ?_) h.frame.1
  by_cases hp : p ∈ fs.map fun f => top f.goName
  · exact if_pos hp
  · refine (if_neg hp).trans (h.frame.2 p fun f hf heq => hp ?_)
    exact List.mem_map.2 ⟨f, hf, heq.symm⟩

/-- `Subject()` reads a field that is not encrypted. -/
theorem subjectMethod_eq (h : ∀ p, (∀ f ∈ encryptedFields M, p ≠ top f.goName) →
    e'.text p = e.text p) :
    subjectMethod (classifyFields M).1 e' = subjectMethod (classifyFields M).1 e := by
  unfold subjectMethod
  cases hfind : (classifyFields M).1.find? PiiField.isSubject with
  | none => rfl
  | some pf =>
    have hsub := List.find?_some hfind
    obtain ⟨f, hf, rfl⟩ := List.mem_map.1 (List.mem_of_find?_eq_some hfind)
    refine congrArg asText (h _ fun pg hpg htop => ?_)
    obtain ⟨g, hg, rfl, henc⟩ := mem_encryptedFields.1 hpg
    -- the field of the subject would be an encrypted one
    obtain rfl := eq_of_goName hf hg (top_injective htop)
    have hkind : f.piiKind = .none := if_pos hsub
    simp [PiiField.encrypted, FieldDesc.classify, hkind] at henc

/-- **`DecryptPII` opens each field under the subject it was sealed under, and succeeds, iff no
field reads its subject from an encrypted one.**  In between, keys may be added but not
forgotten. -/
theorem decryptPII_stable_iff (hG : V.crypto.Faithful) (henc : emitPIIMethods R M = some enc)
    (h : encryptLogged V t subject enc e k = .ok (e', log) k') (hext : Extends k' k₂) :
    ((∃ e₂ k₃, decryptLogged V t subject enc e' k₂ = .ok (e₂, log) k₃) ↔ Stable M e) ∧
      (Stable M e → decryptLogged V t subject enc e' k₂ = .ok (e, log) k₂) ∧
      ∀ sid, enc.subjectIn sid e' = enc.subjectIn sid e := by
  obtain ⟨hfields, hname, hsubject⟩ := emitPIIMethods_eq_some henc
  have hnd := encryptedFields_nodup M
  unfold encryptLogged at h
  unfold decryptLogged
  split_ifs at h ⊢ with hsad
  · rw [hfields] at h ⊢
    obtain rfl := log_eq_uses Shred.writes_encrypt hnd h
    have hseal := (sealing_of_encrypt hnd (eachField_of_logged h)).1
    have hopen := decrypt_sealing hG hnd (hseal.mono hext) (fun _ _ => rfl) enc.name
    have hstable : (∀ f ∈ encryptedFields M, e.text (top f.goName) ≠ [] → f.Agree e e') ↔
        Stable M e := by
      refine forall₃_congr fun f hf hne => ?_
      rw [PiiField.Agree, hseal.text_eq_iff hG hnd, or_iff_not_imp_left]
    refine ⟨⟨?_, fun hs => ?_⟩, fun hs => ?_, fun sid => ?_⟩
    · rintro ⟨e₂, k₃, hdec⟩
      exact hstable.1 ((hopen e₂ k₃).1 hdec).1
    · exact ⟨e, k₂, (hopen e k₂).2 ⟨hstable.2 hs, hseal.restore.symm, rfl⟩⟩
    · exact (hopen e k₂).2 ⟨hstable.2 hs, hseal.restore.symm, rfl⟩
    · rw [PIIEncoder.subjectIn, PIIEncoder.subjectIn, hsubject, subjectMethod_eq hseal.frame.2]
  · cases h

end Methods

/-! ### A note about somebody -/

namespace Note

/-- `message NoteAdded { string email = 1 [c]; string note = 2 [PERSONAL, subject = "email"]; }` -/
def added (c : DataClassification) : MessageDesc where
  goName := "NoteAdded"
  fields := [⟨"Email", "email", .singular, .string, false, "", c⟩,
    ⟨"Note", "note", .singular, .string, false, "email", .personal⟩]
  distinct := by simp

/-- A note with the email and the text given. -/
def note (email text : Bytes) : Event Unit :=
  ⟨fun p => if p = top "Email" then email else if p = top "Note" then text else [], ()⟩

/-- The methods of the variant. -/
def methods (c : DataClassification) : PIIEncoder (Event Unit) where
  name := "NoteAdded"
  subject := subjectMethod (classifyFields (added c)).1
  fields := (encryptedFields (added c)).map PiiField.method
  sad := []

theorem emit_personal : emitPIIMethods Unit (added .personal) = some (methods .personal) := rfl

theorem emit_internal : emitPIIMethods Unit (added .internal) = some (methods .internal) := rfl

theorem compiles : Compiles (added .personal) where
  plain _ := by decide
  override _ := by decide
  subject _ := by
    intro f hf
    cases hf

end Note

/-- With an email that is not encrypted, a note is sealed and opened under the same subject. -/
theorem note_internal : ∃ e' log k',
    encryptLogged (Shred.Vault.shredder 0) "acme" "u-1" (Note.methods .internal)
      (Note.note [65] [66]) noKeys = .ok (e', log) k' ∧ log = [("note", "A")] ∧
    decryptLogged (Shred.Vault.shredder 0) "acme" "u-1" (Note.methods .internal) e' k' =
      .ok (Note.note [65] [66], log) k' := by
  obtain ⟨e', log, k', h, hlog⟩ : ∃ e' log k', encryptLogged (Shred.Vault.shredder 0) "acme" "u-1"
      (Note.methods .internal) (Note.note [65] [66]) noKeys = .ok (e', log) k' ∧
      log = [("note", "A")] := ⟨_, _, _, rfl, by decide +kernel⟩
  refine ⟨e', log, k', h, hlog, ?_⟩
  refine (decryptPII_stable_iff Faithful.vault Note.emit_internal h (.refl k')).2.1 ?_
  intro f hf _ _ g hg hname
  -- the only encrypted field is the note
  have hone : encryptedFields (Note.added .internal) =
      [⟨"Note", "note", false, "email", .personal, .string⟩] := by decide
  rw [hone, List.mem_singleton] at hf hg
  subst hf hg
  exact absurd hname (by decide)

/-- **A note about an encrypted email is not decrypted again.**  It was sealed under a subject that
is the ciphertext of the email; for the email itself there is no key. -/
theorem renamed_subject : Compiles (Note.added .personal) ∧
    emitPIIMethods Unit (Note.added .personal) = some (Note.methods .personal) ∧ ∃ e' k',
    (Note.methods .personal).encryptPII (Shred.Vault.shredder 0) "acme" "u-1"
      (Note.note [65] [66]) noKeys = .ok e' k' ∧ ∃ k'',
    (Note.methods .personal).decryptPII (Shred.Vault.shredder 0) "acme" "u-1" e' k' =
      .error (.wrap "NoteAdded.DecryptPII note" (.text "shred: no DEK for subject \"A\"")) k'' := by
  refine ⟨Note.compiles, Note.emit_personal, ?_⟩
  exact ⟨_, _, rfl, _, rfl⟩

end Codegen

end EventStore
