import EventStore.Codegen.Subjects
import EventStore.Shred.Redaction

/-!
# Encryption, forgetting, decryption

An event is encrypted, some subjects are forgotten, and the event is decrypted.  Where the subjects
of the fields are read from fields that are not encrypted (`FixedOwners`), the subject of a field is
the same all the way.

* `shredded`, `redactions` : the event without the fields of some subjects, and the list of them.
* `decryptPII_encryptPII` : **`DecryptPII` returns just these.**
-/

namespace EventStore

namespace Codegen

open Shred (PIIField PIIEncoder PIIKind Instance Keys Crypto Extends Ready Live ForgottenAll Backed
  RedactedField)

/-! ### Subjects that do not change -/

/-- The overrides name fields of type string that are not encrypted. -/
def FixedOwners (M : MessageDesc) : Prop :=
  ∀ f ∈ M.fields, f.classify.encrypted = true → f.subjectField ≠ "" →
    ∃ g ∈ M.fields, g.goName = upperGoFieldName f.subjectField ∧ g.TextGetter ∧
      g.classify.encrypted = false

section Owners

variable {R : Type} {M : MessageDesc} {subject : String} {f : PiiField} {a b : Event R}

/-- Events that differ in encrypted fields only. -/
def SameElsewhere (M : MessageDesc) (a b : Event R) : Prop :=
  ∀ p, (∀ f ∈ encryptedFields M, p ≠ top f.goName) → a.text p = b.text p

theorem SameElsewhere.setText (h : SameElsewhere M a b) (hf : f ∈ encryptedFields M) (c : Bytes) :
    SameElsewhere M (a.setText (top f.goName) c) b := fun p hp =>
  (Event.text_setText_of_ne a (hp f hf)).trans (h p hp)

theorem FixedOwners.owner_eq (hM : FixedOwners M) (hf : f ∈ encryptedFields M)
    (h : SameElsewhere M a b) : f.method.owner subject a = f.method.owner subject b := by
  rw [owner_eq_iff, PiiField.Agree, or_iff_not_imp_left]
  intro hover
  obtain ⟨d, hd, rfl, henc⟩ := mem_encryptedFields.1 hf
  obtain ⟨g, hg, hname, -, hplain⟩ := hM d hd henc hover
  refine h _ fun pf hpf htop => ?_
  obtain ⟨d', hd', rfl, henc'⟩ := mem_encryptedFields.1 hpf
  -- the field of the subject would be an encrypted one
  obtain rfl : g = d' := eq_of_goName hg hd' (hname.trans (top_injective htop))
  rw [hplain] at henc'
  cases henc'

end Owners

/-! ### What is left of an event -/

section Shredded

variable {R : Type}

/-- The event without the fields of the subjects in `F`. -/
def shredded (subject : String) (F : List String) (fs : List PiiField) (e : Event R) : Event R :=
  { e with text := fun p =>
      if fs.any fun f => p = top f.goName ∧ f.method.owner subject e ∈ F then [] else e.text p }

/-- The fields with a text that belong to subjects in `F`. -/
def redactions (subject : String) (F : List String) (fs : List PiiField) (e : Event R) :
    List RedactedField :=
  (fs.filter fun f => e.text (top f.goName) ≠ [] ∧ f.method.owner subject e ∈ F).map fun f =>
    ⟨f.protoName, f.method.owner subject e, "shredded"⟩

variable {subject : String} {F : List String} {fs : List PiiField} {f : PiiField} {e : Event R}

theorem text_shredded (hnd : (fs.map PiiField.goName).Nodup) (hf : f ∈ fs) :
    (shredded subject F fs e).text (top f.goName) =
      if f.method.owner subject e ∈ F then [] else e.text (top f.goName) := by
  refine if_congr ?_ rfl rfl
  simp only [List.any_eq_true, decide_eq_true_eq]
  constructor
  · rintro ⟨g, hg, htop, hown⟩
    rwa [List.inj_on_of_nodup_map hnd hf hg (top_injective htop)]
  · intro hown
    exact ⟨f, hf, rfl, hown⟩

theorem text_shredded_of_ne {p : Path} (hp : ∀ f ∈ fs, p ≠ top f.goName) :
    (shredded subject F fs e).text p = e.text p := by
  refine if_neg fun hany => ?_
  simp only [List.any_eq_true, decide_eq_true_eq] at hany
  obtain ⟨f, hf, heq, -⟩ := hany
  exact hp f hf heq

end Shredded

/-! ### Decryption after forgetting -/

section Decrypt

variable {π R : Type} [DecidableEq π] {V : Instance π} {t subject name : String} {k k₁ k₂ : Keys π}
  {M : MessageDesc} {F : List String} {fs : List PiiField} {f : PiiField} {e e' b : Event R}

omit [DecidableEq π] in
/-- Each field is sealed under the subject it has in the event before. -/
theorem Sealing.owned (hM : FixedOwners M) (hnd : (fs.map PiiField.goName).Nodup)
    (hsub : ∀ f ∈ fs, f ∈ encryptedFields M) {a : Event R} (ha : SameElsewhere M a e)
    (h : Sealing V t subject k fs a e') (hf : f ∈ fs) (hne : a.text (top f.goName) ≠ []) :
    FieldSealed V t k (f.method (R := R)).kind (f.method.owner subject e)
      (a.text (top f.goName)) (e'.text (top f.goName)) := by
  induction fs generalizing a with
  | nil => exact absurd hf List.not_mem_nil
  | cons g fs ih =>
    rw [List.map_cons, List.nodup_cons] at hnd
    have hg := hsub g List.mem_cons_self
    rcases List.mem_cons.1 hf with rfl | hf
    · rcases h.1 with ⟨hempty, -⟩ | ⟨-, hsealed⟩
      · exact absurd hempty hne
      · rwa [hM.owner_eq hg ha] at hsealed
    · have hother : top f.goName ≠ top g.goName := fun htop =>
        hnd.1 (List.mem_map.2 ⟨f, hf, top_injective htop⟩)
      have htext := Event.text_setText_of_ne (b := e'.text (top g.goName)) a hother
      rw [← htext] at hne ⊢
      exact ih hnd.2 (fun g' hg' => hsub g' (List.mem_cons_of_mem g hg')) (ha.setText hg _) h.2 hf
        hne

/-- One field, when some subjects are forgotten. -/
theorem decryptRedacting_method (name : String) (hG : V.crypto.Faithful)
    (hread : V.readFault = none) (hback : Backed V.process t k₁) (hF : ForgottenAll V t F k₁ k₂)
    {s : String} {pt : Bytes}
    (h : FieldSealed V t k₁ (f.method (R := R)).kind s pt (b.text (top f.goName)))
    (hs : f.method.owner subject b = s)
    (hs' : f.method.owner subject (b.setText (top f.goName) []) = s) :
    f.method.decryptRedacting V t subject name b k₂ =
      if s ∈ F then .ok (b.setText (top f.goName) [], [⟨f.protoName, s, "shredded"⟩]) k₂
      else .ok (b.setText (top f.goName) pt, []) k₂ := by
  have hne : f.method.get b ≠ [] := (h.ne hG).2
  obtain ⟨dek, sealed, hcache, hv, hsealed, hct⟩ := h
  have hunwrap : (f.method (R := R)).kind.unwrap V.crypto (f.method.get b) = .ok sealed := by
    change (f.method (R := R)).kind.unwrap V.crypto (b.text (top f.goName)) = .ok sealed
    rw [hct]
    cases (f.method (R := R)).kind with
    | bytes => rfl
    | string => exact hG.decode64 sealed
  unfold PIIField.decryptRedacting
  rw [if_neg hne, hunwrap, hs]
  have hkey := hF.cache s
  split_ifs with hmem
  · -- the key is out of the cache, and its row is shredded
    rw [if_pos hmem] at hkey
    obtain ⟨row, hrow, hsh⟩ := (hF.row s (hback s dek hcache)).2 (Or.inr hmem)
    have hdec := Shred.decryptField_shredded hkey hread hrow hsh sealed
    have hset : f.method.owner subject (f.method.set b []) = s := hs'
    simp only [Except.mapError, EStateM.ofExcept, bind, EStateM.bind, hdec, hset]
    rfl
  · rw [if_neg hmem, hcache] at hkey
    have hdec := Shred.decryptField_cached hkey sealed
    rw [hsealed.opens hG.toLawful hv] at hdec
    simp only [Except.mapError, EStateM.ofExcept, bind, EStateM.bind] at hdec ⊢
    rw [hdec]
    rfl

/-- **The loop of `DecryptPII` redacts the fields of the forgotten subjects, and opens the
others.** -/
theorem eachRedacting_sealed (hG : V.crypto.Faithful) (hread : V.readFault = none)
    (hback : Backed V.process t k₁) (hF : ForgottenAll V t F k₁ k₂) (hM : FixedOwners M)
    (hsealed : Sealing V t subject k₁ (encryptedFields M) e e')
    (hnd : (fs.map PiiField.goName).Nodup) (hsub : ∀ f ∈ fs, f ∈ encryptedFields M)
    (hb : ∀ f ∈ fs, b.text (top f.goName) = e'.text (top f.goName)) (hbe : SameElsewhere M b e) :
    Shred.eachRedacting (PIIField.decryptRedacting V t subject name) (fs.map PiiField.method) b k₂ =
      .ok (restore fs (shredded subject F (encryptedFields M) e) b, redactions subject F fs e)
        k₂ := by
  have hall := encryptedFields_nodup M
  induction fs generalizing b with
  | nil => rfl
  | cons f fs ih =>
    rw [List.map_cons, List.nodup_cons] at hnd
    have hf := hsub f List.mem_cons_self
    have hbf := hb f List.mem_cons_self
    have hother : ∀ g ∈ fs, top g.goName ≠ top f.goName := fun g hg htop =>
      hnd.1 (List.mem_map.2 ⟨g, hg, top_injective htop⟩)
    -- the rest of the loop, after the field has its new text
    have hrest : ∀ c, _ := fun c => ih (b := b.setText (top f.goName) c) hnd.2
      (fun g hg => hsub g (List.mem_cons_of_mem f hg))
      (fun g hg => (Event.text_setText_of_ne b (hother g hg)).trans
        (hb g (List.mem_cons_of_mem f hg))) (hbe.setText hf c)
    have hrestore := restore_cons (a := shredded subject F (encryptedFields M) e) (b := b) hnd.1
      ((shredded subject F (encryptedFields M) e).text (top f.goName))
    rw [Event.setText_self, text_shredded hall hf] at hrestore
    have hcons : ∀ c r, f.method.decryptRedacting V t subject name b k₂ =
        .ok (b.setText (top f.goName) c, r) k₂ →
        c = (if f.method.owner subject e ∈ F then [] else e.text (top f.goName)) →
        redactions subject F (f :: fs) e = r ++ redactions subject F fs e →
        Shred.eachRedacting (PIIField.decryptRedacting V t subject name)
          ((f :: fs).map PiiField.method) b k₂ = .ok (restore (f :: fs)
            (shredded subject F (encryptedFields M) e) b, redactions subject F (f :: fs) e) k₂ := by
      rintro c r hstep rfl hr
      rw [List.map_cons, Shred.eachRedacting, hrestore, hr]
      simp only [bind, EStateM.bind, hstep]
      rw [hrest]
      rfl
    by_cases hempty : e.text (top f.goName) = []
    · -- an empty field is left alone
      have hb₀ : b.text (top f.goName) = [] := by
        rcases hsealed.mem hall hf with ⟨-, h'⟩ | ⟨hne, -⟩
        · exact hbf.trans h'
        · exact absurd hempty hne
      refine hcons [] [] ?_ (by rw [hempty, ite_self]) (by simp [redactions, hempty])
      have hget : f.method.get b = [] := hb₀
      rw [← hb₀, Event.setText_self, PIIField.decryptRedacting, if_pos hget]
      rfl
    · have hown := hsealed.owned hM hall (fun _ h => h) (fun _ _ => rfl) hf hempty
      rw [← hbf] at hown
      have hstep := decryptRedacting_method name hG hread hback hF hown
        (hM.owner_eq hf hbe) (hM.owner_eq hf (hbe.setText hf []))
      by_cases hmem : f.method.owner subject e ∈ F
      · rw [if_pos hmem] at hstep
        exact hcons _ _ hstep (if_pos hmem).symm (by simp [redactions, hempty, hmem])
      · rw [if_neg hmem] at hstep
        exact hcons _ _ hstep (if_neg hmem).symm (by simp [redactions, hmem])

/-- Without faults, the loop of `EncryptPII` succeeds if no subject it needs is destroyed. -/
theorem eachField_encrypt_ready (hM : FixedOwners M) (hnd : (fs.map PiiField.goName).Nodup)
    (hsub : ∀ f ∈ fs, f ∈ encryptedFields M) (hbe : SameElsewhere M b e) (hr : Ready V t k)
    (hlive : ∀ f ∈ fs, b.text (top f.goName) ≠ [] → Live V t (f.method.owner subject e) k) :
    ∃ e' k', Shred.eachField (PIIField.encrypt V t subject name) (fs.map PiiField.method) b k =
      .ok e' k' := by
  induction fs generalizing b k with
  | nil => exact ⟨b, k, rfl⟩
  | cons f fs ih =>
    rw [List.map_cons, List.nodup_cons] at hnd
    have hf := hsub f List.mem_cons_self
    have hother : ∀ g ∈ fs, top g.goName ≠ top f.goName := fun g hg htop =>
      hnd.1 (List.mem_map.2 ⟨g, hg, top_injective htop⟩)
    have hsub' : ∀ g ∈ fs, g ∈ encryptedFields M := fun g hg => hsub g (List.mem_cons_of_mem f hg)
    by_cases hempty : b.text (top f.goName) = []
    · obtain ⟨e', k', hloop⟩ := ih hnd.2 hsub' hbe hr fun g hg =>
        hlive g (List.mem_cons_of_mem f hg)
      exact ⟨e', k', Shred.eachField_cons_eq_ok.2
        ⟨b, k, Shred.encrypt_eq_ok.2 (Or.inl ⟨hempty, rfl, rfl⟩), hloop⟩⟩
    · obtain ⟨sealed, k₁, hseal, hr₁, hkeep⟩ := Shred.encryptField_ready hr
        (hlive f List.mem_cons_self hempty) (b.text (top f.goName))
      rw [← hM.owner_eq hf hbe] at hseal
      have hstep : f.method.encrypt V t subject name b k = .ok (b.setText (top f.goName)
          ((f.method (R := R)).kind.wrap V.crypto sealed)) k₁ :=
        Shred.encrypt_eq_ok.2 (Or.inr ⟨hempty, sealed, hseal, rfl⟩)
      obtain ⟨e', k', hloop⟩ := ih hnd.2 hsub'
        (hbe.setText hf ((f.method (R := R)).kind.wrap V.crypto sealed)) hr₁ fun g hg hne => by
        rw [Event.text_setText_of_ne b (hother g hg)] at hne
        exact hkeep _ (hlive g (List.mem_cons_of_mem f hg) hne)
      exact ⟨e', k', Shred.eachField_cons_eq_ok.2 ⟨_, k₁, hstep, hloop⟩⟩

end Decrypt

/-! ### The two methods -/

section Methods

variable {π R : Type} [DecidableEq π] {V : Instance π} {t : String} {k : Keys π} {M : MessageDesc}
  {enc : PIIEncoder (Event R)}

/-- A variant without fields of the class SAD has none in its methods. -/
theorem sad_eq_nil (henc : emitPIIMethods R M = some enc)
    (hsad : ∀ f ∈ M.fields, f.classification ≠ .sad) : enc.sad = [] := by
  unfold emitPIIMethods at henc
  split_ifs at henc
  cases henc
  rw [List.map_eq_nil_iff, List.filter_eq_nil_iff]
  intro pf hpf
  obtain ⟨f, hf, rfl⟩ := List.mem_map.1 hpf
  have hkind : f.piiKind ≠ .rejected := by
    have := hsad f hf
    unfold FieldDesc.piiKind
    split_ifs
    · simp
    · cases f.descKind <;> simp
    · simp
  simp [FieldDesc.classify, hkind]

/-- **An event is encrypted, some subjects are forgotten, and it is decrypted: the fields of these
subjects are gone, and listed in their order; everything else is as before.**  Without faults,
`EncryptPII` fails only if a subject it needs was destroyed before. -/
theorem decryptPII_encryptPII (hG : V.crypto.Faithful) (henc : emitPIIMethods R M = some enc)
    (hsad : ∀ f ∈ M.fields, f.classification ≠ .sad) (hM : FixedOwners M) (hr : Ready V t k)
    (subject : String) (e : Event R) :
    (∀ e' k₁, enc.encryptPII V t subject e k = .ok e' k₁ →
      ∀ F, ∃ k₂, Shred.forgetAll V t F k₁ = .ok () k₂ ∧
        enc.decryptRedacting V t subject e' k₂ =
          .ok (shredded subject F (encryptedFields M) e,
            redactions subject F (encryptedFields M) e) k₂) ∧
    ((∀ f ∈ encryptedFields M, e.text (top f.goName) ≠ [] →
      Live V t (f.method.owner subject e) k) →
      ∃ e' k₁, enc.encryptPII V t subject e k = .ok e' k₁) := by
  obtain ⟨hfields, -, -⟩ := emitPIIMethods_eq_some henc
  have hnd := encryptedFields_nodup M
  have hnone := sad_eq_nil henc hsad
  rw [PIIEncoder.encryptPII, if_pos hnone, hfields]
  constructor
  · intro e' k₁ hencrypt F
    obtain ⟨hseal, -, hback⟩ := sealing_of_encrypt hnd hencrypt
    obtain ⟨k₂, hforget, hF⟩ := Shred.forgetAll_ok (t := t) hr.write k₁ F
    refine ⟨k₂, hforget, ?_⟩
    rw [PIIEncoder.decryptRedacting, if_pos hnone, hfields,
      eachRedacting_sealed hG hr.read (hback hr.backed) hF hM hseal hnd (fun _ h => h)
        (fun _ _ => rfl) hseal.frame.2]
    -- outside of its encrypted fields, the event was never touched
    congr 2
    refine Event.eq_of (fun p => ?_) hseal.frame.1
    by_cases hp : p ∈ (encryptedFields M).map fun f => top f.goName
    · exact if_pos hp
    · have hne : ∀ f ∈ encryptedFields M, p ≠ top f.goName := fun f hf heq =>
        hp (List.mem_map.2 ⟨f, hf, heq.symm⟩)
      exact (if_neg hp).trans ((hseal.frame.2 p hne).trans (text_shredded_of_ne hne).symm)
  · intro hlive
    exact eachField_encrypt_ready hM hnd (fun _ h => h) (fun _ _ => rfl) hr hlive

end Methods

/-! ### A message between two people -/

namespace Letter

/-- `message LetterSent { string to = 1; string text = 2 [PERSONAL]; bytes reply = 3 [SENSITIVE,
subject = "to"]; }` -/
def sent : MessageDesc where
  goName := "LetterSent"
  fields := [⟨"To", "to", .singular, .string, false, "", .unspecified⟩,
    ⟨"Text", "text", .singular, .string, false, "", .personal⟩,
    ⟨"Reply", "reply", .singular, .bytes, false, "to", .sensitive⟩]
  distinct := by decide

/-- A letter with two texts. -/
def letter : Event Unit :=
  ⟨fun p => if p = top "To" then [66] else if p = top "Text" then [1] else
    if p = top "Reply" then [2] else [], ()⟩

/-- The methods of the variant. -/
def methods : PIIEncoder (Event Unit) where
  name := "LetterSent"
  subject := subjectMethod (classifyFields sent).1
  fields := (encryptedFields sent).map PiiField.method
  sad := []

theorem fixedOwners : FixedOwners sent := by
  unfold FixedOwners
  decide

theorem ready : Ready (Shred.Vault.shredder 0) "acme" noKeys where
  read := rfl
  write := rfl
  wrap dek := ⟨dek, 1, rfl, rfl⟩
  rows s row h := by cases h
  cached s dek h := by cases h
  backed s dek h := by cases h

end Letter

/-- The generator writes them. -/
theorem Letter.emit : emitPIIMethods Unit Letter.sent = some Letter.methods := rfl

/-- The second subject of a letter is forgotten. -/
theorem letter_forgotten : ∃ e' k₁ k₂,
    Letter.methods.encryptPII (Shred.Vault.shredder 0) "acme" "A" Letter.letter noKeys =
      .ok e' k₁ ∧ Shred.forgetAll (Shred.Vault.shredder 0) "acme" ["B"] k₁ = .ok () k₂ ∧
    ∃ e₂, Letter.methods.decryptRedacting (Shred.Vault.shredder 0) "acme" "A" e' k₂ =
      .ok (e₂, [⟨"reply", "B", "shredded"⟩]) k₂ ∧
      e₂.text (top "Text") = [1] ∧ e₂.text (top "Reply") = [] := by
  have h := decryptPII_encryptPII Faithful.vault Letter.emit (by decide) Letter.fixedOwners
    Letter.ready "A" Letter.letter
  obtain ⟨e', k₁, hencrypt⟩ := h.2 fun f _ _ => Or.inr fun row hrow => by cases hrow
  obtain ⟨k₂, hforget, hdecrypt⟩ := h.1 e' k₁ hencrypt ["B"]
  have hlist : redactions "A" ["B"] (encryptedFields Letter.sent) Letter.letter =
      [⟨"reply", "B", "shredded"⟩] := by decide +kernel
  rw [hlist] at hdecrypt
  exact ⟨e', k₁, k₂, hencrypt, hforget, _, hdecrypt, by decide +kernel, by decide +kernel⟩

end Codegen

end EventStore
