import EventStore.Codegen.Schema
import EventStore.Shred.Sealing

/-!
# What the loop of `EncryptPII` leaves

`EncryptPII` writes the encrypted fields of the event one after the other, and the subject of a
field may be read from another one.  So what matters of a field is the event as it is when the loop
comes to it: the fields before have their new texts, the fields after have the old ones.

* `Sealing fs e e'` : going through the fields from `e` to `e'`, each one with a text is sealed
  under the key of its subject, and everything else stays.
* `sealing_of_encrypt` : that is so for every `EncryptPII` that returns.
* `FieldSealed.ne` : a sealed text is not the old one.
-/

namespace EventStore

/-- AES-GCM and base64 as they are documented: both are undone, and neither makes a text shorter. -/
structure Shred.Crypto.Faithful (G : Shred.Crypto) : Prop extends G.Lawful where
  seal_length : ∀ dek iv pt, pt.length ≤ (G.gcmSeal dek iv pt).length
  decode64 : ∀ b, G.decode64 (G.encode64 b) = .ok b
  encode_length : ∀ b, b.length ≤ (G.encode64 b).length

namespace Codegen

open Shred (PIIField PIIEncoder PIIKind Instance Keys Crypto cacheKey SealedUnder Extends Backed
  validKeySize)

/-! ### Texts of events -/

section Events

variable {R : Type} {e e' : Event R} {p q : Path} {b : Bytes}

theorem Event.eq_of (htext : ∀ p, e.text p = e'.text p) (hrest : e.rest = e'.rest) : e = e' := by
  cases e
  cases e'
  congr 1
  funext p
  exact htext p

@[simp] theorem Event.text_setText_self (e : Event R) : (e.setText p b).text p = b := if_pos rfl

theorem Event.text_setText_of_ne (e : Event R) (h : q ≠ p) : (e.setText p b).text q = e.text q :=
  if_neg h

@[simp] theorem Event.rest_setText (e : Event R) : (e.setText p b).rest = e.rest := rfl

/-- Writing what is there. -/
@[simp] theorem Event.setText_self (e : Event R) : e.setText p (e.text p) = e := by
  refine Event.eq_of (fun q => ?_) rfl
  by_cases h : q = p
  · rw [h, Event.text_setText_self]
  · exact Event.text_setText_of_ne e h

theorem top_injective {n m : String} (h : top n = top m) : n = m := by
  simpa [top] using h

/-- The bytes of a Go string are determined by it. -/
theorem asText_injective : Function.Injective asText := by
  intro a b h
  have hchar : Function.Injective fun x : UInt8 => Char.ofNat x.toNat := by
    intro x y hxy
    have hval : ∀ z : UInt8, (Char.ofNat z.toNat).toNat = z.toNat := by
      intro z
      have hz : z.toNat < 256 := z.toNat_lt
      have hvalid : z.toNat.isValidChar := Or.inl (by omega)
      rw [Char.ofNat, dif_pos hvalid]
      rfl
    have hn := congrArg Char.toNat hxy
    rw [hval, hval] at hn
    exact UInt8.toNat_inj.1 hn
  exact List.map_injective_iff.2 hchar (String.ofList_injective h)

end Events

/-! ### The encrypted fields -/

section Fields

variable {M : MessageDesc}

/-- The encrypted fields have Go names of their own. -/
theorem encryptedFields_nodup (M : MessageDesc) :
    ((encryptedFields M).map PiiField.goName).Nodup := by
  have hfields : ((classifyFields M).1.map PiiField.goName).Nodup := by
    simpa [classifyFields, Function.comp_def, FieldDesc.classify] using M.distinct
  exact hfields.sublist (List.filter_sublist.map _)

theorem mem_encryptedFields {pf : PiiField} :
    pf ∈ encryptedFields M ↔ ∃ f ∈ M.fields, f.classify = pf ∧ pf.encrypted = true := by
  simp only [encryptedFields, classifyFields, List.mem_filter, List.mem_map]
  constructor
  · rintro ⟨⟨f, hf, hpf⟩, henc⟩
    exact ⟨f, hf, hpf, henc⟩
  · rintro ⟨f, hf, hpf, henc⟩
    exact ⟨⟨f, hf, hpf⟩, henc⟩

/-- Fields of a message are told apart by their Go names. -/
theorem eq_of_goName {f g : FieldDesc} (hf : f ∈ M.fields) (hg : g ∈ M.fields)
    (h : f.goName = g.goName) : f = g :=
  List.inj_on_of_nodup_map M.distinct hf hg h

end Fields

/-! ### The loop -/

section Loop

variable {π R : Type} [DecidableEq π] {V : Instance π} {t subject name : String} {k k' : Keys π}
  {fs : List PiiField} {f : PiiField} {e e₁ e' : Event R} {p : Path}

/-- A text sealed under the key of the subject, which is in the cache. -/
def FieldSealed (V : Instance π) (t : String) (k : Keys π) (kind : PIIKind) (s : String)
    (pt ct : Bytes) : Prop :=
  ∃ dek sealed, k.caches V.process (cacheKey t s) = some dek ∧ validKeySize dek = true ∧
    SealedUnder V.crypto dek pt sealed ∧ ct = kind.wrap V.crypto sealed

/-- The fields from the event `e` to the event `e'`, each under its subject in the event as it is
when the loop comes to it. -/
def Sealing (V : Instance π) (t subject : String) (k : Keys π) :
    List PiiField → Event R → Event R → Prop
  | [], e, e' => e' = e
  | f :: fs, e, e' =>
    (e.text (top f.goName) = [] ∧ e'.text (top f.goName) = [] ∨
      e.text (top f.goName) ≠ [] ∧ FieldSealed V t k (f.method (R := R)).kind
        (f.method.owner subject e) (e.text (top f.goName)) (e'.text (top f.goName))) ∧
      Sealing V t subject k fs (e.setText (top f.goName) (e'.text (top f.goName))) e'

omit [DecidableEq π] in
theorem FieldSealed.mono {kind : PIIKind} {s : String} {pt ct : Bytes}
    (h : FieldSealed V t k kind s pt ct) (hext : Extends k k') :
    FieldSealed V t k' kind s pt ct := by
  obtain ⟨dek, sealed, hcache, hrest⟩ := h
  exact ⟨dek, sealed, hext.caches _ _ _ hcache, hrest⟩

/-- One field of `EncryptPII`. -/
theorem encrypt_method (h : f.method.encrypt V t subject name e k = .ok e₁ k') :
    (e.text (top f.goName) = [] ∧ e₁ = e ∨ e.text (top f.goName) ≠ [] ∧
      FieldSealed V t k' (f.method (R := R)).kind (f.method.owner subject e)
        (e.text (top f.goName)) (e₁.text (top f.goName)) ∧
      e₁ = e.setText (top f.goName) (e₁.text (top f.goName))) ∧
      Extends k k' ∧ (Backed V.process t k → Backed V.process t k') := by
  rcases Shred.encrypt_eq_ok.1 h with ⟨hempty, rfl, rfl⟩ | ⟨hne, sealed, hs, rfl⟩
  · exact ⟨Or.inl ⟨hempty, rfl⟩, .refl _, id⟩
  · obtain ⟨dek, hcache, hv, hsealed, hext, hback⟩ := Shred.encryptField_ok hs
    have htext : (f.method.set e (f.method.kind.wrap V.crypto sealed)).text (top f.goName) =
        (f.method (R := R)).kind.wrap V.crypto sealed := Event.text_setText_self e
    rw [htext]
    exact ⟨Or.inr ⟨hne, ⟨dek, sealed, hcache, hv, hsealed, rfl⟩, rfl⟩, hext, hback⟩

omit [DecidableEq π] in
/-- A loop that writes the fields it comes to writes their texts only. -/
theorem eachField_frame {step : PIIField (Event R) → Event R → EStateM Err (Keys π) (Event R)}
    (hw : Shred.Writes step) (h : Shred.eachField step (fs.map PiiField.method) e k = .ok e' k') :
    e'.rest = e.rest ∧ ∀ p, (∀ f ∈ fs, p ≠ top f.goName) → e'.text p = e.text p := by
  induction fs generalizing e k with
  | nil =>
    obtain ⟨rfl, -⟩ := EStateM.pure_eq_ok.1 h
    exact ⟨rfl, fun _ _ => rfl⟩
  | cons f fs ih =>
    obtain ⟨e₁, k₁, hstep, hloop⟩ := Shred.eachField_cons_eq_ok.1 h
    obtain ⟨hrest, htext⟩ := ih hloop
    have hone : e₁.rest = e.rest ∧ ∀ p, p ≠ top f.goName → e₁.text p = e.text p := by
      rcases hw _ e k e₁ k₁ hstep with rfl | ⟨b, rfl⟩
      · exact ⟨rfl, fun _ _ => rfl⟩
      · exact ⟨rfl, fun p hp => Event.text_setText_of_ne e hp⟩
    refine ⟨hrest.trans hone.1, fun p hp => ?_⟩
    rw [htext p fun g hg => hp g (List.mem_cons_of_mem f hg), hone.2 p (hp f List.mem_cons_self)]

/-- **Each field is sealed under the key of its subject.** -/
theorem sealing_of_encrypt (hnd : (fs.map PiiField.goName).Nodup)
    (h : Shred.eachField (PIIField.encrypt V t subject name) (fs.map PiiField.method) e k =
      .ok e' k') :
    Sealing V t subject k' fs e e' ∧ Extends k k' ∧
      (Backed V.process t k → Backed V.process t k') := by
  induction fs generalizing e k with
  | nil =>
    obtain ⟨rfl, rfl⟩ := EStateM.pure_eq_ok.1 h
    exact ⟨rfl, .refl _, id⟩
  | cons f fs ih =>
    obtain ⟨e₁, k₁, hstep, hrest⟩ := Shred.eachField_cons_eq_ok.1 h
    rw [List.map_cons, List.nodup_cons] at hnd
    obtain ⟨hseal, hext₁, hback₁⟩ := ih hnd.2 hrest
    obtain ⟨hone, hext, hback⟩ := encrypt_method hstep
    -- the later fields are other ones
    have hlater : e'.text (top f.goName) = e₁.text (top f.goName) :=
      (eachField_frame Shred.writes_encrypt hrest).2 _ fun g hg htop =>
        hnd.1 (List.mem_map.2 ⟨g, hg, (top_injective htop).symm⟩)
    refine ⟨?_, hext.trans hext₁, fun hb => hback₁ (hback hb)⟩
    rw [Sealing, hlater]
    rcases hone with ⟨hempty, rfl⟩ | ⟨hne, hsealed, hset⟩
    · rw [Event.setText_self]
      exact ⟨Or.inl ⟨hempty, hempty⟩, hseal⟩
    · rw [← hset]
      exact ⟨Or.inr ⟨hne, hsealed.mono hext₁⟩, hseal⟩

omit [DecidableEq π] in
/-- What a field is at the end. -/
theorem Sealing.mem (hnd : (fs.map PiiField.goName).Nodup) (h : Sealing V t subject k fs e e')
    (hf : f ∈ fs) :
    e.text (top f.goName) = [] ∧ e'.text (top f.goName) = [] ∨
      e.text (top f.goName) ≠ [] ∧ ∃ s, FieldSealed V t k (f.method (R := R)).kind s
        (e.text (top f.goName)) (e'.text (top f.goName)) := by
  induction fs generalizing e with
  | nil => exact absurd hf List.not_mem_nil
  | cons g fs ih =>
    rw [List.map_cons, List.nodup_cons] at hnd
    rcases List.mem_cons.1 hf with rfl | hf
    · exact h.1.imp id fun hs => ⟨hs.1, _, hs.2⟩
    · have hne : top f.goName ≠ top g.goName := fun htop =>
        hnd.1 (List.mem_map.2 ⟨f, hf, top_injective htop⟩)
      have hold := ih hnd.2 h.2 hf
      rwa [Event.text_setText_of_ne e hne] at hold

omit [DecidableEq π] in
/-- Everything but the texts of the fields stays. -/
theorem Sealing.frame (h : Sealing V t subject k fs e e') :
    e'.rest = e.rest ∧ ∀ p, (∀ f ∈ fs, p ≠ top f.goName) → e'.text p = e.text p := by
  induction fs generalizing e with
  | nil =>
    obtain rfl : e' = e := h
    exact ⟨rfl, fun _ _ => rfl⟩
  | cons f fs ih =>
    obtain ⟨hrest, htext⟩ := ih h.2
    refine ⟨hrest, fun p hp => ?_⟩
    rw [htext p fun g hg => hp g (List.mem_cons_of_mem f hg),
      Event.text_setText_of_ne e (hp f List.mem_cons_self)]

omit [DecidableEq π] in
/-- **A sealed text is not the old one**: it is longer. -/
theorem FieldSealed.ne (hG : V.crypto.Faithful) {kind : PIIKind} {s : String} {pt ct : Bytes}
    (h : FieldSealed V t k kind s pt ct) : ct ≠ pt ∧ ct ≠ [] := by
  obtain ⟨dek, sealed, -, -, ⟨iv, hiv, rfl⟩, rfl⟩ := h
  have hseal := hG.seal_length dek iv pt
  have hbody : pt.length < (Shred.wireV1AESGCM :: (iv ++ V.crypto.gcmSeal dek iv pt)).length := by
    simp only [List.length_cons, List.length_append]
    omega
  have hlen : pt.length <
      (kind.wrap V.crypto (Shred.wireV1AESGCM :: (iv ++ V.crypto.gcmSeal dek iv pt))).length := by
    cases kind with
    | bytes => exact hbody
    | string => exact hbody.trans_le (hG.encode_length _)
  constructor
  · intro heq
    rw [heq] at hlen
    exact lt_irrefl _ hlen
  · intro heq
    rw [heq] at hlen
    exact Nat.not_lt_zero _ hlen

omit [DecidableEq π] in
theorem Sealing.mono (h : Sealing V t subject k fs e e') (hext : Extends k k') :
    Sealing V t subject k' fs e e' := by
  induction fs generalizing e with
  | nil => exact h
  | cons f fs ih =>
    refine ⟨h.1.imp id fun hs => ⟨hs.1, hs.2.mono hext⟩, ih h.2⟩

end Loop

/-! ### Keys for examples -/

/-- The cipher of `Vault` is as documented. -/
theorem Faithful.vault : Shred.Vault.crypto.Faithful where
  toLawful := Shred.Vault.lawful
  seal_length dek _ pt := by
    simp only [Shred.Vault.crypto, List.length_append]
    exact Nat.le_add_right _ _
  decode64 _ := rfl
  encode_length _ := le_refl _

/-- No keys yet. -/
def noKeys : Keys (Fin 3) := ⟨fun _ _ => none, fun _ _ => none, UInt8.ofNat⟩

end Codegen

end EventStore
