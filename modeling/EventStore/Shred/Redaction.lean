import EventStore.Shred.Pii

/-!
# The fields `DecryptPII` redacts

`DecryptPII` returns the fields it has set to their zero values, because their subject was shredded.
`PIIEncoder.decryptRedacting` is the method with that list; `decryptPII_eq` says that it is the
method of `Shred.Pii` otherwise.
-/

namespace EventStore

namespace Shred

/-- `shred.RedactedField`. -/
structure RedactedField where
  name : String
  subject : String
  reason : String
  deriving DecidableEq

section Methods

variable {π E : Type} [DecidableEq π] (V : Instance π) (tenant subject : String)

/-- `DecryptPII` at one field, with the field if it is redacted. -/
def PIIField.decryptRedacting (name : String) (f : PIIField E) (e : E) :
    EStateM Err (Keys π) (E × List RedactedField) :=
  if f.get e = [] then pure (e, [])
  else do
    let field := f.name
    let sealed ← EStateM.ofExcept ((f.kind.unwrap V.crypto (f.get e)).mapError
      (.wrap s!"{name}.DecryptPII {field} base64"))
    fun k =>
      match V.decryptField tenant (f.owner subject e) sealed k with
      | .ok pt k' => .ok (f.set e pt, []) k'
      | .error err k' =>
        if err.is .shredded then
          -- the subject is read again, from the event with the field set to zero
          .ok (f.set e [], [⟨f.name, f.owner subject (f.set e []), "shredded"⟩]) k'
        else .error (.wrap s!"{name}.DecryptPII {field}" err) k'

/-- Through the fields, one after the other, with all that are redacted. -/
def eachRedacting (step : PIIField E → E → EStateM Err (Keys π) (E × List RedactedField)) :
    List (PIIField E) → E → EStateM Err (Keys π) (E × List RedactedField)
  | [], e => pure (e, [])
  | f :: fs, e => do
    let (e₁, redacted) ← step f e
    let (e₂, rest) ← eachRedacting step fs e₁
    return (e₂, redacted ++ rest)

/-- `DecryptPII` with the fields it redacts. -/
def PIIEncoder.decryptRedacting (enc : PIIEncoder E) (e : E) :
    EStateM Err (Keys π) (E × List RedactedField) :=
  if enc.sad = [] then
    eachRedacting (PIIField.decryptRedacting V tenant subject enc.name) enc.fields e
  else throw enc.sadError

end Methods

section Agree

variable {π E : Type} [DecidableEq π] {V : Instance π} {t subject name : String}

theorem decrypt_eq_map (f : PIIField E) (e : E) :
    f.decrypt V t subject name e = Prod.fst <$> f.decryptRedacting V t subject name e := by
  funext k
  unfold PIIField.decrypt PIIField.decryptRedacting
  split_ifs
  · rfl
  · cases hu : f.kind.unwrap V.crypto (f.get e) with
    | error err =>
      simp [bind, EStateM.bind, EStateM.ofExcept, Except.mapError, Functor.map, EStateM.map]
    | ok sealed =>
      cases hd : V.decryptField t (f.owner subject e) sealed k with
      | ok pt k' =>
        simp [bind, EStateM.bind, EStateM.ofExcept, Except.mapError, Functor.map, EStateM.map,
          orRedact, hd, EStateM.adaptExcept, pure, EStateM.pure]
      | error err k' =>
        by_cases hsh : err.is .shredded = true
        · simp [bind, EStateM.bind, EStateM.ofExcept, Except.mapError, Functor.map, EStateM.map,
            orRedact, hd, hsh, EStateM.adaptExcept, pure, EStateM.pure]
        · simp [bind, EStateM.bind, EStateM.ofExcept, Except.mapError, Functor.map, EStateM.map,
            orRedact, hd, hsh, EStateM.adaptExcept]

omit [DecidableEq π] in
theorem eachField_eq_map {step : PIIField E → E → EStateM Err (Keys π) E}
    {step' : PIIField E → E → EStateM Err (Keys π) (E × List RedactedField)}
    (h : ∀ f e, step f e = Prod.fst <$> step' f e) (fs : List (PIIField E)) (e : E) :
    eachField step fs e = Prod.fst <$> eachRedacting step' fs e := by
  induction fs generalizing e with
  | nil => simp [eachField, eachRedacting]
  | cons f fs ih => simp [eachField, eachRedacting, h, ih]

/-- **Without the list, it is the method of `Shred.Pii`.** -/
theorem decryptPII_eq (enc : PIIEncoder E) (e : E) :
    enc.decryptPII V t subject e = Prod.fst <$> enc.decryptRedacting V t subject e := by
  unfold PIIEncoder.decryptPII PIIEncoder.decryptRedacting
  split_ifs
  · exact eachField_eq_map decrypt_eq_map _ e
  · rfl

end Agree

end Shred

end EventStore
