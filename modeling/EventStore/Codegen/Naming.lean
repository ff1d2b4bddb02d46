import EventStore.Codegen.Schema

/-!
# The names of accessors

The generated methods read the subject of a field through `e.Get` and the name that
`upperGoFieldName` makes of `subject_field`.  The accessor itself is generated by `protoc-gen-go`,
by a rule of its own: an underscore is dropped only before a lower-case letter, and a word starts
after a digit as well.

* `goAccessorName` : the rule of `protoc-gen-go`.
* `upperGoFieldName_eq_iff` : **the two names are the same iff every underscore stands before a
  lower-case letter, and no lower-case letter stands after a digit.**
-/

namespace EventStore

namespace Codegen

/-- The lower-case letters. -/
def isASCIILower (c : Char) : Bool := 'a' ≤ c && c ≤ 'z'

/-- The digits. -/
def isASCIIDigit (c : Char) : Bool := '0' ≤ c && c ≤ '9'

/-- A character, at the start of a word or not. -/
def raise (start : Bool) (c : Char) : Char :=
  if start && isASCIILower c then Char.ofNat (c.toNat - 32) else c

/-- The rest of a name by the rule of `protoc-gen-go`; `start` says that a word starts here. -/
def accessorLoop : (start : Bool) → List Char → List Char
  | _, [] => []
  | start, c :: cs =>
    if c = '_' then
      if cs.head?.any isASCIILower then accessorLoop true cs else c :: accessorLoop false cs
    else raise start c :: accessorLoop (isASCIIDigit c) cs

/-- The name `protoc-gen-go` makes of the name of a field. -/
def goAccessorName (protoName : String) : String :=
  String.ofList (accessorLoop true protoName.toList)

/-- Every underscore stands before a lower-case letter, and no lower-case letter after a digit. -/
def Conventional : List Char → Prop
  | [] => True
  | c :: cs =>
    (c = '_' → cs.head?.any isASCIILower = true) ∧
      (isASCIIDigit c = true → cs.head?.any isASCIILower = false) ∧ Conventional cs

variable {c : Char} {cs : List Char} {upper start : Bool}

theorem camel_cons (upper : Bool) (c : Char) (cs : List Char) :
    camel upper (c :: cs) = if c = '_' then camel true cs else raise upper c :: camel false cs := by
  simp only [camel, raise, isASCIILower, Bool.and_eq_true, decide_eq_true_eq]

theorem raise_eq_iff (h : upper = true → start = true) :
    raise upper c = raise start c ↔ (upper ≠ start → isASCIILower c = false) := by
  cases upper with
  | true => simp [h rfl]
  | false =>
    cases start with
    | false => simp
    | true =>
      cases hc : isASCIILower c with
      | false => simp [raise, hc]
      | true =>
        -- a lower-case letter is not the one that stands 32 places before it
        have hall : ∀ n < 123, 97 ≤ n → Char.ofNat (n - 32) ≠ Char.ofNat n := by decide +kernel
        have hrange : 97 ≤ c.toNat ∧ c.toNat ≤ 122 := by
          simpa [isASCIILower, Char.le_def, UInt32.le_iff_toNat_le] using hc
        have hne := hall c.toNat (by omega) hrange.1
        rw [Char.ofNat_toNat] at hne
        simpa [raise, hc] using hne.symm

/-- The rule keeps at least the characters the code keeps. -/
theorem length_camel_le (cs : List Char) (upper start : Bool) :
    (camel upper cs).length ≤ (accessorLoop start cs).length := by
  induction cs generalizing upper start with
  | nil => simp [camel, accessorLoop]
  | cons c cs ih =>
    rw [camel_cons, accessorLoop]
    split_ifs
    · exact ih _ _
    · exact Nat.le_succ_of_le (ih _ _)
    · exact Nat.succ_le_succ (ih _ _)

/-- The two loops from one place, where the code starts a word only if the rule does. -/
theorem camel_eq_iff (cs : List Char) (h : upper = true → start = true) :
    camel upper cs = accessorLoop start cs ↔
      Conventional cs ∧ (upper ≠ start → cs.head?.any isASCIILower = false) := by
  induction cs generalizing upper start with
  | nil => simp [camel, accessorLoop, Conventional]
  | cons c cs ih =>
    rw [camel_cons, accessorLoop, Conventional]
    by_cases hc : c = '_'
    · subst hc
      have hdigit : isASCIIDigit '_' = false := by decide
      have hlower : isASCIILower '_' = false := by decide
      by_cases hnext : cs.head?.any isASCIILower = true
      · have hrest : camel true cs = accessorLoop true cs ↔ Conventional cs := by
          simpa using ih fun h => h
        simp [hnext, hdigit, hlower, hrest]
      · -- the rule keeps the underscore, and so one character more
        have hlen := length_camel_le cs true false
        have hne : camel true cs ≠ '_' :: accessorLoop false cs := by
          intro he
          rw [he, List.length_cons] at hlen
          omega
        simp [hnext, hne]
    · have hrest := @ih false (isASCIIDigit c) (by simp)
      simp only [if_neg hc, List.cons.injEq, raise_eq_iff h, hrest, List.head?_cons,
        Option.any_some]
      simp only [hc, false_implies, true_and, ne_eq, Bool.false_eq, Bool.not_eq_false]
      exact ⟨fun h => ⟨⟨h.2.2, h.2.1⟩, h.1⟩, fun h => ⟨h.2, h.1.2, h.1.1⟩⟩

/-- **The accessor has the name the generated code calls it by, if and only if the name of the field
is conventional.** -/
theorem upperGoFieldName_eq_iff (protoName : String) :
    upperGoFieldName protoName = goAccessorName protoName ↔ Conventional protoName.toList := by
  rw [upperGoFieldName, goAccessorName, String.ofList_inj, camel_eq_iff _ fun h => h]
  simp

/-- Letters, digits and underscores, with a letter first. -/
def legalName (protoName : String) : Bool :=
  let letter (c : Char) := isASCIILower c || ('A' ≤ c && c ≤ 'Z')
  protoName.toList.head?.any letter &&
    protoName.toList.all fun c => letter c || isASCIIDigit c || c = '_'

/-- `line_2` has the accessor `GetLine_2`, and `sha1sum` has `GetSha1Sum`; the generated code calls
`GetLine2` and `GetSha1sum`. -/
theorem accessor_misnamed :
    (legalName "line_2" = true ∧ upperGoFieldName "line_2" = "Line2" ∧
        goAccessorName "line_2" = "Line_2") ∧
      legalName "sha1sum" = true ∧ upperGoFieldName "sha1sum" = "Sha1sum" ∧
        goAccessorName "sha1sum" = "Sha1Sum" := by
  decide +kernel

end Codegen

end EventStore
