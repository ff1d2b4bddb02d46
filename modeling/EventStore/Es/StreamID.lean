import EventStore.Es.Types
import EventStore.Failure.Basic
import Mathlib.Data.List.TakeWhile
import Mathlib.Tactic.Common

/-!
# Stream identities and their storage form

The tables hold a stream by its tenant and its canonical form `Type + ":" + ID`.  A slug contains
no colon, so the canonical form of a valid identity is split back at the right place:
`parseCanonical_canonical`, and two valid identities stored alike are equal
(`StreamID.eq_of_canonical_eq`).
-/

namespace EventStore

theorem ne_colon_of_isSlugHead {c : Char} (h : isSlugHead c = true) : c ≠ ':' := by
  rintro rfl
  revert h
  decide

theorem ne_colon_of_isSlugTail {c : Char} (h : isSlugTail c = true) : c ≠ ':' := by
  rintro rfl
  revert h
  decide

theorem ne_colon_of_slugMatch {s : String} (h : slugMatch s = true) : ∀ c ∈ s.toList, c ≠ ':' := by
  unfold slugMatch at h
  split at h
  · cases h
  · rename_i c cs heq
    simp only [Bool.and_eq_true, List.all_eq_true] at h
    intro d hd
    rw [heq, List.mem_cons] at hd
    rcases hd with rfl | hd
    · exact ne_colon_of_isSlugHead h.1.1
    · exact ne_colon_of_isSlugTail (h.2 d hd)

theorem toList_ne_nil_of_slugMatch {s : String} (h : slugMatch s = true) : s.toList ≠ [] := by
  intro hs
  simp [slugMatch, hs] at h

namespace StreamID

variable {s s' : StreamID}

theorem valid_iff : s.Valid ↔ s.tenant ≠ "" ∧ slugMatch s.type = true ∧ slugMatch s.id = true := by
  unfold Valid validate
  split_ifs with ht hs
  · simp [ht]
  · simp only [false_iff, not_and]
    intro _ h1 h2
    simp [h1, h2] at hs
  · simpa [ht] using hs

theorem canonical_toList (s : StreamID) :
    s.canonical.toList = s.type.toList ++ ':' :: s.id.toList := by
  simp [canonical, String.toList_append]

end StreamID

/-- **The storage form of a valid identity reads back as that identity.** -/
theorem parseCanonical_canonical {s : StreamID} (h : s.Valid) :
    parseCanonical s.tenant s.canonical = .ok s := by
  obtain ⟨ht, hty, hid⟩ := StreamID.valid_iff.1 h
  have hne : ∀ c ∈ s.type.toList, decide (c ≠ ':') = true :=
    fun c hc => decide_eq_true (ne_colon_of_slugMatch hty c hc)
  have htake : s.canonical.toList.takeWhile (· ≠ ':') = s.type.toList := by
    rw [StreamID.canonical_toList, List.takeWhile_append_of_pos hne]
    simp
  have hdrop : s.canonical.toList.dropWhile (· ≠ ':') = ':' :: s.id.toList := by
    rw [StreamID.canonical_toList, List.dropWhile_append_of_pos hne]
    simp
  unfold parseCanonical
  simp only [htake, hdrop, toList_ne_nil_of_slugMatch hty, toList_ne_nil_of_slugMatch hid,
    String.ofList_toList, or_self, if_false]
  have hv : s.validate = .ok () := h
  simp [newStreamID, hv, bind, Except.bind, pure, Except.pure]

/-- What is read from the storage form is a valid identity with that form. -/
theorem parseCanonical_eq_ok {tenant canonical : String} {s : StreamID}
    (h : parseCanonical tenant canonical = .ok s) :
    s.Valid ∧ s.tenant = tenant ∧ s.canonical = canonical := by
  have hsplit := List.takeWhile_append_dropWhile (p := fun c => decide (c ≠ ':'))
    (l := canonical.toList)
  unfold parseCanonical at h
  dsimp only at h
  split at h
  · cases h
  · rename_i c id hdrop
    -- what `dropWhile` stops at is the separator
    have hc : c = ':' := by
      have hhead := List.head?_dropWhile_not (fun c => decide (c ≠ ':')) canonical.toList
      rw [hdrop] at hhead
      simpa using hhead
    split_ifs at h
    obtain ⟨⟨⟩, hv, hs⟩ := Except.bind_eq_ok.1 h
    obtain rfl := Except.ok.inj hs
    refine ⟨hv, rfl, String.toList_injective ?_⟩
    rw [StreamID.canonical_toList, String.toList_ofList, String.toList_ofList]
    rw [hdrop, hc] at hsplit
    exact hsplit

/-- Valid identities of one tenant with the same storage form are equal. -/
theorem StreamID.eq_of_canonical_eq {s s' : StreamID} (h : s.Valid) (h' : s'.Valid)
    (ht : s.tenant = s'.tenant) (hc : s.canonical = s'.canonical) : s = s' := by
  have h1 := parseCanonical_canonical h
  rw [ht, hc, parseCanonical_canonical h'] at h1
  exact (Except.ok.inj h1).symm

end EventStore
