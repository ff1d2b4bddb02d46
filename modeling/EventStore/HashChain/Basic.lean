import Mathlib.Data.List.Infix
import Mathlib.Data.List.Nodup
import Mathlib.Data.List.Perm.Basic
import Mathlib.Data.Set.Basic

/-!
# Hash chains

A list of records is *chained* when each record stores the digest of its covered content linked
to the digest its predecessor stores; the first record is linked to a fixed root.

The digest function cannot be injective on all inputs (digests have a fixed length), so nothing
here assumes that.  `Scheme.Binding X` says that there is no collision, and no preimage of the
root, among the inputs `X`; the theorems ask it of the inputs that checking the lists in question
really hashes.

## Main results

* `Scheme.agree_of_tip_eq` : **a chain commits to its history.**  Two valid chains that end in
  the same stored digest have the same length, the same covered contents and the same stored
  digests.
* `Scheme.nodup_stored` : a valid chain stores no digest twice.
* `Scheme.prefix_of_subset` : a valid chain made of records of another valid chain is a prefix of
  it.
* `Scheme.not_valid_of_tampered` : editing a record, reordering, inserting before the last record
  and deleting other than at the end all break the chain.
-/

namespace EventStore

namespace HashChain

/-- What a chain of records `ρ` is made of: the content `κ` a record's digest covers, the digest
`η` the record stores, and how a digest is linked to the one before it. -/
structure Scheme (ρ κ η : Type*) where
  /-- The content of a record its digest covers. -/
  covered : ρ → κ
  /-- The digest a record stores. -/
  stored : ρ → η
  /-- The digest of a content linked to the digest before it. -/
  link : η → κ → η
  /-- The digest the first record is linked to. -/
  root : η

namespace Scheme

variable {ρ κ η : Type*} (S : Scheme ρ κ η)

/-- Every record stores the digest of its content linked to the record before it; the first one
is linked to `p`. -/
def Valid : η → List ρ → Prop
  | _, [] => True
  | p, r :: rs => S.stored r = S.link p (S.covered r) ∧ Valid (S.stored r) rs

/-- The inputs the digest function gets when a chain starting from `p` is checked. -/
def inputs : η → List ρ → List (η × κ)
  | _, [] => []
  | p, r :: rs => (p, S.covered r) :: inputs (S.stored r) rs

/-- The digest the next record of a chain starting from `p` is linked to. -/
def tip : η → List ρ → η
  | p, [] => p
  | _, r :: rs => tip (S.stored r) rs

/-- The inputs `X` neither collide nor digest to the root. -/
structure Binding (X : Set (η × κ)) : Prop where
  inj : ∀ x ∈ X, ∀ y ∈ X, S.link x.1 x.2 = S.link y.1 y.2 → x = y
  root_free : ∀ x ∈ X, S.link x.1 x.2 ≠ S.root

/-- The edits of a chained list that keep the stored digests of the records that survive. -/
inductive Tampered (L : List ρ) : List ρ → Prop
  /-- Covered content of some record was changed in place. -/
  | changed {L' : List ρ} : L'.map S.stored = L.map S.stored →
      L'.map S.covered ≠ L.map S.covered → Tampered L L'
  /-- The records were put in another order. -/
  | reordered {L' : List ρ} : L'.Perm L → L' ≠ L → Tampered L L'
  /-- Forged records were inserted before the last one. -/
  | inserted {L' : List ρ} : L.Sublist L' → L.length < L'.length → L'.getLast? = L.getLast? →
      Tampered L L'
  /-- A record `x` was deleted, and a record after it survives. -/
  | deleted {A B A' B' : List ρ} {x : ρ} : L = A ++ x :: B → A'.Sublist A → B'.Sublist B →
      B' ≠ [] → Tampered L (A' ++ B')

variable {S}

theorem Binding.mono {X Y : Set (η × κ)} (h : S.Binding X) (hXY : Y ⊆ X) : S.Binding Y :=
  ⟨fun x hx y hy => h.inj x (hXY hx) y (hXY hy), fun x hx => h.root_free x (hXY hx)⟩

theorem valid_append {p : η} {L M : List ρ} :
    S.Valid p (L ++ M) ↔ S.Valid p L ∧ S.Valid (S.tip p L) M := by
  induction L generalizing p with
  | nil => simp [Valid, tip]
  | cons r rs ih => simp [Valid, tip, ih, and_assoc]

theorem inputs_append {p : η} {L M : List ρ} :
    S.inputs p (L ++ M) = S.inputs p L ++ S.inputs (S.tip p L) M := by
  induction L generalizing p with
  | nil => rfl
  | cons r rs ih => simp [inputs, tip, ih]

@[simp] theorem tip_concat {p : η} {L : List ρ} {r : ρ} : S.tip p (L ++ [r]) = S.stored r := by
  induction L generalizing p with
  | nil => rfl
  | cons a L ih => simp [tip, ih]

theorem tip_eq_of_getLast? {p : η} {L M : List ρ}
    (h : L.getLast?.map S.stored = M.getLast?.map S.stored) : S.tip p L = S.tip p M := by
  cases L using List.reverseRecOn with
  | nil =>
    cases M using List.reverseRecOn with
    | nil => rfl
    | append_singleton M b => simp at h
  | append_singleton L a =>
    cases M using List.reverseRecOn with
    | nil => simp at h
    | append_singleton M b => simpa using h

theorem tip_eq_of_map_eq {p : η} {L M : List ρ} (h : L.map S.stored = M.map S.stored) :
    S.tip p L = S.tip p M := by
  induction L generalizing p M with
  | nil => simp_all
  | cons a L ih =>
    cases M with
    | nil => simp at h
    | cons b M =>
      obtain ⟨hab, hLM⟩ := List.cons.inj h
      simp only [tip, hab]
      exact ih hLM

theorem mem_inputs {p : η} {L : List ρ} {x : η × κ} (h : x ∈ S.inputs p L) :
    (x.1 = p ∨ ∃ r ∈ L, x.1 = S.stored r) ∧ ∃ r ∈ L, x.2 = S.covered r := by
  induction L generalizing p with
  | nil => cases h
  | cons r L ih =>
    rcases List.mem_cons.1 h with rfl | h
    · exact ⟨Or.inl rfl, r, List.mem_cons_self, rfl⟩
    · obtain ⟨h₁, a, ha, h₂⟩ := ih h
      refine ⟨Or.inr ?_, a, List.mem_cons_of_mem _ ha, h₂⟩
      rcases h₁ with h₁ | ⟨b, hb, h₁⟩
      · exact ⟨r, List.mem_cons_self, h₁⟩
      · exact ⟨b, List.mem_cons_of_mem _ hb, h₁⟩

/-- Every stored digest of a valid chain is a digest. -/
theorem Valid.exists_link {p : η} {L : List ρ} (h : S.Valid p L) {r : ρ} (hr : r ∈ L) :
    ∃ q c, S.stored r = S.link q c := by
  induction L generalizing p with
  | nil => cases hr
  | cons a L ih =>
    rcases List.mem_cons.1 hr with rfl | hr
    · exact ⟨p, _, h.1⟩
    · exact ih h.2 hr

/-- The last record of a valid chain, and the input its digest is computed from. -/
theorem stored_of_valid_concat {p : η} {L : List ρ} {r : ρ} (h : S.Valid p (L ++ [r])) :
    S.stored r = S.link (S.tip p L) (S.covered r) :=
  (valid_append.1 h).2.1

theorem mem_inputs_concat {p : η} {L : List ρ} {r : ρ} :
    (S.tip p L, S.covered r) ∈ S.inputs p (L ++ [r]) := by
  rw [inputs_append]
  exact List.mem_append_right _ List.mem_cons_self

theorem inputs_subset_of_isPrefix {p : η} {L M : List ρ} (h : L <+: M) :
    ∀ x ∈ S.inputs p L, x ∈ S.inputs p M := by
  obtain ⟨N, rfl⟩ := h
  intro x hx
  rw [inputs_append]
  exact List.mem_append_left _ hx

theorem Valid.of_isPrefix {p : η} {L M : List ρ} (h : S.Valid p M) (hp : L <+: M) :
    S.Valid p L := by
  obtain ⟨N, rfl⟩ := hp
  exact (valid_append.1 h).1

/-- **A chain commits to its history.**  The proof goes from the end of the two chains: equal
last digests have equal inputs, so the records covered the same content and were linked to the
same digest; a chain cannot end where the other one goes on, because no input digests to the
root. -/
theorem agree_of_tip_eq {L L' : List ρ} (hL : S.Valid S.root L) (hL' : S.Valid S.root L')
    (hb : S.Binding {x | x ∈ S.inputs S.root L ∨ x ∈ S.inputs S.root L'})
    (ht : S.tip S.root L = S.tip S.root L') :
    L.map S.covered = L'.map S.covered ∧ L.map S.stored = L'.map S.stored := by
  induction L using List.reverseRecOn generalizing L' with
  | nil =>
    cases L' using List.reverseRecOn with
    | nil => exact ⟨rfl, rfl⟩
    | append_singleton M b =>
      rw [tip_concat, stored_of_valid_concat hL'] at ht
      exact absurd ht.symm (hb.root_free _ (Or.inr mem_inputs_concat))
  | append_singleton L a ih =>
    cases L' using List.reverseRecOn with
    | nil =>
      rw [tip_concat, stored_of_valid_concat hL] at ht
      exact absurd ht (hb.root_free _ (Or.inl mem_inputs_concat))
    | append_singleton M b =>
      have hst : S.stored a = S.stored b := by simpa using ht
      -- equal digests of bound inputs: the inputs are equal, and with them the tips before
      have hin : (S.tip S.root L, S.covered a) = (S.tip S.root M, S.covered b) := by
        apply hb.inj _ (Or.inl mem_inputs_concat) _ (Or.inr mem_inputs_concat)
        rw [← stored_of_valid_concat hL, ← stored_of_valid_concat hL', hst]
      have hb' : S.Binding {x | x ∈ S.inputs S.root L ∨ x ∈ S.inputs S.root M} :=
        hb.mono fun x hx => hx.imp (inputs_subset_of_isPrefix (List.prefix_append _ _) x)
          (inputs_subset_of_isPrefix (List.prefix_append _ _) x)
      obtain ⟨hc, hs⟩ := ih (valid_append.1 hL).1 (valid_append.1 hL').1 hb' (Prod.mk.inj hin).1
      constructor
      · simp [hc, (Prod.mk.inj hin).2]
      · simp [hs, hst]

/-- Two prefixes of one valid chain with the same tip are the same prefix. -/
theorem length_eq_of_isPrefix {L A B : List ρ} (hL : S.Valid S.root L)
    (hb : S.Binding {x | x ∈ S.inputs S.root L}) (hA : A <+: L) (hB : B <+: L)
    (ht : S.tip S.root A = S.tip S.root B) : A.length = B.length := by
  have hAB := agree_of_tip_eq (hL.of_isPrefix hA) (hL.of_isPrefix hB)
    (hb.mono fun x hx =>
      hx.elim (inputs_subset_of_isPrefix hA x) (inputs_subset_of_isPrefix hB x)) ht
  simpa using congrArg List.length hAB.1

/-- **A valid chain stores no digest twice.** -/
theorem nodup_stored {L : List ρ} (hL : S.Valid S.root L)
    (hb : S.Binding {x | x ∈ S.inputs S.root L}) : (L.map S.stored).Nodup := by
  induction L using List.reverseRecOn with
  | nil => simp
  | append_singleton L a ih =>
    have hpre : L <+: L ++ [a] := List.prefix_append _ _
    have hn := ih (hL.of_isPrefix hpre) (hb.mono (inputs_subset_of_isPrefix hpre))
    rw [List.map_append, List.map_singleton, ← List.concat_eq_append, List.nodup_concat]
    refine ⟨?_, hn⟩
    rw [List.mem_map]
    rintro ⟨x, hx, hxa⟩
    -- the prefix that ends in `x` has the tip of the whole list, and is shorter
    obtain ⟨A, B, rfl⟩ := List.append_of_mem hx
    have hA : A ++ [x] <+: A ++ x :: B ++ [a] := ⟨B ++ [a], by simp⟩
    have := length_eq_of_isPrefix hL hb hA (List.prefix_refl _)
      (by rw [tip_concat, tip_concat, hxa])
    simp only [List.length_append, List.length_cons, List.length_nil] at this
    omega

/-- Lists over a set on which `f` is injective are determined by their image. -/
theorem eq_of_map_eq {α β : Type*} {f : α → β} {L : List α}
    (hinj : ∀ ⦃a⦄, a ∈ L → ∀ ⦃b⦄, b ∈ L → f a = f b → a = b) :
    ∀ {A B : List α}, A ⊆ L → B ⊆ L → A.map f = B.map f → A = B
  | [], [], _, _, _ => rfl
  | [], _ :: _, _, _, h => by simp at h
  | _ :: _, [], _, _, h => by simp at h
  | a :: A, b :: B, hA, hB, h => by
    obtain ⟨ha, hA⟩ := List.cons_subset.1 hA
    obtain ⟨hb, hB⟩ := List.cons_subset.1 hB
    obtain ⟨hab, hAB⟩ := List.cons.inj h
    rw [hinj ha hb hab, eq_of_map_eq hinj hA hB hAB]

/-- **A valid chain made of records of a valid chain is a prefix of it.** -/
theorem prefix_of_subset {L L' : List ρ} (hL : S.Valid S.root L) (hL' : S.Valid S.root L')
    (hb : S.Binding {x | x ∈ S.inputs S.root L ∨ x ∈ S.inputs S.root L'}) (hsub : L' ⊆ L) :
    L' <+: L := by
  cases L' using List.reverseRecOn with
  | nil => exact List.nil_prefix
  | append_singleton M x =>
    obtain ⟨A, B, rfl⟩ := List.append_of_mem (hsub (List.mem_append_right M List.mem_cons_self))
    have hA : A ++ [x] <+: A ++ x :: B := ⟨B, by simp⟩
    have hs := (agree_of_tip_eq (hL.of_isPrefix hA) hL'
      (hb.mono fun y hy => hy.imp (inputs_subset_of_isPrefix hA y) id) (by simp)).2
    -- a record of the chain is determined by the digest it stores
    have hinj := List.inj_on_of_nodup_map (nodup_stored hL (hb.mono fun _ => Or.inl))
    exact eq_of_map_eq hinj hA.subset hsub hs ▸ hA

/-- Where a list without repetitions has lost an element, with a later one kept, the rest is not a
prefix. -/
theorem not_prefix_of_deleted {α : Type*} {A B A' B' : List α} {x : α} (hn : (A ++ x :: B).Nodup)
    (hA : A'.Sublist A) (hB : B'.Sublist B) (hne : B' ≠ []) : ¬ A' ++ B' <+: A ++ x :: B := by
  rintro ⟨C, hC⟩
  obtain ⟨y, B', rfl⟩ := List.exists_cons_of_ne_nil hne
  obtain ⟨B₁, B₂, rfl⟩ := List.append_of_mem (hB.subset List.mem_cons_self)
  -- `y` stands at two positions of the list
  have h₁ : (A ++ x :: (B₁ ++ y :: B₂))[A'.length]? = some y := by
    rw [← hC]
    simp
  have h₂ : (A ++ x :: (B₁ ++ y :: B₂))[A.length + (B₁.length + 1)]? = some y := by
    rw [List.getElem?_append_right (Nat.le_add_right ..)]
    simp
  have hlt : A'.length < (A ++ x :: (B₁ ++ y :: B₂)).length := by
    rw [List.length_append, List.length_cons]
    have := hA.length_le
    omega
  have := (List.getElem?_inj hlt hn).1 (h₁.trans h₂.symm)
  have := hA.length_le
  omega

/-- **No edit of a valid chain is a valid chain.**  A change in place and an insertion keep the
last stored digest, so the edited list would have the length and the contents of the original; a
reordering or a deletion leaves records of the original only, so it would be a prefix of it. -/
theorem not_valid_of_tampered {L L' : List ρ} (hL : S.Valid S.root L) (ht : S.Tampered L L')
    (hb : S.Valid S.root L' → S.Binding {x | x ∈ S.inputs S.root L ∨ x ∈ S.inputs S.root L'}) :
    ¬ S.Valid S.root L' := by
  intro hL'
  have hb := hb hL'
  cases ht with
  | changed hs hc =>
    exact hc (agree_of_tip_eq hL hL' hb (tip_eq_of_map_eq hs.symm)).1.symm
  | reordered hp hne =>
    exact hne ((prefix_of_subset hL hL' hb hp.subset).eq_of_length hp.length_eq)
  | inserted hsub hlen hlast =>
    have := congrArg List.length (agree_of_tip_eq hL hL' hb
      (tip_eq_of_getLast? (by rw [hlast]))).1
    rw [List.length_map, List.length_map] at this
    omega
  | @deleted A B A' B' x hLeq hA hB hne =>
    have hn : L.Nodup := (nodup_stored hL (hb.mono fun _ => Or.inl)).of_map _
    subst hLeq
    refine not_prefix_of_deleted hn hA hB hne (prefix_of_subset hL hL' hb ?_)
    exact (hA.append (hB.cons x)).subset

end Scheme

end HashChain

end EventStore
