import EventStore.Shred.FirstUse

/-!
# Key stores

`kms.KeyStore` and `kms.KEKRotator` as operations on a state of some type, and the store that keeps
the keys of its tenants (KEKs) in memory, `adapters/kms/inproc`.  A tenant has a list of KEKs, the
oldest first; the version of a KEK is its place in the list, counted from 1 in a `uint32`.

* `Inproc.wrapDEK_eq` : what `WrapDEK` returns unwraps to the same key, while the tenant has fewer
  than `2 ^ 32` KEKs.
* `Inproc.Unwraps.mono` : and it stays so when KEKs are added.
-/

namespace EventStore

namespace Kms

open Shred (Crypto newCipher nonceSize validKeySize)

/-- `kms.KeyStore` with `kms.KEKRotator`, on a state `σ`. -/
structure KeyStore (σ : Type) where
  wrapDEK : String → Bytes → EStateM Err σ (Bytes × UInt32)
  unwrapDEK : String → Bytes → UInt32 → EStateM Err σ Bytes
  currentKEKVersion : String → EStateM Err σ UInt32
  rotateKEK : String → EStateM Err σ UInt32

/-! ### Versions -/

section Versions

variable {α : Type} {l l' : List α} {v : UInt32} {a : α}

/-- The entry with a version, counted from 1. -/
def atVersion? (l : List α) (v : UInt32) : Option α := if v = 0 then none else l[v.toNat - 1]?

/-- A version that is not refused has an entry. -/
theorem atVersion?_of_le (hzero : v ≠ 0) (hle : v.toNat ≤ l.length) (d : α) :
    atVersion? l v = some (l.getD (v.toNat - 1) d) := by
  have hpos : 0 < v.toNat := by
    rw [Nat.pos_iff_ne_zero]
    exact fun hz => hzero (UInt32.toNat_inj.1 hz)
  have hlt : v.toNat - 1 < l.length := by omega
  rw [atVersion?, if_neg hzero, List.getD_eq_getElem?_getD, List.getElem?_eq_getElem hlt,
    Option.getD_some]

theorem le_of_atVersion? (h : atVersion? l v = some a) : v ≠ 0 ∧ v.toNat ≤ l.length := by
  unfold atVersion? at h
  split_ifs at h with hzero
  obtain ⟨hlt, -⟩ := List.getElem?_eq_some_iff.1 h
  exact ⟨hzero, by omega⟩

/-- **An entry keeps its version when entries are added.** -/
theorem atVersion?_mono (h : atVersion? l v = some a) (hl : l <+: l') :
    atVersion? l' v = some a := by
  obtain ⟨more, rfl⟩ := hl
  unfold atVersion? at h ⊢
  split_ifs at h ⊢
  obtain ⟨hlt, -⟩ := List.getElem?_eq_some_iff.1 h
  rw [List.getElem?_append_left hlt, h]

/-- The newest entry has the number of the entries as its version, if that fits. -/
theorem atVersion?_last (hmax : l.length < 2 ^ 32) (hlast : l.getLast? = some a) :
    atVersion? l (UInt32.ofNat l.length) = some a := by
  have hpos : 0 < l.length := List.length_pos_of_mem (List.mem_of_getLast? hlast)
  have hver : (UInt32.ofNat l.length).toNat = l.length := by
    rw [UInt32.toNat_ofNat']
    exact Nat.mod_eq_of_lt hmax
  have hne : UInt32.ofNat l.length ≠ 0 := by
    intro hz
    rw [hz] at hver
    simp at hver
    omega
  rw [atVersion?, if_neg hne, hver, ← List.getLast?_eq_getElem?, hlast]

end Versions

/-! ### Wrapping with AES-GCM -/

/-- `aesGCMSeal`, where `draw` reads the nonce from `crypto/rand`. -/
def aesGCMSeal {σ : Type} (G : Crypto) (draw : EStateM Err σ Bytes) (key plaintext : Bytes) :
    EStateM Err σ Bytes := do
  EStateM.ofExcept (newCipher key)
  let nonce ← draw
  return nonce ++ G.gcmSeal key nonce plaintext

/-- `aesGCMOpen`, where `short` is what it says of too few bytes. -/
def aesGCMOpen (G : Crypto) (short : String) (key sealed : Bytes) : Except Err Bytes := do
  newCipher key
  if sealed.length < nonceSize then .error (.text short)
  else
    match G.gcmOpen key (sealed.take nonceSize) (sealed.drop nonceSize) with
    | some pt => .ok pt
    | none => .error (.text "cipher: message authentication failed")

theorem newCipher_eq_ok {key : Bytes} : newCipher key = .ok () ↔ validKeySize key = true := by
  unfold newCipher
  split_ifs with h <;> simp [h]

/-- What was sealed is opened under the same key. -/
theorem aesGCMOpen_seal {G : Crypto} (hG : G.Lawful) {short : String} {key nonce pt : Bytes}
    (hkey : validKeySize key = true) (hnonce : nonce.length = nonceSize) :
    aesGCMOpen G short key (nonce ++ G.gcmSeal key nonce pt) = .ok pt := by
  have hlen : ¬ (nonce ++ G.gcmSeal key nonce pt).length < nonceSize := by
    rw [List.length_append]
    omega
  rw [aesGCMOpen, newCipher_eq_ok.2 hkey, Except.ok_bind, if_neg hlen, ← hnonce, List.take_left,
    List.drop_left, hG.gcmOpen]

/-! ### The store in memory -/

/-- `inproc.KeyStore`: the KEKs of the tenants, and the random bytes to come. -/
structure Inproc where
  keks : String → List Bytes
  random : ℕ → UInt8

namespace Inproc

/-- `rand.Read`. -/
def readRandom (n : ℕ) : EStateM Err Inproc Bytes :=
  fun x => .ok ((List.range n).map x.random) { x with random := fun i => x.random (n + i) }

/-- The next KEK of a tenant. -/
def append (tenant : String) (kek : Bytes) : EStateM Err Inproc Unit :=
  fun x => .ok () { x with keks := fun t =>
    if t = tenant then x.keks tenant ++ [kek] else x.keks t }

/-- `uint32(len(k.keks[tenantID]))`. -/
def version (x : Inproc) (tenant : String) : UInt32 := UInt32.ofNat (x.keks tenant).length

/-- `activeKEK`. -/
def activeKEK (tenant : String) : EStateM Err Inproc (Bytes × UInt32) := do
  let x ← get
  match (x.keks tenant).getLast? with
  | some kek => return (kek, x.version tenant)
  | none =>
    let kek ← readRandom 32
    append tenant kek
    return (kek, 1)

/-- `WrapDEK`. -/
def wrapDEK (G : Crypto) (tenant : String) (dek : Bytes) : EStateM Err Inproc (Bytes × UInt32) := do
  let (kek, v) ← activeKEK tenant
  let wrapped ← aesGCMSeal G (readRandom nonceSize) kek dek
  return (wrapped, v)

/-- The outcome of `UnwrapDEK`, which changes nothing. -/
def open? (G : Crypto) (x : Inproc) (tenant : String) (wrapped : Bytes) (kekVersion : UInt32) :
    Except Err Bytes :=
  if kekVersion = 0 ∨ (x.keks tenant).length < kekVersion.toNat then
    .error (.text "inproc kms: KEK version not available")
  else
    aesGCMOpen G "inproc kms: ciphertext shorter than nonce"
      ((x.keks tenant).getD (kekVersion.toNat - 1) []) wrapped

/-- `UnwrapDEK`. -/
def unwrapDEK (G : Crypto) (tenant : String) (wrapped : Bytes) (kekVersion : UInt32) :
    EStateM Err Inproc Bytes := do
  let x ← get
  EStateM.ofExcept (x.open? G tenant wrapped kekVersion)

/-- `CurrentKEKVersion`. -/
def currentKEKVersion (tenant : String) : EStateM Err Inproc UInt32 := do
  let x ← get
  return x.version tenant

/-- `RotateKEK`. -/
def rotateKEK (tenant : String) : EStateM Err Inproc UInt32 := do
  let kek ← readRandom 32
  append tenant kek
  let x ← get
  return x.version tenant

/-- `inproc.New`. -/
def new (random : ℕ → UInt8) : Inproc := ⟨fun _ => [], random⟩

end Inproc

/-- The key store in memory. -/
def inproc (G : Crypto) : KeyStore Inproc where
  wrapDEK := Inproc.wrapDEK G
  unwrapDEK := Inproc.unwrapDEK G
  currentKEKVersion := Inproc.currentKEKVersion
  rotateKEK := Inproc.rotateKEK

namespace Inproc

variable {G : Crypto} {x x' : Inproc} {tenant t : String} {w dek : Bytes} {v : UInt32}

/-! ### KEKs are only added -/

/-- The KEKs are those from before and some more. -/
def Grows (x x' : Inproc) : Prop := ∀ t, x.keks t <+: x'.keks t

theorem Grows.refl (x : Inproc) : x.Grows x := fun _ => List.prefix_rfl

theorem Grows.trans {x'' : Inproc} (h : x.Grows x') (h' : x'.Grows x'') : x.Grows x'' :=
  fun t => (h t).trans (h' t)

/-- All KEKs have the size the store makes them with. -/
def Sized (x : Inproc) : Prop := ∀ t, ∀ kek ∈ x.keks t, kek.length = 32

/-- The state with one KEK added. -/
def added (x : Inproc) (tenant : String) (kek : Bytes) (random : ℕ → UInt8) : Inproc :=
  ⟨fun t => if t = tenant then x.keks tenant ++ [kek] else x.keks t, random⟩

theorem grows_added (kek : Bytes) (random : ℕ → UInt8) : x.Grows (x.added tenant kek random) := by
  intro t
  by_cases ht : t = tenant
  · subst ht
    simp [added]
  · simp [added, ht]

theorem Sized.added (h : x.Sized) {kek : Bytes} (hkek : kek.length = 32) (random : ℕ → UInt8) :
    (x.added tenant kek random).Sized := by
  intro t k hk
  by_cases ht : t = tenant
  · subst ht
    simp only [Inproc.added, if_pos, List.mem_append, List.mem_singleton] at hk
    rcases hk with hk | rfl
    · exact h t k hk
    · exact hkek
  · simp only [Inproc.added, if_neg ht] at hk
    exact h t k hk

/-- What is wrapped as `w` under the version `v` unwraps to the key. -/
def Unwraps (G : Crypto) (x : Inproc) (t : String) (w : Bytes) (v : UInt32) (dek : Bytes) : Prop :=
  x.open? G t w v = .ok dek

theorem unwraps_iff : Unwraps G x t w v dek ↔ ∃ kek, atVersion? (x.keks t) v = some kek ∧
    aesGCMOpen G "inproc kms: ciphertext shorter than nonce" kek w = .ok dek := by
  unfold Unwraps open?
  split_ifs with hv
  · simp only [false_iff, not_exists, not_and]
    intro kek hkek
    obtain ⟨hzero, hle⟩ := le_of_atVersion? hkek
    exact absurd hv (by simp [hzero, hle])
  · obtain ⟨hzero, hle⟩ := not_or.1 hv
    simp [atVersion?_of_le hzero (not_lt.1 hle) []]

/-- **What unwraps keeps unwrapping when KEKs are added.** -/
theorem Unwraps.mono (h : Unwraps G x t w v dek) (hg : x.Grows x') : Unwraps G x' t w v dek := by
  obtain ⟨kek, hkek, hopen⟩ := unwraps_iff.1 h
  exact unwraps_iff.2 ⟨kek, atVersion?_mono hkek (hg t), hopen⟩

/-- What the newest KEK seals unwraps under the number of the KEKs. -/
theorem unwraps_last (hG : G.Lawful) (hsized : x.Sized) (hmax : (x.keks t).length < 2 ^ 32)
    {kek nonce : Bytes} (hlast : (x.keks t).getLast? = some kek)
    (hnonce : nonce.length = nonceSize) :
    Unwraps G x t (nonce ++ G.gcmSeal kek nonce dek) (x.version t) dek := by
  have hvalid : validKeySize kek = true := by
    simp [validKeySize, hsized t kek (List.mem_of_getLast? hlast)]
  exact unwraps_iff.2 ⟨kek, atVersion?_last hmax hlast, aesGCMOpen_seal hG hvalid hnonce⟩

/-! ### The operations -/

theorem length_added (kek : Bytes) (random : ℕ → UInt8) :
    ((x.added tenant kek random).keks t).length =
      (x.keks t).length + if t = tenant then 1 else 0 := by
  by_cases ht : t = tenant
  · subst ht
    simp [added]
  · simp [added, ht]

/-- `activeKEK` returns the newest KEK, after it has made the first one if there was none. -/
theorem activeKEK_eq (hsized : x.Sized) : ∃ kek x', activeKEK t x = .ok (kek, x'.version t) x' ∧
    (x'.keks t).getLast? = some kek ∧ x.Grows x' ∧ x'.Sized ∧
      ∀ t', (x'.keks t').length ≤ max 1 (x.keks t').length := by
  cases hlast : (x.keks t).getLast? with
  | some kek =>
    refine ⟨kek, x, ?_, hlast, Grows.refl x, hsized, fun t' => le_max_right _ _⟩
    simp only [activeKEK, EStateM.bind_apply, EStateM.get_apply, hlast]
    rfl
  | none =>
    have hnil : x.keks t = [] := List.getLast?_eq_none_iff.1 hlast
    let kek := (List.range 32).map x.random
    let x' := x.added t kek fun i => x.random (32 + i)
    have hkeks : x'.keks t = [kek] := by simp [x', Inproc.added, hnil]
    have hversion : x'.version t = 1 := by rw [version, hkeks]; rfl
    refine ⟨kek, x', ?_, by rw [hkeks]; rfl, grows_added _ _, hsized.added (by simp [kek]) _, ?_⟩
    · rw [hversion]
      simp only [activeKEK, EStateM.bind_apply, EStateM.get_apply, hlast]
      rfl
    · intro t'
      rw [length_added]
      by_cases ht : t' = t
      · simp [ht, hnil]
      · rw [if_neg ht]
        exact le_max_right _ _

/-- `WrapDEK` seals under the newest KEK. -/
theorem wrapDEK_run (hsized : x.Sized) (dek : Bytes) : ∃ kek nonce x',
    wrapDEK G t dek x = .ok (nonce ++ G.gcmSeal kek nonce dek, x'.version t) x' ∧
      (x'.keks t).getLast? = some kek ∧ nonce.length = nonceSize ∧ x.Grows x' ∧ x'.Sized ∧
      ∀ t', (x'.keks t').length ≤ max 1 (x.keks t').length := by
  obtain ⟨kek, x', hactive, hlast, hgrows, hsized', hlen⟩ := activeKEK_eq (t := t) hsized
  have hvalid : validKeySize kek = true := by
    simp [validKeySize, hsized' t kek (List.mem_of_getLast? hlast)]
  refine ⟨kek, (List.range nonceSize).map x'.random,
    { x' with random := fun i => x'.random (nonceSize + i) }, ?_, hlast, by simp, hgrows, hsized',
    hlen⟩
  simp only [wrapDEK, EStateM.bind_apply, hactive, aesGCMSeal, newCipher_eq_ok.2 hvalid]
  rfl

/-- **What `WrapDEK` returns unwraps to the same key**, while the tenant has fewer than `2 ^ 32`
KEKs. -/
theorem wrapDEK_eq (hG : G.Lawful) (hsized : x.Sized) (hmax : (x.keks t).length < 2 ^ 32)
    (dek : Bytes) : ∃ w v x', wrapDEK G t dek x = .ok (w, v) x' ∧ Unwraps G x' t w v dek ∧
      x.Grows x' ∧ x'.Sized ∧ ∀ t', (x'.keks t').length ≤ max 1 (x.keks t').length := by
  obtain ⟨kek, nonce, x', hrun, hlast, hnonce, hgrows, hsized', hlen⟩ :=
    wrapDEK_run (G := G) (t := t) hsized dek
  have hmax' : (x'.keks t).length < 2 ^ 32 := by
    have := hlen t
    omega
  exact ⟨_, _, x', hrun, unwraps_last hG hsized' hmax' hlast hnonce, hgrows, hsized', hlen⟩

/-- `RotateKEK` adds a KEK. -/
theorem rotateKEK_eq (hsized : x.Sized) : ∃ v x', rotateKEK t x = .ok v x' ∧ x.Grows x' ∧
    x'.Sized ∧ ∀ t', (x'.keks t').length = (x.keks t').length + if t' = t then 1 else 0 :=
  ⟨_, x.added t ((List.range 32).map x.random) fun i => x.random (32 + i), rfl, grows_added _ _,
    hsized.added (by simp) _, fun _ => length_added _ _⟩

end Inproc

end Kms

end EventStore
