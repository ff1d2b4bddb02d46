import EventStore.Shred.FirstUse

/-!
# What the methods leave behind

`EncryptField`, `DecryptField` and `ForgetSubject` of `Shred.Keys`, each by what its success says of
the table and of the cache of the process.

* `encryptField_ok` : a value is sealed under the key that is in the cache afterwards; what the
  table and the caches had before, they keep.
* `decryptField_cached`, `decryptField_shredded` : a key in the cache opens; without it, a row that
  is shredded is told.
* `encryptField_ready` : without faults, everything of a subject that is not destroyed is encrypted.
* `forgetAll_ok` : the entries of the subjects leave the cache and their rows are shredded.
-/

namespace EventStore

namespace Shred

variable {π : Type} [DecidableEq π] {V : Instance π} {t s : String} {k k' k'' : Keys π}
  {dek pt sealed : Bytes}

/-- Everything in the table and in the caches is still there. -/
structure Extends (k k' : Keys π) : Prop where
  caches : ∀ i key d, k.caches i key = some d → k'.caches i key = some d
  rows : ∀ t s row, k.subjectKeys t s = some row → k'.subjectKeys t s = some row

omit [DecidableEq π] in
theorem Extends.refl (k : Keys π) : Extends k k := ⟨fun _ _ _ => id, fun _ _ _ => id⟩

omit [DecidableEq π] in
theorem Extends.trans (h : Extends k k') (h' : Extends k' k'') : Extends k k'' :=
  ⟨fun i key d hd => h'.caches i key d (h.caches i key d hd),
    fun t s row hrow => h'.rows t s row (h.rows t s row hrow)⟩

/-- Subjects of one tenant have different places. -/
theorem cacheKey_subject {s' : String} (h : cacheKey t s = cacheKey t s') : s = s' := by
  have hl := congrArg String.toList h
  simp only [cacheKey, String.toList_append] at hl
  exact String.toList_injective (List.append_cancel_left hl)

/-- The keys of the tenant in the cache of the process have rows. -/
def Backed (j : π) (t : String) (k : Keys π) : Prop :=
  ∀ s d, k.caches j (cacheKey t s) = some d → (k.subjectKeys t s).isSome = true

/-- The key of the subject is put into the cache, where it has a row. -/
theorem Backed.setCache {j : π} (h : Backed j t k) (hext : Extends k k')
    (hcaches : ∀ i key, k'.caches i key =
      if i = j ∧ key = cacheKey t s then some dek else k.caches i key)
    (hrow : (k'.subjectKeys t s).isSome = true) : Backed j t k' := by
  intro s' d hd
  by_cases hs : cacheKey t s' = cacheKey t s
  · rwa [cacheKey_subject hs]
  · rw [hcaches, if_neg fun hc => hs hc.2] at hd
    obtain ⟨row, hget⟩ := Option.isSome_iff_exists.1 (h s' d hd)
    rw [hext.rows t s' row hget]
    rfl

omit [DecidableEq π] in
theorem getSubjectKey_ok {found : Option SubjectKey}
    (h : V.getSubjectKey t s k = .ok found k') : found = k.subjectKeys t s ∧ k = k' := by
  unfold Instance.getSubjectKey at h
  cases hf : V.readFault with
  | some msg => rw [hf] at h; cases h
  | none =>
    rw [hf] at h
    cases h
    exact ⟨rfl, rfl⟩

/-- An entry is added to a cache that has none there. -/
theorem extends_setCache {j : π} (dek : Bytes) (h : k.caches j (cacheKey t s) = none) :
    Extends k (k.setCache j (cacheKey t s) (some dek)) := by
  refine ⟨fun i key d hd => ?_, fun _ _ _ => id⟩
  refine (if_neg ?_).trans hd
  rintro ⟨rfl, rfl⟩
  rw [h] at hd
  cases hd

omit [DecidableEq π] in
/-- A row is added to a table that has none there. -/
theorem extends_setRow (row : SubjectKey) (h : k.subjectKeys t s = none) :
    Extends k (k.setRow t s row) := by
  refine ⟨fun _ _ _ => id, fun t' s' row' hrow => ?_⟩
  refine (if_neg ?_).trans hrow
  rintro ⟨rfl, rfl⟩
  rw [h] at hrow
  cases hrow

/-- A key is made for a subject that has none. -/
theorem createSubjectKey_ok (hcache : k.caches V.process (cacheKey t s) = none)
    (hrow : k.subjectKeys t s = none) (h : V.createSubjectKey t s k = .ok dek k') :
    Extends k k' ∧ k'.caches V.process (cacheKey t s) = some dek ∧
      (Backed V.process t k → Backed V.process t k') := by
  unfold Instance.createSubjectKey at h
  obtain ⟨d, k₁, hrand, h⟩ := EStateM.bind_eq_ok.1 h
  cases hrand
  obtain ⟨⟨w, v⟩, k₁, hwrap, h⟩ := EStateM.bind_eq_ok.1 h
  obtain ⟨-, rfl⟩ := EStateM.ofExcept_eq_ok.1 hwrap
  obtain ⟨⟨⟩, k₂, hup, h⟩ := EStateM.bind_eq_ok.1 h
  obtain ⟨⟨⟩, k₃, hset, h⟩ := EStateM.bind_eq_ok.1 h
  cases hset
  obtain ⟨hd, rfl⟩ := EStateM.pure_eq_ok.1 h
  rw [hd]
  unfold Instance.upsertSubjectKey at hup
  cases hf : V.writeFault with
  | some msg => rw [hf] at hup; cases hup
  | none =>
    rw [hf] at hup
    cases hup
    -- first the row, then the entry; the random bytes do not matter
    have hr := extends_setRow (k := k) ⟨w, v, false⟩ hrow
    have hext : Extends k ((k.setRow t s ⟨w, v, false⟩).setCache V.process (cacheKey t s)
        (some dek)) := hr.trans (extends_setCache dek hcache)
    simp only [hrow]
    exact ⟨⟨hext.caches, hext.rows⟩, if_pos ⟨rfl, rfl⟩, fun hb =>
      hb.setCache ⟨hext.caches, hext.rows⟩ (fun _ _ => rfl)
        (by simp [Keys.setCache, Keys.setRow])⟩

/-- `EnsureSubjectKey` that returns a key. -/
theorem ensureSubjectKey_ok (h : V.ensureSubjectKey t s k = .ok dek k') :
    Extends k k' ∧ k'.caches V.process (cacheKey t s) = some dek ∧
      (Backed V.process t k → Backed V.process t k') := by
  unfold Instance.ensureSubjectKey at h
  obtain ⟨cached, _, hget, h⟩ := EStateM.bind_eq_ok.1 h
  cases hget
  cases hcache : k.caches V.process (cacheKey t s) with
  | some d =>
    rw [hcache] at h
    obtain ⟨rfl, rfl⟩ := EStateM.pure_eq_ok.1 h
    exact ⟨.refl k, hcache, id⟩
  | none =>
    rw [hcache] at h
    obtain ⟨found, k₁, hread, h⟩ := EStateM.bind_eq_ok.1 h
    obtain ⟨rfl, rfl⟩ := getSubjectKey_ok hread
    cases hrow : k.subjectKeys t s with
    | none =>
      rw [hrow] at h
      exact createSubjectKey_ok hcache hrow h
    | some row =>
      rw [hrow] at h
      dsimp only at h
      split_ifs at h with hsh
      · cases h
      · obtain ⟨d, k₁, hunwrap, hrest⟩ := EStateM.bind_eq_ok.1 h
        obtain ⟨-, rfl⟩ := EStateM.ofExcept_eq_ok.1 hunwrap
        obtain ⟨⟨⟩, k₂, hset, hret⟩ := EStateM.bind_eq_ok.1 hrest
        cases hset
        obtain ⟨rfl, rfl⟩ := EStateM.pure_eq_ok.1 hret
        have hext := extends_setCache d hcache
        exact ⟨hext, if_pos ⟨rfl, rfl⟩, fun hb => hb.setCache hext (fun _ _ => rfl)
          (by rw [hext.rows t s row hrow]; rfl)⟩

/-- **`EncryptField` seals under the key that is in the cache afterwards.** -/
theorem encryptField_ok (h : V.encryptField t s pt k = .ok sealed k') :
    ∃ dek, k'.caches V.process (cacheKey t s) = some dek ∧ validKeySize dek = true ∧
      SealedUnder V.crypto dek pt sealed ∧ Extends k k' ∧
        (Backed V.process t k → Backed V.process t k') := by
  obtain ⟨dek, k₁, hkey, hseal⟩ := EStateM.bind_eq_ok.1 h
  obtain ⟨hext, hcache, hback⟩ := ensureSubjectKey_ok hkey
  rcases aesGCMSealField_cases V.crypto dek pt k₁ with ⟨e, he⟩ | ⟨hv, iv, random, hiv, hok⟩
  · rw [he] at hseal
    cases hseal
  · rw [hok] at hseal
    cases hseal
    exact ⟨dek, hcache, hv, ⟨iv, hiv, rfl⟩, ⟨hext.caches, hext.rows⟩, hback⟩

/-- With the key in the cache, `DecryptField` is the decryption. -/
theorem decryptField_cached (h : k.caches V.process (cacheKey t s) = some dek) (ct : Bytes) :
    V.decryptField t s ct k = EStateM.ofExcept (aesGCMOpenField V.crypto dek ct) k := by
  simp [Instance.decryptField, cacheGet, h, bind, EStateM.bind]

/-- Without it, a row that is shredded is told. -/
theorem decryptField_shredded (h : k.caches V.process (cacheKey t s) = none)
    (hf : V.readFault = none) {row : SubjectKey} (hrow : k.subjectKeys t s = some row)
    (hsh : row.shredded = true) (ct : Bytes) :
    V.decryptField t s ct k = .error (.sentinel .shredded) k := by
  simp [Instance.decryptField, cacheGet, h, Instance.getSubjectKey, hf, hrow, hsh, bind,
    EStateM.bind]

/-! ### Without faults -/

/-- The database and the key store answer, and every key that is not destroyed is one of AES. -/
structure Ready (V : Instance π) (t : String) (k : Keys π) : Prop where
  read : V.readFault = none
  write : V.writeFault = none
  wrap : ∀ dek, ∃ w v, V.kms.wrapDEK t dek = .ok (w, v) ∧ V.kms.unwrapDEK t w v = .ok dek
  rows : ∀ s row, k.subjectKeys t s = some row → row.shredded = false →
    ∃ dek, V.kms.unwrapDEK t row.dekWrapped row.kekVersion = .ok dek ∧ validKeySize dek = true
  cached : ∀ s dek, k.caches V.process (cacheKey t s) = some dek → validKeySize dek = true
  backed : Backed V.process t k

/-- The key of the subject has not been destroyed, or is still in the cache. -/
def Live (V : Instance π) (t s : String) (k : Keys π) : Prop :=
  k.caches V.process (cacheKey t s) ≠ none ∨
    ∀ row, k.subjectKeys t s = some row → row.shredded = false

namespace Ready

variable (h : Ready V t k)

include h

theorem setCache (hv : validKeySize dek = true) (hrow : (k.subjectKeys t s).isSome = true) :
    Ready V t (k.setCache V.process (cacheKey t s) (some dek)) where
  read := h.read
  write := h.write
  wrap := h.wrap
  rows := h.rows
  cached s' d hd := by
    simp only [Keys.setCache] at hd
    split_ifs at hd with hc
    · cases hd
      exact hv
    · exact h.cached s' d hd
  backed s' d hd := by
    simp only [Keys.setCache] at hd
    split_ifs at hd with hc
    · rwa [cacheKey_subject hc.2]
    · exact h.backed s' d hd

omit [DecidableEq π] in
theorem setRow (row : SubjectKey) (hrow : row.shredded = false → ∃ dek,
    V.kms.unwrapDEK t row.dekWrapped row.kekVersion = .ok dek ∧ validKeySize dek = true) :
    Ready V t (k.setRow t s row) where
  read := h.read
  write := h.write
  wrap := h.wrap
  rows s' row' hr hsh := by
    simp only [Keys.setRow] at hr
    split_ifs at hr with hc
    · cases hr
      exact hrow hsh
    · exact h.rows s' row' hr hsh
  cached := h.cached
  backed s' d hd := by
    simp only [Keys.setRow]
    split_ifs
    · rfl
    · exact h.backed s' d hd

omit [DecidableEq π] in
theorem withRandom (random : ℕ → UInt8) : Ready V t { k with random := random } :=
  ⟨h.read, h.write, h.wrap, h.rows, h.cached, h.backed⟩

end Ready

/-- A key for a subject without one. -/
theorem createSubjectKey_ready (h : Ready V t k) (hrow : k.subjectKeys t s = none) :
    ∃ dek k', V.createSubjectKey t s k = .ok dek k' ∧ validKeySize dek = true ∧ Ready V t k' ∧
      ∀ s', Live V t s' k → Live V t s' k' := by
  obtain ⟨w, v, hwrap, hunwrap⟩ := h.wrap ((List.range 32).map k.random)
  have hsize : validKeySize ((List.range 32).map k.random) = true := by simp [validKeySize]
  have hready := (h.setRow (s := s) ⟨w, v, false⟩ fun _ => ⟨_, hunwrap, hsize⟩).setCache
    (s := s) hsize (by simp [Keys.setRow])
  refine ⟨_, _, ?_, hsize, hready.withRandom fun i => k.random (32 + i), fun s' hl => ?_⟩
  · simp [Instance.createSubjectKey, Instance.upsertSubjectKey, readRandom, cacheSet, hwrap,
      h.write, hrow, bind, EStateM.bind, EStateM.ofExcept, Except.mapError, pure, EStateM.pure,
      Keys.setRow, Keys.setCache]
  · by_cases hs : s' = s
    · exact Or.inl (by simp [Keys.setCache, hs])
    · refine hl.imp (fun hc => ?_) fun hr row => ?_
      · have hne : cacheKey t s' ≠ cacheKey t s := fun he => hs (cacheKey_subject he)
        simpa [Keys.setCache, Keys.setRow, hne] using hc
      · simpa [Keys.setCache, Keys.setRow, hs] using hr row

/-- The key of a subject that is not destroyed is found or made. -/
theorem ensureSubjectKey_ready (h : Ready V t k) (hlive : Live V t s k) :
    ∃ dek k', V.ensureSubjectKey t s k = .ok dek k' ∧ validKeySize dek = true ∧ Ready V t k' ∧
      ∀ s', Live V t s' k → Live V t s' k' := by
  cases hcache : k.caches V.process (cacheKey t s) with
  | some dek =>
    refine ⟨dek, k, ?_, h.cached s dek hcache, h, fun _ => id⟩
    simp [Instance.ensureSubjectKey, cacheGet, hcache, bind, EStateM.bind, pure, EStateM.pure]
  | none =>
    have hread : ∀ found, k.subjectKeys t s = found → V.getSubjectKey t s k = .ok found k := by
      rintro found rfl
      rw [Instance.getSubjectKey, h.read]
    cases hrow : k.subjectKeys t s with
    | none =>
      obtain ⟨dek, k', hcreate, hrest⟩ := createSubjectKey_ready h hrow
      refine ⟨dek, k', ?_, hrest⟩
      simp [Instance.ensureSubjectKey, cacheGet, hcache, hread _ hrow, hcreate, bind, EStateM.bind]
    | some row =>
      have hsh : row.shredded = false := (hlive.resolve_left (by simp [hcache])) row hrow
      obtain ⟨dek, hunwrap, hsize⟩ := h.rows s row hrow hsh
      refine ⟨dek, k.setCache V.process (cacheKey t s) (some dek), ?_, hsize,
        h.setCache hsize (by simp [hrow]), fun s' hl => ?_⟩
      · simp [Instance.ensureSubjectKey, cacheGet, hcache, hread _ hrow, hsh, Instance.unwrap,
          hunwrap, Except.mapError, EStateM.ofExcept, cacheSet, bind, EStateM.bind, pure,
          EStateM.pure]
      · refine hl.imp (fun hc => ?_) id
        simp only [Keys.setCache]
        split_ifs
        · simp
        · exact hc

omit [DecidableEq π] in
/-- With a key of AES, a value is sealed. -/
theorem aesGCMSealField_valid {G : Crypto} (hv : validKeySize dek = true) (pt : Bytes)
    (k : Keys π) : aesGCMSealField G dek pt k =
      .ok (wireV1AESGCM :: ((List.range nonceSize).map k.random ++
        G.gcmSeal dek ((List.range nonceSize).map k.random) pt))
        { k with random := fun i => k.random (nonceSize + i) } := by
  simp [aesGCMSealField, newCipher, hv, readRandom, bind, EStateM.bind, EStateM.ofExcept, pure,
    EStateM.pure]

/-- **What belongs to a subject that is not destroyed is encrypted.** -/
theorem encryptField_ready (h : Ready V t k) (hlive : Live V t s k) (pt : Bytes) :
    ∃ sealed k', V.encryptField t s pt k = .ok sealed k' ∧ Ready V t k' ∧
      ∀ s', Live V t s' k → Live V t s' k' := by
  obtain ⟨dek, k', hkey, hsize, hready, hkeep⟩ := ensureSubjectKey_ready h hlive
  exact ⟨_, _, EStateM.bind_eq_ok.2 ⟨dek, k', hkey, aesGCMSealField_valid hsize pt k'⟩,
    hready.withRandom _, hkeep⟩

/-! ### Forgetting -/

/-- The subjects of the list are forgotten: out of the cache, and their rows are shredded. -/
structure ForgottenAll (V : Instance π) (t : String) (F : List String) (k k' : Keys π) : Prop where
  cache : ∀ s, k'.caches V.process (cacheKey t s) =
    if s ∈ F then none else k.caches V.process (cacheKey t s)
  row : ∀ s, (k.subjectKeys t s).isSome = true → (k'.subjectKeys t s).isSome = true ∧
    ((∃ row, k.subjectKeys t s = some row ∧ row.shredded = true) ∨ s ∈ F →
      ∃ row, k'.subjectKeys t s = some row ∧ row.shredded = true)

/-- `ForgetSubject`, for one subject after the other. -/
def forgetAll (V : Instance π) (t : String) : List String → EStateM Err (Keys π) Unit
  | [] => pure ()
  | s :: F => do
    V.forgetSubject t s
    forgetAll V t F

/-- One call of `ForgetSubject`. -/
theorem forgetSubject_ok (hw : V.writeFault = none) (k : Keys π) (s : String) :
    ∃ k', V.forgetSubject t s k = .ok () k' ∧ ForgottenAll V t [s] k k' := by
  have hcache : ∀ k₁ : Keys π, k₁.caches = k.caches → ∀ s',
      (k₁.setCache V.process (cacheKey t s) none).caches V.process (cacheKey t s') =
        if s' ∈ [s] then none else k.caches V.process (cacheKey t s') := by
    intro k₁ hk s'
    by_cases hs : s' = s
    · simp [Keys.setCache, hs]
    · have hne : cacheKey t s' ≠ cacheKey t s := fun he => hs (cacheKey_subject he)
      simp [Keys.setCache, hs, hne, hk]
  cases hrow : k.subjectKeys t s with
  | none =>
    refine ⟨k.setCache V.process (cacheKey t s) none, ?_, hcache k rfl, ?_⟩
    · simp [Instance.forgetSubject, Instance.forgetRow, hw, hrow, cacheForget, bind, EStateM.bind]
    · intro s' hs'
      refine ⟨hs', fun hor => hor.resolve_right fun hmem => ?_⟩
      rw [List.mem_singleton.1 hmem, hrow] at hs'
      cases hs'
  | some row =>
    refine ⟨(k.setRow t s { row with dekWrapped := [], shredded := true }).setCache V.process
      (cacheKey t s) none, ?_, hcache _ rfl, ?_⟩
    · simp [Instance.forgetSubject, Instance.forgetRow, hw, hrow, cacheForget, bind, EStateM.bind]
    · intro s' hs'
      simp only [Keys.setCache, Keys.setRow, true_and, List.mem_singleton]
      split_ifs with hc
      · exact ⟨rfl, fun _ => ⟨_, rfl, rfl⟩⟩
      · exact ⟨hs', fun hor => hor.resolve_right hc⟩

/-- **All subjects of the list are forgotten.** -/
theorem forgetAll_ok (hw : V.writeFault = none) (k : Keys π) (F : List String) :
    ∃ k', forgetAll V t F k = .ok () k' ∧ ForgottenAll V t F k k' := by
  induction F generalizing k with
  | nil =>
    refine ⟨k, rfl, fun s => (if_neg List.not_mem_nil).symm, fun s hs => ⟨hs, fun hor => ?_⟩⟩
    exact hor.resolve_right List.not_mem_nil
  | cons s F ih =>
    obtain ⟨k₁, hone, hf₁⟩ := forgetSubject_ok (t := t) hw k s
    obtain ⟨k', hall, hf⟩ := ih k₁
    refine ⟨k', EStateM.bind_eq_ok.2 ⟨(), k₁, hone, hall⟩, fun s' => ?_, fun s' hs' => ?_⟩
    · rw [hf.cache, hf₁.cache]
      simp only [List.mem_cons]
      split_ifs <;> simp_all
    · obtain ⟨hs₁, hsh₁⟩ := hf₁.row s' hs'
      obtain ⟨hs₂, hsh₂⟩ := hf.row s' hs₁
      refine ⟨hs₂, fun hor => hsh₂ ?_⟩
      rcases hor with hold | hmem
      · exact Or.inl (hsh₁ (Or.inl hold))
      · rcases List.mem_cons.1 hmem with rfl | hmem
        · exact Or.inl (hsh₁ (Or.inr (List.mem_singleton.2 rfl)))
        · exact Or.inr hmem

end Shred

end EventStore
