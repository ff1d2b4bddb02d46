import EventStore.Storage.Versions

/-!
# Uniqueness claims over a history

A claim is a row of `unique_claims`, inserted and deleted in the transaction of the events that
go with it.  Along a history of committed appends the table is a register of keys: this file reads
off the history which stream holds a key.

* `historySystem` : appends one after the other, with the calls that committed.
* `latestOp` : the latest committed operation on a key.
* `append_claims` : **a failed append changes nothing; a successful one stores an outbox row per
  event and folds its operations into the claims; a key is held iff the latest operation on it was
  a claim, by the stream that issued it, and is not claimed twice without a release in between.**
-/

namespace EventStore

variable {κ : Columns} (D : Dialect κ) (H : Hasher)

/-- Appends one after the other from the empty database, with the list of the calls that have
committed. -/
def historySystem : TS (Db κ × List AppendParams) (Engine × AppendParams) where
  init s := s = (Db.empty, [])
  step s c s' :=
    s'.1 = (append D H c.1 c.2 s.1).2 ∧
      s'.2 = match (append D H c.1 c.2 s.1).1 with
        | .ok _ => s.2 ++ [c.2]
        | .error _ => s.2

/-- The constraint operations of a history, in the order in which they were applied. -/
def opsOf (hist : List AppendParams) : List IssuedOp := hist.flatMap AppendParams.ops

/-- The latest of the operations on the key. -/
def latestOp (key : ClaimKey) (xs : List IssuedOp) : Option IssuedOp :=
  xs.reverse.find? fun x => x.key == key

variable {D H}

/-! ### The register of claims -/

theorem opsAllowed_append {rows : List ClaimRow} {xs ys : List IssuedOp} :
    OpsAllowed rows (xs ++ ys) ↔ OpsAllowed rows xs ∧ OpsAllowed (xs.foldl foldOp rows) ys := by
  induction xs generalizing rows with
  | nil => simp [OpsAllowed]
  | cons x xs ih => simp [OpsAllowed, ih, and_assoc]

theorem latestOp_concat {key : ClaimKey} {xs : List IssuedOp} {x : IssuedOp} :
    latestOp key (xs ++ [x]) = if x.key = key then some x else latestOp key xs := by
  by_cases h : x.key = key <;> simp [latestOp, h]

/-- A key is in the register iff the latest operation on it was a claim. -/
theorem mem_foldOp_iff {xs : List IssuedOp} (h : OpsAllowed [] xs) {key : ClaimKey}
    {holder : String} : ⟨key, holder⟩ ∈ xs.foldl foldOp [] ↔
      ∃ x, latestOp key xs = some x ∧ x.2.op = .claim ∧ x.1.canonical = holder := by
  induction xs using List.reverseRecOn with
  | nil => simp [latestOp]
  | append_singleton xs x ih =>
    obtain ⟨hxs, hx, -⟩ := opsAllowed_append.1 h
    rw [List.foldl_append, List.foldl_cons, List.foldl_nil, latestOp_concat]
    rcases hx with ⟨hop, hfree⟩ | hop
    · -- a claim finds its key free, so the row it adds is the only one with that key
      by_cases hk : x.key = key
      · have hnot : ⟨key, holder⟩ ∉ xs.foldl foldOp [] := fun hin => hfree _ hin hk.symm
        simp [foldOp, hop, hk, hnot, eq_comm]
      · simp [foldOp, hop, hk, ← ih hxs, Ne.symm hk]
    · by_cases hk : x.key = key
      · simp [foldOp, hop, hk]
      · simp [foldOp, hop, hk, ← ih hxs, Ne.symm hk]

/-- A key that is in the register stays there until it is released. -/
theorem key_mem_foldl {xs : List IssuedOp} {rows : List ClaimRow} {key : ClaimKey}
    (hin : ∃ r ∈ rows, r.key = key) (hno : ∀ x ∈ xs, ¬ (x.2.op = .release ∧ x.key = key)) :
    ∃ r ∈ xs.foldl foldOp rows, r.key = key := by
  induction xs generalizing rows with
  | nil => exact hin
  | cons x xs ih =>
    obtain ⟨hx, hxs⟩ := List.forall_mem_cons.1 hno
    refine ih ?_ hxs
    obtain ⟨r, hr, hk⟩ := hin
    cases hop : x.2.op with
    | claim => exact ⟨r, by simp [foldOp, hop, hr], hk⟩
    | release =>
      have hne : r.key ≠ x.key := fun he => hx ⟨hop, he.symm.trans hk⟩
      exact ⟨r, by simp [foldOp, hop, hr, hne], hk⟩
    | unknown n => exact ⟨r, by simp [foldOp, hop, hr], hk⟩

/-- Between two claims of a key it was released. -/
theorem exists_release {xs pre mid post : List IssuedOp} {x y : IssuedOp} (h : OpsAllowed [] xs)
    (hxs : xs = pre ++ x :: (mid ++ y :: post)) (hx : x.2.op = .claim) (hy : y.2.op = .claim)
    (hk : x.key = y.key) : ∃ z ∈ mid, z.2.op = .release ∧ z.key = x.key := by
  by_contra hno
  push Not at hno
  subst hxs
  obtain ⟨-, -, hmid⟩ := opsAllowed_append.1 h
  obtain ⟨-, hyok, -⟩ := opsAllowed_append.1 hmid
  -- without a release the first claim would still be there when the second is made
  have hclaimed : ∃ r ∈ foldOp (pre.foldl foldOp []) x, r.key = x.key :=
    ⟨⟨x.key, x.1.canonical⟩, by simp [foldOp, hx], rfl⟩
  obtain ⟨r, hr, hrk⟩ := key_mem_foldl hclaimed fun z (hz : z ∈ mid) hzr =>
    hno z hz hzr.1 hzr.2
  rcases hyok with ⟨-, hfree⟩ | hrel
  · exact hfree r hr (hrk.trans hk)
  · rw [hy] at hrel
    cases hrel

/-! ### The table is the register of its history -/

/-- The table is the fold of the committed operations, none of which was refused. -/
theorem claims_of_history {s : Db κ × List AppendParams} (h : (historySystem D H).Reachable s) :
    OpsAllowed [] (opsOf s.2) ∧ s.1.uniqueClaims.rows = (opsOf s.2).foldl foldOp [] := by
  induction h with
  | init h₀ =>
    rw [show _ = _ from h₀]
    exact ⟨trivial, rfl⟩
  | @step s s' c _ hstep ih =>
    obtain ⟨hdb, hhist⟩ := hstep
    -- a failed call leaves the table and the history, a successful one adds its operations to both
    rcases hres : append D H c.1 c.2 s.1 with ⟨e | r, db'⟩
    · rw [hres] at hdb hhist
      rw [hhist, hdb, (append_error hres).2.2.1]
      exact ih
    · rw [hres] at hdb hhist
      obtain ⟨rows, ha⟩ := append_ok hres
      have hops : opsOf s'.2 = opsOf s.2 ++ c.2.ops := by
        rw [hhist, opsOf, List.flatMap_append]
        simp [opsOf]
      rw [hops, opsAllowed_append, List.foldl_append, hdb, ha.claims, ← ih.2]
      exact ⟨⟨ih.1, ha.allowed⟩, rfl⟩

/-- **Atomicity of an append, and the meaning of the claims.** -/
theorem append_claims :
    (∀ E p (db db' : Db κ) e, append D H E p db = (.error e, db') → db.SameTables db') ∧
    (∀ E p (db db' : Db κ) r, append D H E p db = (.ok r, db') →
      ∃ rows : List (EventRow κ),
        rows.map EventRow.eventID = p.events.map EventToAppend.eventID ∧
        db'.events.rows = db.events.rows ++ rows ∧
        db'.outbox.rows = db.outbox.rows ++ rows.map EventRow.outboxRow ∧
        db'.uniqueClaims.rows = p.ops.foldl foldOp db.uniqueClaims.rows) ∧
    ∀ (db : Db κ) hist, (historySystem D H).Reachable (db, hist) →
      (∀ key holder, ⟨key, holder⟩ ∈ db.uniqueClaims.rows ↔
        ∃ x, latestOp key (opsOf hist) = some x ∧ x.2.op = .claim ∧ x.1.canonical = holder) ∧
      ∀ pre x mid y post, opsOf hist = pre ++ x :: (mid ++ y :: post) →
        x.2.op = .claim → y.2.op = .claim → x.key = y.key →
          ∃ z ∈ mid, z.2.op = .release ∧ z.key = x.key := by
  refine ⟨fun E p db db' e h => append_error h, fun E p db db' r h => ?_, fun db hist h => ?_⟩
  · obtain ⟨rows, ha⟩ := append_ok h
    exact ⟨rows, ha.written.map_eventID, ha.events, ha.outbox, ha.claims⟩
  · obtain ⟨hallow, hrows⟩ := claims_of_history h
    refine ⟨fun key holder => ?_, fun pre x mid y post hxs hx hy hk =>
      exists_release hallow hxs hx hy hk⟩
    rw [show db.uniqueClaims.rows = _ from hrows]
    exact mem_foldOp_iff hallow

/-- A claim by one stream, then a release and a claim of the same key by another one. -/
theorem append_claims_two :
    let D := Sqlite.dialect .small
    let op (k : ConstraintOpKind) : ConstraintOp := ⟨k, "email", "a@b"⟩
    let p₁ := { AppendParams.bare 0 "a" with constraints := [op .claim] }
    let p₂ := { AppendParams.bare 0 "b" with
      streamID := ⟨"acme", "order", "2"⟩, constraints := [op .release, op .claim] }
    let db₁ := (append D .small .calm p₁ Db.empty).2
    let db₂ := (append D .small .calm p₂ db₁).2
    (historySystem D .small).Reachable (db₂, [p₁, p₂]) ∧
      ⟨⟨"acme", "email", "a@b"⟩, "order:2"⟩ ∈ db₂.uniqueClaims.rows ∧
      db₂.SameTables (append D .small .calm { p₁ with expectedVersion := 1 } db₂).2 := by
  intro D op p₁ p₂ db₁ db₂
  have h₁ : (append D .small .calm p₁ Db.empty).1 = .ok ⟨1, 1, 1, 1, 0⟩ := by decide +kernel
  have h₂ : (append D .small .calm p₂ db₁).1 = .ok ⟨1, 1, 2, 2, 0⟩ := by decide +kernel
  have h₃ : (append D .small .calm { p₁ with expectedVersion := 1 } db₂).1 =
      .error (.sentinel .constraintViolated) := by decide +kernel
  have hr₁ : (historySystem D .small).Reachable (db₁, [p₁]) :=
    .step (l := (.calm, p₁)) (.init rfl) ⟨rfl, by rw [h₁]; rfl⟩
  have hr : (historySystem D .small).Reachable (db₂, [p₁, p₂]) :=
    .step (l := (.calm, p₂)) hr₁ ⟨rfl, by rw [h₂]; rfl⟩
  refine ⟨hr, ((append_claims.2.2 _ _ hr).1 _ _).2 ⟨(p₂.streamID, op .claim), rfl, rfl, rfl⟩, ?_⟩
  exact append_claims.1 _ _ _ _ _ (Prod.ext h₃ rfl)

/-! ### When a claim is refused -/

/-- The error is not `es.ErrConstraintViolated`. -/
abbrev Err.Other (e : Err) : Prop := e.is .constraintViolated = false

/-- What the driver reports is not an error of the framework's own. -/
def Engine.Outside (E : Engine) : Prop := ∀ st e, E.fault st = some e → e.Other

variable (D H) in
/-- What the adapter takes from its libraries does not fail with an error of the framework's
own. -/
structure Dialect.Outside : Prop where
  encodeActor : ∀ a, Except.FailsIn Err.Other (D.encodeActor a)
  marshal : ∀ e, Except.FailsIn Err.Other (H.marshal e)
  storeJSON : ∀ b, Except.FailsIn Err.Other (D.storeJSON b)
  storeState : ∀ b, Except.FailsIn Err.Other (D.storeState b)
  preamble : ∀ x ∈ D.preamble, ∀ e : Err, e.Other → (x.2 e).Other

section Refused

variable {E : Engine} {p : AppendParams} {db db' : Db κ}

/-- A statement that meets no claim fails with another error. -/
theorem failsIn_statement {α : Type} (hE : E.Outside) {Q : DbErr → Prop}
    (hQ : ∀ e : Err, e.Other → Q (.other e)) {st : Statement}
    {x : Db κ → EStateM.Result DbErr (Db κ) α} (hx : EStateM.FailsIn Q x) :
    EStateM.FailsIn Q (statement E st x) := by
  intro s e s' h
  unfold statement at h
  split at h
  · rename_i e₀ hf
    cases h
    exact hQ e₀ (hE st e₀ hf)
  · exact hx s e s' h

theorem failsIn_prepareEvent (hD : D.Outside H) (i : ℕ) (prev : Bytes) (ev : EventToAppend) :
    Except.FailsIn Err.Other (prepareEvent D H E p i prev ev) := by
  refine Except.failsIn_bind (hD.encodeActor _) fun actor =>
    Except.failsIn_bind (Except.failsIn_mapError (Q := Err.Other) ?_ fun e he => he) fun hash =>
      Except.failsIn_bind (hD.storeJSON _) fun pj => Except.failsIn_bind (hD.storeJSON _) fun kr =>
        fun e h => by cases h
  intro e h
  simp only [computeChainHash] at h
  split_ifs at h
  · cases h
    rfl
  · exact Except.failsIn_bind (hD.marshal _) (fun b e h => by cases h) e h

theorem failsIn_appendEvents (hD : D.Outside H) (hE : E.Outside) (i : ℕ) (v : LoopVars)
    (evs : List EventToAppend) :
    EStateM.FailsIn Err.Other (appendEvents D H E p i v evs) := by
  induction evs generalizing i v with
  | nil => exact EStateM.failsIn_pure v
  | cons ev evs ih =>
    refine EStateM.failsIn_bind ?_ fun v' => ih (i + 1) v'
    refine EStateM.failsIn_bind (EStateM.failsIn_ofExcept (failsIn_prepareEvent hD i _ ev))
      fun row => EStateM.failsIn_bind ?_ fun gp => EStateM.failsIn_bind ?_ fun _ =>
        EStateM.failsIn_pure _
    · -- a row that is in the way is a conflict
      refine EStateM.failsIn_adaptExcept (Q := fun d => (mapErr d).Other)
        (failsIn_statement hE (fun e he => he) ?_) fun d hd => hd
      intro s e s' h
      dsimp only at h
      split at h
      · cases h
      · cases h
        rfl
    · refine EStateM.failsIn_adaptExcept (Q := fun d => d.toErr.Other)
        (failsIn_statement hE (fun e he => he) ?_) fun d hd => hd
      intro s e s' h
      dsimp only at h
      split at h
      · cases h
      · cases h
        rfl

theorem failsIn_cacheState (hD : D.Outside H) (hE : E.Outside) :
    EStateM.FailsIn Err.Other (cacheState D E p) := by
  unfold cacheState
  split
  · exact EStateM.failsIn_pure _
  · refine EStateM.failsIn_adaptExcept (Q := fun d => d.toErr.Other)
      (failsIn_statement hE (fun e he => he) ?_) fun d hd => hd
    intro s e s' h
    dsimp only at h
    split at h
    · cases h
    · rename_i e₀ he₀
      cases h
      exact hD.storeState _ e₀ he₀

theorem failsIn_runPreamble (hE : E.Outside) {l : List (Statement × (Err → Err))}
    (hl : ∀ x ∈ l, ∀ e : Err, e.Other → (x.2 e).Other) :
    EStateM.FailsIn Err.Other (runPreamble E l : Tx κ Unit) := by
  induction l with
  | nil => exact EStateM.failsIn_pure _
  | cons x l ih =>
    obtain ⟨hx, hl⟩ := List.forall_mem_cons.1 hl
    refine EStateM.failsIn_bind ?_ fun _ => ih hl
    refine EStateM.failsIn_adaptExcept (Q := fun d => d.toErr.Other)
      (failsIn_statement hE (fun e he => he) ?_) fun d hd => hx _ hd
    intro s e s' h
    cases h

/-- An operation that is not refused fails with another error. -/
theorem failsIn_applyConstraint (hE : E.Outside) {sid : StreamID} {op : ConstraintOp}
    (hop : OpAllowed db.uniqueClaims.rows (sid, op)) {i : ℕ} {e : Err}
    (h : applyConstraint D E sid i op db = .error e db') : e.Other := by
  rcases hop with ⟨hop, hfree⟩ | hop
  · -- the key is free, so that only the driver can fail the claim
    replace hop : op.op = .claim := hop
    simp only [applyConstraint, hop] at h
    obtain ⟨d, hd, rfl⟩ := EStateM.adaptExcept_eq_error.1 h
    unfold claimUnique statement at hd
    split at hd
    · rename_i e₀ hf
      cases hd
      exact hE _ e₀ hf
    · dsimp only at hd
      split at hd
      · cases hd
      · rename_i hins
        obtain ⟨r, hr, hclash⟩ := Table.insert_eq_none_iff.1 hins
        exact absurd hclash (hfree r hr)
  · replace hop : op.op = .release := hop
    simp only [applyConstraint, hop] at h
    obtain ⟨d, hd, rfl⟩ := EStateM.adaptExcept_eq_error.1 h
    unfold releaseUnique statement at hd
    split at hd
    · rename_i e₀ hf
      cases hd
      exact hE _ e₀ hf
    · cases hd

/-- Operations none of which is refused fail with another error. -/
theorem failsIn_applyConstraints (hE : E.Outside) {sid : StreamID} {ops : List ConstraintOp}
    (hops : OpsAllowed db.uniqueClaims.rows (ops.map (Prod.mk sid))) {i : ℕ} {e : Err}
    (h : applyConstraints D E sid i ops db = .error e db') : e.Other := by
  induction ops generalizing i db with
  | nil => cases h
  | cons op ops ih =>
    obtain ⟨hop, hops⟩ := hops
    rw [applyConstraints] at h
    rcases EStateM.bind_eq_error.1 h with h | ⟨⟨⟩, db₁, h₁, h⟩
    · exact failsIn_applyConstraint hE hop h
    · obtain ⟨-, t, rfl, ht⟩ := applyConstraint_ok h₁
      rw [← ht] at hops
      have hops' : OpsAllowed { db with uniqueClaims := t }.uniqueClaims.rows
        (ops.map (Prod.mk sid)) := hops
      exact ih hops' h

theorem failsIn_appendBody (hD : D.Outside H) (hE : E.Outside)
    (hops : OpsAllowed db.uniqueClaims.rows p.ops) {e : Err}
    (h : appendBody D H E p db = .error e db') : e.Other := by
  unfold appendBody at h
  rcases EStateM.bind_eq_error.1 h with hpre | ⟨⟨⟩, db₁, h₁, hrest⟩
  · exact failsIn_runPreamble hE hD.preamble _ _ _ hpre
  · rw [runPreamble_ok h₁] at hrest
    rcases EStateM.bind_eq_error.1 hrest with hcon | ⟨⟨⟩, db₂, -, hbatch⟩
    · exact failsIn_applyConstraints hE hops hcon
    · refine EStateM.failsIn_bind ?_ (fun prev => ?_) _ _ _ hbatch
      · refine EStateM.failsIn_adaptExcept (Q := fun d => d.toErr.Other)
          (failsIn_statement hE (fun e he => he) ?_) fun d hd => hd
        intro s e s' h
        cases h
      · exact EStateM.failsIn_bind (failsIn_appendEvents hD hE _ _ _) fun v =>
          EStateM.failsIn_bind (failsIn_cacheState hD hE) fun _ => EStateM.failsIn_pure _

/-- **`ErrConstraintViolated` means that a claim was refused.** -/
theorem not_opsAllowed_of_append (hD : D.Outside H) (hE : E.Outside) {e : Err}
    (h : append D H E p db = (.error e, db')) (he : e.is .constraintViolated = true) :
    ¬ OpsAllowed db.uniqueClaims.rows p.ops := by
  intro hops
  have hother : e.Other := by
    unfold append at h
    split at h
    · rename_i e₀ hv
      obtain rfl := Except.error.inj (Prod.mk.inj h).1
      unfold StreamID.validate at hv
      split_ifs at hv
      · cases hv
        rfl
      · cases hv
        rfl
    · split at h
      · obtain rfl := Except.error.inj (Prod.mk.inj h).1
        rfl
      · unfold withTx at h
        split at h
        · rename_i e₀ db₁ hb
          obtain rfl := Except.error.inj (Prod.mk.inj h).1
          exact failsIn_appendBody hD hE hops hb
        · split at h
          · rename_i e₀ hf
            obtain rfl := Except.error.inj (Prod.mk.inj h).1
            exact hE _ _ hf
          · cases (Prod.mk.inj h).1
  exact Bool.false_ne_true (hother.symm.trans he)

end Refused

end EventStore
