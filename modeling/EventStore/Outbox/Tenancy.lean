import EventStore.Outbox.Store
import Mathlib.Data.List.Dedup

/-!
# Tenants in the Postgres adapter

The calls of the Postgres adapter that are made for one tenant: `PendingOutbox`,
`QuarantinedStreams`, the two marks, `CleanupPublishedOutbox`, `ReadStream` and `ReadAllForTenant`.
Each runs in a transaction with `app.tenant_id` bound to the tenant.  Where migration 00015 has been
applied, the policies `tenant_isolation` hide the rows of the others from its statements; a
deployment `WithoutRLS` has no policies, and what a statement sees is up to its own `WHERE`.

Nothing is assumed of the tables: `Tables` holds any rows, in any order.

`Tx.Confined` says that a transaction leaves the rows of the other tenants alone and does not
depend on them.  It is kept by sequencing, so it has to be shown for each statement only, and it
holds for all of them but the one of `PendingOutbox`, whose query has no condition on the tenant.
-/

namespace EventStore

namespace Postgres

variable {κ : Columns}

/-- The rows of `events` and `outbox`. -/
@[ext] structure Tables (κ : Columns) where
  events : List (EventRow κ)
  outbox : List (OutboxEntry κ)

namespace Tables

/-- The rows of the tenants that satisfy a condition. -/
def only (sees : String → Bool) (t : Tables κ) : Tables κ where
  events := t.events.filter fun e => sees e.tenantID
  outbox := t.outbox.filter fun o => sees o.tenantID

/-- `outbox JOIN events`. -/
def joined (t : Tables κ) : List (Pending κ) :=
  t.outbox.flatMap fun o =>
    (t.events.filter fun e => e.tenantID == o.tenantID && e.eventID == o.eventID).map (Pending.mk o)

/-- `UPDATE outbox SET ... WHERE ...` in a session that sees some tenants. -/
def update (sees : String → Bool) (p : OutboxEntry κ → Bool) (f : OutboxEntry κ → OutboxEntry κ)
    (t : Tables κ) : Tables κ :=
  { t with outbox := t.outbox.map fun o => if sees o.tenantID && p o then f o else o }

/-- `DELETE FROM outbox WHERE ...` in a session that sees some tenants. -/
def delete (sees : String → Bool) (p : OutboxEntry κ → Bool) (t : Tables κ) : Tables κ :=
  { t with outbox := t.outbox.filter fun o => !(sees o.tenantID && p o) }

end Tables

/-- What a call does with the tables; one that fails leaves them as they are. -/
abbrev Tx (κ : Columns) (α : Type) := StateT (Tables κ) (Except Err) α

/-! ### The statements -/

namespace Queries

variable {J : Type} (L : Library J) (sees : String → Bool)

/-- `PendingOutboxWithEnvelope`. -/
def pendingOutboxWithEnvelope (now : Time) (maxAttempts : ℕ) (limit : ℤ) :
    Tx (columns J) (List (Pending (columns J))) := fun t => do
  let n ← maxRows limit
  let rows := (t.only sees).joined
  let heads := rows.filter fun x =>
    x.live maxAttempts && (outbox L).due now x && isHead rows maxAttempts x
  return ((OutboxDialect.byPosition heads).take n, t)

/-- `QuarantinedStreams`: tenants and canonical forms. -/
def quarantinedStreams (maxAttempts : ℕ) (tenantID : String) : Tx κ (List (String × String)) :=
  fun t => .ok ((((t.only sees).joined.filter fun x =>
    x.dead maxAttempts && x.entry.tenantID == tenantID).map fun x =>
      (x.entry.tenantID, x.event.streamID)).dedup, t)

/-- `QuarantinedStreamsAllTenants`. -/
def quarantinedStreamsAllTenants (maxAttempts : ℕ) : Tx κ (List (String × String)) :=
  fun t => .ok ((((t.only sees).joined.filter fun x => x.dead maxAttempts).map fun x =>
    (x.entry.tenantID, x.event.streamID)).dedup, t)

/-- `MarkOutboxPublished`. -/
def markOutboxPublished (clock : Time) (tenantID : String) (globalPosition : ℕ) :
    Tx (columns J) Unit := fun t =>
  .ok ((), t.update sees (OutboxEntry.hasKey tenantID globalPosition)
    fun o => { o with publishedAt := some (micros clock) })

/-- `MarkOutboxFailed`. -/
def markOutboxFailed (lastError : Bytes) (nextAttemptAt : Time) (tenantID : String)
    (globalPosition : ℕ) : Tx (columns J) Unit := fun t =>
  .ok ((), t.update sees (OutboxEntry.hasKey tenantID globalPosition)
    fun o => { o with
      attempts := o.attempts + 1
      lastError := some lastError
      nextAttemptAt := some (micros nextAttemptAt) })

/-- `CleanupPublished`. -/
def cleanupPublished (tenantID : String) (olderThan : Time) : Tx (columns J) Unit := fun t =>
  .ok ((), t.delete sees ((outbox L).expired tenantID olderThan))

/-- `ReadStreamFromVersion`. -/
def readStreamFromVersion (tenantID streamID : String) (afterVersion : ℕ) :
    Tx κ (List (EventRow κ)) := fun t =>
  .ok (((t.only sees).events.filter fun r => r.tenantID == tenantID &&
    (r.streamID == streamID && decide (afterVersion < r.version))).insertionSort
      fun r r' => r.version ≤ r'.version, t)

/-- `ReadAllFromPositionTenant`. -/
def readAllFromPositionTenant (tenantID : String) (afterPosition : ℕ) (limit : ℤ) :
    Tx κ (List (EventRow κ)) := fun t => do
  let n ← maxRows limit
  return ((((t.only sees).events.filter fun r => r.tenantID == tenantID &&
    decide (afterPosition < r.globalPosition)).insertionSort
      fun r r' => r.globalPosition ≤ r'.globalPosition).take n, t)

end Queries

/-! ### The adapter -/

/-- The options of an adapter, and whether its database has the policies. -/
structure Adapter where
  /-- Migration 00015 has been applied. -/
  policies : Bool
  /-- `WithAdminPool`. -/
  adminPool : Bool
  /-- `WithoutRLS`, or `WithoutRLSEnforcement`. -/
  allowMainPoolForCrossTenant : Bool

/-- A deployment with the policies and the two roles. -/
def Adapter.withRLS : Adapter := ⟨true, true, false⟩

/-- A deployment `WithoutRLS`. -/
def Adapter.withoutRLS : Adapter := ⟨false, false, true⟩

/-- The statement fails if the engine has a fault for it. -/
def exec (E : Engine) (st : Statement) (wrap : Err → Err) : Tx κ Unit := fun t =>
  match E.fault st with
  | some e => .error (wrap e)
  | none => .ok ((), t)

namespace Adapter

variable (a : Adapter) (E : Engine)

/-- `tenant_isolation`: with `app.tenant_id` bound to a tenant, the rows of that tenant. -/
def sees (bound tenantID : String) : Bool := !a.policies || tenantID == bound

/-- `withTenantTx`. -/
def withTenantTx {α : Type} (tenantID : String) (fn : (String → Bool) → Tx κ α) : Tx κ α :=
  if tenantID = "" then
    throw (.text "postgres: tenant id required (ADR 0007)")
  else do
    exec E .begin id
    exec E .bindTenant (.wrap "bind tenant")
    let x ← fn (a.sees tenantID)
    exec E .commit id
    return x

/-- `admin`: the admin role bypasses the policies; the main pool has nothing bound here. -/
def admin : Except Err (String → Bool) :=
  if a.adminPool then .ok fun _ => true
  else if a.allowMainPoolForCrossTenant then .ok (a.sees "")
  else .error (.text
    "postgres: admin pool required for cross-tenant operation (configure WithAdminPool)")

/-- `runForTenant`. -/
def runForTenant {α : Type} (tenantID : String) (fn : (String → Bool) → Tx κ α) : Tx κ α :=
  if tenantID = "" then do
    let q ← StateT.lift a.admin
    fn q
  else a.withTenantTx E tenantID fn

variable {J : Type} (L : Library J)

/-- `PendingOutbox`. -/
def pendingOutbox (tenantID : String) (limit : ℤ) (maxAttempts : ℕ) :
    Tx (columns J) (List PendingRow) := do
  let rows ← a.runForTenant E tenantID fun q =>
    Queries.pendingOutboxWithEnvelope L q (E.clock 0) (safeMaxAttempts maxAttempts) limit
  StateT.lift (rows.mapM (outbox L).toPendingRow)

/-- `QuarantinedStreams`. -/
def quarantinedStreams (tenantID : String) (maxAttempts : ℕ) : Tx κ (List (String × String)) :=
  if tenantID = "" then do
    let q ← StateT.lift a.admin
    Queries.quarantinedStreamsAllTenants q (safeMaxAttempts maxAttempts)
  else a.withTenantTx E tenantID fun q =>
    Queries.quarantinedStreams q (safeMaxAttempts maxAttempts) tenantID

/-- `MarkOutboxPublished`. -/
def markOutboxPublished (tenantID : String) (globalPosition : ℕ) : Tx (columns J) Unit :=
  a.withTenantTx E tenantID fun q =>
    Queries.markOutboxPublished q (E.clock 0) tenantID globalPosition

/-- `MarkOutboxFailed`; the message is cut at 2048 bytes. -/
def markOutboxFailed (tenantID : String) (globalPosition : ℕ) (errMsg : Bytes)
    (nextAttemptAt : Time) : Tx (columns J) Unit :=
  a.withTenantTx E tenantID fun q =>
    Queries.markOutboxFailed q (errMsg.take 2048) nextAttemptAt tenantID globalPosition

/-- `CleanupPublishedOutbox`, which does not count. -/
def cleanupPublishedOutbox (tenantID : String) (olderThan : Time) : Tx (columns J) ℤ := do
  a.withTenantTx E tenantID fun q => Queries.cleanupPublished L q tenantID olderThan
  return -1

/-- `ReadStream`. -/
def readStream (sid : StreamID) (fromVersion : ℕ) : Tx (columns J) (List Envelope) := do
  StateT.lift sid.validate
  let rows ← a.withTenantTx E sid.tenant fun q =>
    Queries.readStreamFromVersion q sid.tenant sid.canonical fromVersion
  StateT.lift (collect (dialect L) rows)

/-- `ReadAllForTenant`. -/
def readAllForTenant (tenantID : String) (fromPosition : ℕ) (limit : ℤ) :
    Tx (columns J) (List Envelope) := do
  let rows ← a.withTenantTx E tenantID fun q =>
    Queries.readAllFromPositionTenant q tenantID fromPosition limit
  StateT.lift (collect (dialect L) rows)

end Adapter

/-! ### The calls -/

/-- A call made for a tenant. -/
inductive Call where
  | pendingOutbox (tenantID : String) (limit : ℤ) (maxAttempts : ℕ)
  | quarantinedStreams (tenantID : String) (maxAttempts : ℕ)
  | markOutboxPublished (tenantID : String) (globalPosition : ℕ)
  | markOutboxFailed (tenantID : String) (globalPosition : ℕ) (errMsg : Bytes)
    (nextAttemptAt : Time)
  | cleanupPublishedOutbox (tenantID : String) (olderThan : Time)
  | readStream (sid : StreamID) (fromVersion : ℕ)
  | readAllForTenant (tenantID : String) (fromPosition : ℕ) (limit : ℤ)

/-- What a call returns. -/
inductive Answer where
  | rows (found : List PendingRow)
  | streams (found : List (String × String))
  | done
  | count (n : ℤ)
  | envelopes (found : List Envelope)

/-- The tenants whose rows are in an answer. -/
def Answer.tenants : Answer → List String
  | .rows found => found.map fun r => r.envelope.tenantID
  | .streams found => found.map Prod.fst
  | .done => []
  | .count _ => []
  | .envelopes found => found.map Envelope.tenantID

namespace Call

/-- The tenant a call is made for. -/
def tenant : Call → String
  | .pendingOutbox t _ _ => t
  | .quarantinedStreams t _ => t
  | .markOutboxPublished t _ => t
  | .markOutboxFailed t _ _ _ => t
  | .cleanupPublishedOutbox t _ => t
  | .readStream sid _ => sid.tenant
  | .readAllForTenant t _ _ => t

variable {J : Type} (L : Library J) (a : Adapter) (E : Engine)

/-- The call. -/
def run : Call → Tx (columns J) Answer
  | .pendingOutbox t limit maxAttempts => .rows <$> a.pendingOutbox E L t limit maxAttempts
  | .quarantinedStreams t maxAttempts => .streams <$> a.quarantinedStreams E t maxAttempts
  | .markOutboxPublished t pos => (fun _ => .done) <$> a.markOutboxPublished E t pos
  | .markOutboxFailed t pos errMsg nextAt =>
    (fun _ => .done) <$> a.markOutboxFailed E t pos errMsg nextAt
  | .cleanupPublishedOutbox t olderThan => .count <$> a.cleanupPublishedOutbox E L t olderThan
  | .readStream sid fromVersion => .envelopes <$> a.readStream E L sid fromVersion
  | .readAllForTenant t fromPosition limit =>
    .envelopes <$> a.readAllForTenant E L t fromPosition limit

end Call

/-! ### Confined transactions -/

/-- What the tenant sees of a result: what is returned, and its own rows afterwards. -/
def observed {α : Type} (tenant : String) (r : Except Err (α × Tables κ)) :
    Except Err (α × Tables κ) :=
  r.map fun p => (p.1, p.2.only (· == tenant))

/-- The transaction leaves the rows of the other tenants as they are, and what the tenant sees of it
is the same whatever those rows are. -/
structure Tx.Confined {α : Type} (tenant : String) (x : Tx κ α) : Prop where
  modifies : ∀ t r t', x t = .ok (r, t') → t'.only (· != tenant) = t.only (· != tenant)
  unaffected : ∀ t₁ t₂, t₁.only (· == tenant) = t₂.only (· == tenant) →
    observed tenant (x t₁) = observed tenant (x t₂)

/-- A call answers with rows of its tenant, and is confined to it. -/
structure Call.Scoped {J : Type} (L : Library J) (a : Adapter) (c : Call) : Prop where
  returns : ∀ E t ans t', c.run L a E t = .ok (ans, t') → ∀ x ∈ ans.tenants, x = c.tenant
  confined : ∀ E, Tx.Confined c.tenant (c.run L a E)

namespace Tables

variable {t : Tables κ} {p q : String → Bool} {tenant : String}

theorem only_only : (t.only p).only q = t.only fun x => q x && p x := by
  simp only [only, List.filter_filter]

/-- The rows of a join are of the tenant of their entries. -/
theorem joined_only : (t.only q).joined = t.joined.filter fun x => q x.entry.tenantID := by
  unfold joined only
  dsimp only
  induction t.outbox with
  | nil => rfl
  | cons o outbox ih =>
    rw [List.flatMap_cons, List.filter_append, ← ih, List.filter_cons, List.filter_map]
    cases hq : q o.tenantID with
    | false => simp [Function.comp_def, hq]
    | true =>
      have hevents : (t.events.filter fun e => q e.tenantID).filter
            (fun e => e.tenantID == o.tenantID && e.eventID == o.eventID) =
          t.events.filter fun e => e.tenantID == o.tenantID && e.eventID == o.eventID := by
        rw [List.filter_filter]
        refine List.filter_congr fun e _ => ?_
        by_cases he : e.tenantID = o.tenantID
        · simp [he, hq]
        · simp [he]
      rw [if_pos rfl, List.flatMap_cons, hevents]
      simp [Function.comp_def, hq]

/-- A condition on the tenant selects from the rows of the tenant. -/
theorem filter_events_only (c : EventRow κ → Bool) :
    ((t.only (· == tenant)).only q).events.filter (fun r => r.tenantID == tenant && c r) =
      (t.only q).events.filter fun r => r.tenantID == tenant && c r := by
  simp only [only, List.filter_filter]
  refine List.filter_congr fun r _ => ?_
  cases r.tenantID == tenant <;> simp

theorem filter_joined_only (c : Pending κ → Bool) :
    ((t.only (· == tenant)).only q).joined.filter (fun x => c x && x.entry.tenantID == tenant) =
      (t.only q).joined.filter fun x => c x && x.entry.tenantID == tenant := by
  simp only [joined_only, List.filter_filter]
  refine List.filter_congr fun x _ => ?_
  cases x.entry.tenantID == tenant <;> simp

section Update

variable {c : OutboxEntry κ → Bool} {f : OutboxEntry κ → OutboxEntry κ}

theorem update_only (hf : ∀ o, (f o).tenantID = o.tenantID) :
    (t.update p c f).only q = (t.only q).update p c f := by
  have hkey : ∀ o : OutboxEntry κ,
      (if p o.tenantID && c o then f o else o).tenantID = o.tenantID := by
    intro o
    split_ifs
    · exact hf o
    · rfl
  simp only [update, only, List.filter_map, Function.comp_def, hkey]

theorem update_others (hc : ∀ o, c o = true → o.tenantID = tenant)
    (hf : ∀ o, (f o).tenantID = o.tenantID) :
    (t.update p c f).only (· != tenant) = t.only (· != tenant) := by
  rw [update_only hf]
  refine Tables.ext rfl ?_
  rw [update]
  dsimp only
  refine (List.map_congr_left fun o ho => ?_).trans (List.map_id _)
  have hne : o.tenantID ≠ tenant := by simpa using (List.mem_filter.1 ho).2
  rw [if_neg, id]
  intro h
  exact hne (hc o (Bool.and_eq_true_iff.1 h).2)

theorem delete_only : (t.delete p c).only q = (t.only q).delete p c := by
  simp only [delete, only, List.filter_filter, Bool.and_comm]

theorem delete_others (hc : ∀ o, c o = true → o.tenantID = tenant) :
    (t.delete p c).only (· != tenant) = t.only (· != tenant) := by
  rw [delete_only]
  refine Tables.ext rfl ?_
  rw [delete]
  dsimp only
  refine List.filter_eq_self.2 fun o ho => ?_
  have hne : o.tenantID ≠ tenant := by simpa using (List.mem_filter.1 ho).2
  rw [Bool.not_eq_true', Bool.and_eq_false_iff]
  exact Or.inr (Bool.eq_false_iff.2 fun h => hne (hc o h))

end Update

end Tables

namespace Tx

variable {α β : Type} {tenant : String} {x : Tx κ α} {f : α → Tx κ β}

theorem bind_apply (x : Tx κ α) (f : α → Tx κ β) (t : Tables κ) :
    (x >>= f) t = x t >>= fun p => f p.1 p.2 := rfl

theorem lift_apply (e : Except Err α) (t : Tables κ) :
    (StateT.lift e : Tx κ α) t = e >>= fun r => .ok (r, t) := rfl

theorem map_eq_bind (g : α → β) (x : Tx κ α) : g <$> x = x >>= fun r => pure (g r) := rfl

theorem Confined.bind (hx : x.Confined tenant) (hf : ∀ r, (f r).Confined tenant) :
    Confined tenant (x >>= f) where
  modifies t r t' h := by
    obtain ⟨⟨a, t₁⟩, ha, hr⟩ := Except.bind_eq_ok.1 h
    exact ((hf a).modifies _ _ _ hr).trans (hx.modifies _ _ _ ha)
  unaffected t₁ t₂ h := by
    have hobs := hx.unaffected t₁ t₂ h
    rw [bind_apply, bind_apply]
    rcases h₁ : x t₁ with e₁ | ⟨a₁, u₁⟩ <;> rcases h₂ : x t₂ with e₂ | ⟨a₂, u₂⟩ <;>
      rw [h₁, h₂] at hobs
    · obtain rfl := Except.error.inj hobs
      rfl
    · cases hobs
    · cases hobs
    · obtain ⟨rfl, hu⟩ := Prod.mk.inj (Except.ok.inj hobs)
      exact (hf a₁).unaffected u₁ u₂ hu

/-- A statement that reads what the tenant sees. -/
theorem Confined.read {g : Tables κ → Except Err α} (h : ∀ t, g (t.only (· == tenant)) = g t) :
    Confined tenant (fun t => g t >>= fun r => .ok (r, t) : Tx κ α) where
  modifies t r t' hr := by
    obtain ⟨a, -, ha⟩ := Except.bind_eq_ok.1 hr
    rw [(Prod.mk.inj (Except.ok.inj ha)).2]
  unaffected t₁ t₂ ht := by
    have hg : g t₁ = g t₂ := by rw [← h t₁, ← h t₂, ht]
    rw [hg]
    cases g t₂ with
    | error e => rfl
    | ok r => exact congrArg (fun u => Except.ok (r, u)) ht

/-- A statement that writes to the rows of the tenant. -/
theorem Confined.write {g : Tables κ → Tables κ}
    (hothers : ∀ t, (g t).only (· != tenant) = t.only (· != tenant))
    (hown : ∀ t, (g t).only (· == tenant) = g (t.only (· == tenant))) :
    Confined tenant (fun t => .ok ((), g t) : Tx κ Unit) where
  modifies t r t' hr := by
    rw [← (Prod.mk.inj (Except.ok.inj hr)).2]
    exact hothers t
  unaffected t₁ t₂ ht := by
    have hg : (g t₁).only (· == tenant) = (g t₂).only (· == tenant) := by rw [hown, hown, ht]
    exact congrArg (fun u => Except.ok ((), u)) hg

theorem Confined.lift (e : Except Err α) : Confined tenant (StateT.lift e : Tx κ α) :=
  .read (g := fun _ => e) fun _ => rfl

theorem Confined.pure (r : α) : Confined tenant (Pure.pure r : Tx κ α) :=
  .read (g := fun _ => .ok r) fun _ => rfl

theorem Confined.throw (e : Err) : Confined tenant (MonadExcept.throw e : Tx κ α) where
  modifies t r t' hr := by cases hr
  unaffected t₁ t₂ _ := rfl

/-- A query with a limit that may be refused. -/
theorem Confined.limited {limit : Except Err ℕ} {g : ℕ → Tables κ → α}
    (h : ∀ n t, g n (t.only (· == tenant)) = g n t) :
    Confined tenant (fun t => limit >>= fun n => .ok (g n t, t) : Tx κ α) := by
  cases limit with
  | error e => exact .throw e
  | ok n => exact .read (g := fun t => .ok (g n t)) fun t => congrArg Except.ok (h n t)

theorem Confined.exec (E : Engine) (st : Statement) (wrap : Err → Err) :
    Confined tenant (Postgres.exec E st wrap : Tx κ Unit) := by
  unfold Postgres.exec
  cases E.fault st with
  | some e => exact .throw (wrap e)
  | none => exact .pure ()

end Tx

/-! ### The statements are confined -/

namespace Queries

variable {J : Type} {L : Library J} {sees : String → Bool} {tenant : String}

theorem confined_quarantinedStreams (maxAttempts : ℕ) :
    Tx.Confined tenant (quarantinedStreams sees maxAttempts tenant : Tx κ _) :=
  .read (g := fun t => .ok _) fun t => by rw [Tables.filter_joined_only]

theorem hasKey_tenant {pos : ℕ} {o : OutboxEntry κ} (h : o.hasKey tenant pos = true) :
    o.tenantID = tenant :=
  eq_of_beq (Bool.and_eq_true_iff.1 h).1

theorem confined_markOutboxPublished (clock : Time) (pos : ℕ) :
    Tx.Confined tenant (markOutboxPublished sees clock tenant pos : Tx (columns J) Unit) :=
  .write (fun _ => Tables.update_others (fun _ => hasKey_tenant) fun _ => rfl)
    fun _ => Tables.update_only fun _ => rfl

theorem confined_markOutboxFailed (lastError : Bytes) (nextAt : Time) (pos : ℕ) :
    Tx.Confined tenant
      (markOutboxFailed sees lastError nextAt tenant pos : Tx (columns J) Unit) :=
  .write (fun _ => Tables.update_others (fun _ => hasKey_tenant) fun _ => rfl)
    fun _ => Tables.update_only fun _ => rfl

theorem confined_cleanupPublished (olderThan : Time) :
    Tx.Confined tenant (cleanupPublished L sees tenant olderThan) :=
  .write (fun _ => Tables.delete_others fun _ h => eq_of_beq (Bool.and_eq_true_iff.1 h).1)
    fun _ => Tables.delete_only

theorem confined_readStreamFromVersion (streamID : String) (after : ℕ) :
    Tx.Confined tenant (readStreamFromVersion sees tenant streamID after : Tx κ _) :=
  .read (g := fun t => .ok _) fun t => by rw [Tables.filter_events_only]

theorem confined_readAllFromPositionTenant (after : ℕ) (limit : ℤ) :
    Tx.Confined tenant (readAllFromPositionTenant sees tenant after limit : Tx κ _) :=
  .limited fun n t => by rw [Tables.filter_events_only]

/-- The query for pending rows has no condition on the tenant: it is confined by the policies. -/
theorem confined_pendingOutboxWithEnvelope (now : Time) (maxAttempts : ℕ) (limit : ℤ) :
    Tx.Confined tenant
      (pendingOutboxWithEnvelope L (· == tenant) now maxAttempts limit) :=
  .limited fun n t => by simp only [Tables.only_only, Bool.and_self]

end Queries

namespace Adapter

variable {J : Type} {L : Library J} {a : Adapter} {E : Engine} {tenant : String} {α : Type}
  {fn : (String → Bool) → Tx κ α}

theorem confined_withTenantTx (h : Tx.Confined tenant (fn (a.sees tenant))) :
    Tx.Confined tenant (a.withTenantTx E tenant fn) := by
  unfold withTenantTx
  split_ifs
  · exact .throw _
  · exact (Tx.Confined.exec ..).bind fun _ => (Tx.Confined.exec ..).bind fun _ =>
      h.bind fun _ => (Tx.Confined.exec ..).bind fun _ => .pure _

theorem exec_of_sound (hE : E.Sound) (st : Statement) (wrap : Err → Err) (t : Tables κ) :
    exec E st wrap t = .ok ((), t) := by
  rw [exec, hE st]

theorem withTenantTx_of_sound {t : Tables κ} (hE : E.Sound) (ht : tenant ≠ "") :
    a.withTenantTx E tenant fn t = fn (a.sees tenant) t := by
  rw [withTenantTx, if_neg ht, Tx.bind_apply, exec_of_sound hE, Except.ok_bind, Tx.bind_apply,
    exec_of_sound hE, Except.ok_bind, Tx.bind_apply]
  cases fn (a.sees tenant) t with
  | error e => rfl
  | ok p => rw [Except.ok_bind, Tx.bind_apply, exec_of_sound hE]; rfl

/-- What a transaction returns is what its statements return. -/
theorem withTenantTx_ok {t t' : Tables κ} {r : α}
    (h : a.withTenantTx E tenant fn t = .ok (r, t')) : fn (a.sees tenant) t = .ok (r, t') := by
  have hexec : ∀ {st wrap} {u : Tables κ} {p : Unit × Tables κ},
      exec E st wrap u = .ok p → p.2 = u := by
    intro st wrap u p hp
    unfold exec at hp
    cases hE : E.fault st with
    | some e =>
      rw [hE] at hp
      cases hp
    | none =>
      rw [hE] at hp
      exact (congrArg Prod.snd (Except.ok.inj hp)).symm
  unfold withTenantTx at h
  split_ifs at h
  · cases h
  · obtain ⟨⟨_, t₁⟩, h₁, h⟩ := Except.bind_eq_ok.1 h
    obtain ⟨⟨_, t₂⟩, h₂, h⟩ := Except.bind_eq_ok.1 h
    obtain ⟨⟨x, t₃⟩, h₃, h⟩ := Except.bind_eq_ok.1 h
    obtain ⟨⟨_, t₄⟩, h₄, h⟩ := Except.bind_eq_ok.1 h
    obtain ⟨rfl, rfl⟩ := Prod.mk.inj (Except.ok.inj h)
    have e₁ := hexec h₁
    have e₂ := hexec h₂
    have e₄ := hexec h₄
    dsimp only at e₁ e₂ e₄ h₃
    rw [e₂, e₁] at h₃
    rw [e₄]
    exact h₃

theorem sees_of_policies (h : a.policies = true) : a.sees tenant = (· == tenant) := by
  funext x
  simp [sees, h]

/-- The rows `PendingOutbox` converts. -/
theorem pendingOutbox_ok {limit : ℤ} {maxAttempts : ℕ} {t t' : Tables (columns J)}
    {found : List PendingRow} (ht : tenant ≠ "")
    (h : a.pendingOutbox E L tenant limit maxAttempts t = .ok (found, t')) :
    ∃ n rows, maxRows limit = .ok n ∧ rows.length ≤ n ∧
      (∀ x ∈ rows, a.sees tenant x.entry.tenantID = true) ∧
      List.Forall₂ (fun x row => (outbox L).toPendingRow x = .ok row) rows found := by
  obtain ⟨⟨rows, t₁⟩, hrows, h⟩ := Except.bind_eq_ok.1 h
  rw [runForTenant, if_neg ht] at hrows
  obtain ⟨n, hn, hrows⟩ := Except.bind_eq_ok.1 (withTenantTx_ok hrows)
  obtain ⟨r, hr, h⟩ := Except.bind_eq_ok.1 h
  obtain ⟨rfl, -⟩ := Prod.mk.inj (Except.ok.inj h)
  obtain ⟨rfl, -⟩ := Prod.mk.inj (Except.ok.inj hrows)
  refine ⟨n, _, hn, List.length_take_le _ _, fun x hx => ?_, Except.mapM_eq_ok_iff.1 hr⟩
  have hx := (List.mem_insertionSort _).1 (List.mem_of_mem_take hx)
  have hx := (List.mem_filter.1 hx).1
  rw [Tables.joined_only] at hx
  exact (List.mem_filter.1 hx).2

theorem collect_tenants {rows : List (EventRow (columns J))} {found : List Envelope}
    (h : collect (dialect L) rows = .ok found) (hrows : ∀ r ∈ rows, r.tenantID = tenant) :
    ∀ x ∈ found.map Envelope.tenantID, x = tenant := by
  intro x hx
  obtain ⟨env, henv, rfl⟩ := List.mem_map.1 hx
  obtain ⟨r, hr, hconv⟩ := exists_of_forall₂_right (collect_eq_ok.1 h) henv
  obtain ⟨_, _, _, _, -, -, -, -, rfl⟩ := rowToEnvelope_eq_ok.1 hconv
  exact hrows r hr

end Adapter

/-! ### The calls are scoped -/

/-- The statements of the call have a condition on the tenant, or return nothing. -/
def Call.Selective : Call → Prop
  | .pendingOutbox _ limit _ => ∀ n, maxRows limit = .ok n → n = 0
  | .quarantinedStreams .. => True
  | .markOutboxPublished .. => True
  | .markOutboxFailed .. => True
  | .cleanupPublishedOutbox .. => True
  | .readStream .. => True
  | .readAllForTenant .. => True

namespace Call

variable {J : Type} {L : Library J} {a : Adapter} {c : Call}

theorem confined_map {α : Type} {tenant : String} {x : Tx κ α} (h : x.Confined tenant)
    (g : α → Answer) : Tx.Confined tenant (g <$> x) := by
  rw [Tx.map_eq_bind]
  exact h.bind fun r => .pure (g r)

theorem confined_pendingOutbox {E : Engine} {tenant : String} {limit : ℤ} {maxAttempts : ℕ}
    (ht : tenant ≠ "") (h : a.policies = true ∨ ∀ n, maxRows limit = .ok n → n = 0) :
    Tx.Confined tenant (a.pendingOutbox E L tenant limit maxAttempts) := by
  refine Tx.Confined.bind ?_ fun rows => .lift _
  rw [Adapter.runForTenant, if_neg ht]
  refine Adapter.confined_withTenantTx ?_
  rcases h with h | h
  · rw [Adapter.sees_of_policies h]
    exact Queries.confined_pendingOutboxWithEnvelope ..
  · -- a page of no rows is the same for all tables
    unfold Queries.pendingOutboxWithEnvelope
    cases hn : maxRows limit with
    | error e => exact .throw e
    | ok n =>
      rw [h n hn]
      exact .pure []

/-- Policies, or a condition in each statement, keep a call to the rows of its tenant. -/
theorem confined_run (ht : c.tenant ≠ "") (h : a.policies = true ∨ c.Selective) (E : Engine) :
    Tx.Confined c.tenant (c.run L a E) := by
  cases c with
  | pendingOutbox t limit maxAttempts => exact confined_map (confined_pendingOutbox ht h) _
  | quarantinedStreams t maxAttempts =>
    refine confined_map ?_ _
    rw [Adapter.quarantinedStreams, if_neg (show t ≠ "" from ht)]
    exact Adapter.confined_withTenantTx (Queries.confined_quarantinedStreams _)
  | markOutboxPublished t pos =>
    exact confined_map
      (Adapter.confined_withTenantTx (Queries.confined_markOutboxPublished ..)) _
  | markOutboxFailed t pos errMsg nextAt =>
    exact confined_map (Adapter.confined_withTenantTx (Queries.confined_markOutboxFailed ..)) _
  | cleanupPublishedOutbox t olderThan =>
    exact confined_map (.bind
      (Adapter.confined_withTenantTx (Queries.confined_cleanupPublished _)) fun _ => .pure _) _
  | readStream sid fromVersion =>
    exact confined_map (.bind (.lift _) fun _ => .bind
      (Adapter.confined_withTenantTx (Queries.confined_readStreamFromVersion ..))
      fun _ => .lift _) _
  | readAllForTenant t fromPosition limit =>
    exact confined_map (.bind
      (Adapter.confined_withTenantTx (Queries.confined_readAllFromPositionTenant ..))
      fun _ => .lift _) _

theorem map_ok {α : Type} {x : Tx κ α} {g : α → Answer} {t t' : Tables κ} {ans : Answer}
    (h : (g <$> x) t = .ok (ans, t')) : ∃ r, x t = .ok (r, t') ∧ ans = g r := by
  rw [Tx.map_eq_bind] at h
  obtain ⟨⟨r, t₁⟩, hr, h⟩ := Except.bind_eq_ok.1 h
  obtain ⟨rfl, rfl⟩ := Prod.mk.inj (Except.ok.inj h)
  exact ⟨r, hr, rfl⟩

theorem returns_pendingOutbox {E : Engine} {tenant : String} {limit : ℤ} {maxAttempts : ℕ}
    {t t' : Tables (columns J)} {found : List PendingRow} (ht : tenant ≠ "")
    (h : a.policies = true ∨ ∀ n, maxRows limit = .ok n → n = 0)
    (hrun : a.pendingOutbox E L tenant limit maxAttempts t = .ok (found, t')) :
    ∀ row ∈ found, row.envelope.tenantID = tenant := by
  obtain ⟨n, rows, hn, hlen, hsees, hconv⟩ := Adapter.pendingOutbox_ok ht hrun
  intro row hrow
  obtain ⟨x, hx, hxrow⟩ := exists_of_forall₂_right hconv hrow
  rcases h with h | h
  · have hxt := hsees x hx
    rw [Adapter.sees_of_policies h] at hxt
    obtain ⟨_, -, -, -, -, hrt, -⟩ := OutboxDialect.toPendingRow_eq_ok hxrow
    rw [hrt]
    exact eq_of_beq hxt
  · have := List.length_pos_of_mem hx
    have := h n hn
    omega

/-- What is returned is of the tenant. -/
theorem returns_run (ht : c.tenant ≠ "") (h : a.policies = true ∨ c.Selective) {E : Engine}
    {t t' : Tables (columns J)} {ans : Answer} (hrun : c.run L a E t = .ok (ans, t')) :
    ∀ x ∈ ans.tenants, x = c.tenant := by
  cases c with
  | pendingOutbox t limit maxAttempts =>
    obtain ⟨found, hfound, rfl⟩ := map_ok hrun
    intro x hx
    obtain ⟨row, hrow, rfl⟩ := List.mem_map.1 hx
    exact returns_pendingOutbox ht h hfound row hrow
  | quarantinedStreams t maxAttempts =>
    obtain ⟨found, hfound, rfl⟩ := map_ok hrun
    rw [Adapter.quarantinedStreams, if_neg (show t ≠ "" from ht)] at hfound
    obtain ⟨rfl, -⟩ := Prod.mk.inj (Except.ok.inj (Adapter.withTenantTx_ok hfound))
    intro x hx
    obtain ⟨p, hp, rfl⟩ := List.mem_map.1 hx
    obtain ⟨y, hy, rfl⟩ := List.mem_map.1 (List.mem_dedup.1 hp)
    exact eq_of_beq (Bool.and_eq_true_iff.1 (List.mem_filter.1 hy).2).2
  | markOutboxPublished t pos =>
    obtain ⟨_, -, rfl⟩ := map_ok hrun
    simp [Answer.tenants]
  | markOutboxFailed t pos errMsg nextAt =>
    obtain ⟨_, -, rfl⟩ := map_ok hrun
    simp [Answer.tenants]
  | cleanupPublishedOutbox t olderThan =>
    obtain ⟨_, -, rfl⟩ := map_ok hrun
    simp [Answer.tenants]
  | readStream sid fromVersion =>
    obtain ⟨found, hfound, rfl⟩ := map_ok hrun
    obtain ⟨⟨_, t₁⟩, -, hfound⟩ := Except.bind_eq_ok.1 hfound
    obtain ⟨⟨rows, t₂⟩, hrows, hfound⟩ := Except.bind_eq_ok.1 hfound
    obtain ⟨rfl, -⟩ := Prod.mk.inj (Except.ok.inj (Adapter.withTenantTx_ok hrows))
    obtain ⟨r, hr, hfound⟩ := Except.bind_eq_ok.1 hfound
    obtain ⟨rfl, -⟩ := Prod.mk.inj (Except.ok.inj hfound)
    refine Adapter.collect_tenants hr fun row hrow => ?_
    have hrow := (List.mem_filter.1 ((List.mem_insertionSort _).1 hrow)).2
    exact eq_of_beq (Bool.and_eq_true_iff.1 hrow).1
  | readAllForTenant t fromPosition limit =>
    obtain ⟨found, hfound, rfl⟩ := map_ok hrun
    obtain ⟨⟨rows, t₂⟩, hrows, hfound⟩ := Except.bind_eq_ok.1 hfound
    obtain ⟨n, -, hrows⟩ := Except.bind_eq_ok.1 (Adapter.withTenantTx_ok hrows)
    obtain ⟨rfl, -⟩ := Prod.mk.inj (Except.ok.inj hrows)
    obtain ⟨r, hr, hfound⟩ := Except.bind_eq_ok.1 hfound
    obtain ⟨rfl, -⟩ := Prod.mk.inj (Except.ok.inj hfound)
    refine Adapter.collect_tenants hr fun row hrow => ?_
    have hrow := (List.mem_insertionSort _).1 (List.mem_of_mem_take hrow)
    exact eq_of_beq (Bool.and_eq_true_iff.1 (List.mem_filter.1 hrow).2).1

/-! ### Without policies -/

/-- A row of `events`, for a tenant. -/
def sampleEvent (tenantID : String) (actor : J) : EventRow (columns J) where
  eventID := ⟨"e1"⟩
  tenantID := tenantID
  streamID := "order:o-1"
  version := 1
  globalPosition := 1
  typeURL := "shop.v1.Placed"
  schemaVersion := 1
  occurredAt := 0
  recordedAt := 0
  correlationID := ⟨"r1"⟩
  causationID := ⟨"c1"⟩
  commandID := ⟨"c1"⟩
  actor := actor
  actorPrincipal := ""
  payload := []
  payloadJSON := none
  encryptionKeyRefs := none
  hash := none
  prevHash := none

/-- The event with its row in `outbox`, pending. -/
def samplePending (tenantID : String) (actor : J) : Pending (columns J) :=
  ⟨(sampleEvent tenantID actor).outboxRow.enqueue, sampleEvent tenantID actor⟩

/-- Tables with one event. -/
def onePending (tenantID : String) (actor : J) : Tables (columns J) :=
  ⟨[sampleEvent tenantID actor], [(samplePending tenantID actor).entry]⟩

/-- Without policies the query gives out the row, whatever its tenant. -/
theorem pendingOutbox_onePending (hp : a.policies = false) {tenant foreign : String} {limit : ℤ}
    {maxAttempts n : ℕ} (ht : tenant ≠ "") (hn : maxRows limit = .ok (n + 1)) (actor : J) :
    a.pendingOutbox .calm L tenant limit maxAttempts (onePending foreign actor) =
      [samplePending foreign actor].mapM (outbox L).toPendingRow >>=
        fun rows => .ok (rows, onePending foreign actor) := by
  have hlive : 0 < safeMaxAttempts maxAttempts := by
    unfold safeMaxAttempts
    split_ifs <;> omega
  have honly : (onePending foreign actor).only (a.sees tenant) = onePending foreign actor := by
    simp [Tables.only, Adapter.sees, hp]
  have hjoined : (onePending foreign actor).joined = [samplePending foreign actor] := by
    simp [Tables.joined, onePending, samplePending, EventRow.outboxRow, OutboxRow.enqueue]
  have hheads : [samplePending foreign actor].filter (fun x =>
      x.live (safeMaxAttempts maxAttempts) && (outbox L).due (Engine.calm.clock 0) x &&
        isHead [samplePending foreign actor] (safeMaxAttempts maxAttempts) x) =
      [samplePending foreign actor] := by
    simp [Pending.live, OutboxDialect.due, isHead, samplePending, OutboxRow.enqueue, hlive]
  rw [Adapter.pendingOutbox, Tx.bind_apply, Adapter.runForTenant, if_neg ht,
    Adapter.withTenantTx_of_sound (fun _ => rfl) ht, Queries.pendingOutboxWithEnvelope, hn, honly,
    hjoined, Except.ok_bind]
  dsimp only
  rw [hheads, show OutboxDialect.byPosition [samplePending foreign actor] =
    [samplePending foreign actor] from rfl, List.take_succ_cons, List.take_nil]
  rfl

/-- With no rows there is nothing pending. -/
theorem pendingOutbox_nil {tenant : String} {limit : ℤ} {maxAttempts n : ℕ} (ht : tenant ≠ "")
    (hn : maxRows limit = .ok n) :
    a.pendingOutbox .calm L tenant limit maxAttempts ⟨[], []⟩ = .ok ([], ⟨[], []⟩) := by
  rw [Adapter.pendingOutbox, Tx.bind_apply, Adapter.runForTenant, if_neg ht,
    Adapter.withTenantTx_of_sound (fun _ => rfl) ht, Queries.pendingOutboxWithEnvelope, hn,
    Except.ok_bind]
  simp only [Tables.only, Tables.joined, List.filter_nil, List.flatMap_nil,
    OutboxDialect.byPosition, List.insertionSort_nil, List.take_nil]
  rfl

end Call

/-! ### With policies -/

/-- The rows of a store. -/
def Tables.ofStore (s : OutboxDb κ) : Tables κ := ⟨s.db.events.rows, s.outbox⟩

/-- With the policies, `PendingOutbox` is the one of a query that sees the rows of the tenant
only, which is how `Postgres.outbox` describes it. -/
theorem Adapter.pendingOutbox_ofStore {J : Type} {L : Library J} {a : Adapter} {E : Engine}
    {tenant : String} (hE : E.Sound) (hp : a.policies = true) (ht : tenant ≠ "")
    (limit maxAttempts : ℕ) (s : OutboxDb (columns J)) :
    a.pendingOutbox E L tenant limit maxAttempts (.ofStore s) =
      (outbox L).pendingOutbox tenant limit maxAttempts (E.clock 0) s >>=
        fun found => .ok (found, .ofStore s) := by
  have hvisible : ((Tables.ofStore s).only (· == tenant)).joined =
      (outbox L).visible tenant s := by
    rw [Tables.joined_only, OutboxDialect.visible, if_pos ⟨rfl, ht⟩]
    rfl
  rw [Adapter.pendingOutbox, Tx.bind_apply, Adapter.runForTenant, if_neg ht,
    Adapter.withTenantTx_of_sound hE ht, Adapter.sees_of_policies hp,
    Queries.pendingOutboxWithEnvelope, hvisible, OutboxDialect.pendingOutbox]
  generalize safeMaxAttempts maxAttempts = max
  rw [show (outbox L).limit limit = maxRows limit by simp only [outbox]]
  cases maxRows limit with
  | error e => rfl
  | ok n =>
    have hpage : (outbox L).page tenant n max (E.clock 0) s =
        (OutboxDialect.byPosition ((outbox L).heads tenant max (E.clock 0) s)).take n := by
      simp [OutboxDialect.page, outbox]
    rw [Except.ok_bind, Except.ok_bind, hpage]
    rfl

end Postgres

end EventStore
