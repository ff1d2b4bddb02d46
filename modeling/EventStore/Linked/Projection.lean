import EventStore.Storage.Claims

/-!
# Linked projections

`linked.Projection`: a projection handler that derives an event from a source event and appends it
to a stream of a destination store.  With `IdempotentEmit` the append carries a claim on the source
event's id in the scope `linked:<Name>`, and a claim that is refused is taken as the sign that the
event was derived before.

The handler has one access to the outside, the append, and it is one transaction.  An invocation is
therefore one step, which may be cut off before or after the commit (the latter with an error or
with a crash), any number of runners may take it for any source event and any number of times, and
other writers append in between.  `Route`, `proto.Marshal` and the adapters' libraries are
parameters.

## Main definitions

* `LinkedConfig.prepare` : the handler up to the append.
* `LinkedConfig.handle` : the handler.
* `LinkedSys`, `linkedSystem` : invocations beside other appends to the destination.

## Main results

* `linked_once` : **an event is derived from a source event at most once, and it was derived when
  an invocation has returned nil.**
-/

namespace EventStore

/-! ### The handler -/

/-- `linked.Route`; a nil message is `none`.  `OccurredAt` is not read by the handler. -/
structure Route (M : Type) where
  skip : Bool
  destinationStream : StreamID
  derivedEvent : Option M
  derivedTypeURL : String
  schemaVersion : UInt32
  expectedVersion : ℕ
  actor : Actor

/-- `linked.Config`, with `proto.Marshal` of the derived events. -/
structure LinkedConfig (M : Type) where
  name : String
  sourceTypeURLs : List String
  route : Envelope → Except Err (Route M)
  idempotentEmit : Option Bool
  marshal : M → Except Err Bytes

namespace LinkedConfig

variable {M : Type} (c : LinkedConfig M)

/-- The scope of the claims. -/
def scope : String := "linked:" ++ c.name

/-- `IdempotentEmit`, which is on unless it is switched off. -/
def idempotent : Bool := c.idempotentEmit.getD true

/-- The event passes the filter. -/
def takes (env : Envelope) : Bool :=
  c.sourceTypeURLs.isEmpty || c.sourceTypeURLs.contains env.typeURL

/-- The claim on a source event. -/
def claim (env : Envelope) : ConstraintOp := ⟨.claim, c.scope, env.eventID.string⟩

/-- The call of `Append` for a source event. -/
def params (env : Envelope) (route : Route M) (payload : Bytes) (eventID commandID : UUID) :
    AppendParams where
  streamID := route.destinationStream
  expectedVersion := route.expectedVersion
  events := [{
    eventID := eventID
    typeURL := route.derivedTypeURL
    schemaVersion := defaultSchema route.schemaVersion
    occurredAt := env.occurredAt
    correlationID := env.correlationID
    causationID := env.eventID
    commandID := commandID
    actor :=
      if route.actor.principal = "" then
        { Actor.zero with kind := 3, principal := "linked-projection:" ++ c.name }
      else route.actor
    payload := payload
    payloadJSON := none
    keyRefs := none }]
  constraints := if c.idempotent then [c.claim env] else []
  newStateBytes := none
  stateTypeURL := ""
  stateSchemaVersion := 0
  terminal := false

/-- The handler up to the append; `none` when there is nothing to append. -/
def prepare (env : Envelope) (eventID commandID : UUID) : Except Err (Option AppendParams) :=
  let name := c.name
  if c.takes env then do
    let route ← (c.route env).mapError (.wrap s!"linked {name}: route")
    if route.skip then return none
    else
      match route.derivedEvent with
      | none => .error (.text s!"linked {name}: route returned no DerivedEvent (and Skip=false)")
      | some msg => do
        let payload ← (c.marshal msg).mapError (.wrap s!"linked {name}: marshal derived event")
        return some (c.params env route payload eventID commandID)
  else .ok none

/-- What the handler makes of the outcome of the append. -/
def result {α : Type} : Except Err α → Except Err Unit
  | .ok _ => .ok ()
  | .error e =>
    let name := c.name
    if e.is .constraintViolated && c.idempotent then .ok ()
    else .error (.wrap s!"linked {name}: append derived" e)

end LinkedConfig

/-! ### Invocations -/

/-- How an invocation ends once its append has come back. -/
inductive Ending where
  | returned
  /-- A commit has succeeded, and the call is told that it failed. -/
  | lost (err : Err)
  /-- The process is gone. -/
  | crashed

/-- The destination, and the history of the invocations. -/
structure LinkedSys (κ : Columns) where
  db : Db κ
  /-- The source events an event was derived from, with the position of the derived event. -/
  emitted : List (Envelope × ℕ)
  /-- What invocations have returned. -/
  returned : List (Envelope × Except Err Unit)

/-- The steps. -/
inductive LinkedStep where
  /-- An append of another writer. -/
  | append (E : Engine) (p : AppendParams)
  | handle (env : Envelope) (E : Engine) (eventID commandID : UUID) (ending : Ending)

namespace LinkedSys

variable {κ : Columns} {M : Type} (s : LinkedSys κ) (c : LinkedConfig M) (D : Dialect κ)
  (H : Hasher)

/-- No event. -/
def empty : LinkedSys κ := ⟨.empty, [], []⟩

/-- An invocation returns. -/
def ret (env : Envelope) (r : Except Err Unit) : LinkedSys κ :=
  { s with returned := s.returned ++ [(env, r)] }

/-- The invocation ends after an append that has committed. -/
def finish (env : Envelope) : Ending → LinkedSys κ
  | .returned => s.ret env (c.result (.ok ()))
  | .lost e => s.ret env (c.result (.error e : Except Err Unit))
  | .crashed => s

/-- An invocation of the handler. -/
def handle (env : Envelope) (E : Engine) (eventID commandID : UUID) (ending : Ending) :
    LinkedSys κ :=
  match c.prepare env eventID commandID with
  | .error e => s.ret env (.error e)
  | .ok none => s.ret env (.ok ())
  | .ok (some p) =>
    match append D H E p s.db with
    | (.ok _, db') =>
      { s with db := db', emitted := s.emitted ++ [(env, db'.seq)] }.finish c env ending
    | (.error e, db') => { s with db := db' }.ret env (c.result (.error e : Except Err Unit))

/-- The state after one step. -/
def next : LinkedStep → LinkedSys κ
  | .append E p => { s with db := (append D H E p s.db).2 }
  | .handle env E eventID commandID ending => s.handle c D H env E eventID commandID ending

end LinkedSys

/-- Invocations of the handler beside other appends to the destination. -/
def linkedSystem {κ : Columns} {M : Type} (c : LinkedConfig M) (D : Dialect κ) (H : Hasher) :
    TS (LinkedSys κ) LinkedStep where
  init s := s = .empty
  step s l s' := s' = s.next c D H l

/-! ### What an invocation appends -/

namespace LinkedConfig

variable {M : Type} (c : LinkedConfig M)

/-- The source event is one to derive an event from. -/
def Wants (env : Envelope) : Prop :=
  c.takes env = true ∧ ∃ route, c.route env = .ok route ∧ route.skip = false

variable {c} {env : Envelope} {eventID commandID : UUID}

theorem prepare_eq_some {p : AppendParams} (h : c.prepare env eventID commandID = .ok (some p)) :
    c.takes env = true ∧ ∃ route payload, c.route env = .ok route ∧ route.skip = false ∧
      p = c.params env route payload eventID commandID := by
  simp only [prepare] at h
  split_ifs at h with ht
  · obtain ⟨route, hroute, h⟩ := Except.bind_eq_ok.1 h
    rw [Except.mapError_eq_ok] at hroute
    split_ifs at h with hskip
    · cases Except.ok.inj h
    · split at h
      · cases h
      · obtain ⟨payload, -, h⟩ := Except.bind_eq_ok.1 h
        exact ⟨ht, route, payload, hroute, by simpa using hskip,
          (Option.some.inj (Except.ok.inj h)).symm⟩
  · cases Except.ok.inj h

theorem ops_params (hid : c.idempotent = true) {route : Route M} {payload : Bytes} :
    (c.params env route payload eventID commandID).ops =
      [(route.destinationStream, c.claim env)] := by
  simp [AppendParams.ops, params, hid]

theorem not_wants_of_prepare (h : c.prepare env eventID commandID = .ok none) :
    ¬ c.Wants env := by
  rintro ⟨ht, route, hroute, hskip⟩
  simp only [prepare, ht, if_true, hroute, Except.mapError, Except.ok_bind, hskip,
    Bool.false_eq_true, if_false] at h
  split at h
  · cases h
  · obtain ⟨payload, -, h⟩ := Except.bind_eq_ok.1 h
    cases Except.ok.inj h

end LinkedConfig

/-! ### Claims of other scopes -/

/-- Operations of other scopes leave the claims of a scope alone. -/
theorem mem_foldl_foldOp_of_scope {scope : String} {xs : List IssuedOp}
    (hxs : ∀ x ∈ xs, x.2.scope ≠ scope) {rows : List ClaimRow} {r : ClaimRow}
    (hr : r.key.scope = scope) : r ∈ xs.foldl foldOp rows ↔ r ∈ rows := by
  induction xs generalizing rows with
  | nil => rfl
  | cons x xs ih =>
    obtain ⟨hx, hxs⟩ := List.forall_mem_cons.1 hxs
    rw [List.foldl_cons, ih hxs]
    have hne : r.key ≠ x.key := fun he => hx ((congrArg ClaimKey.scope he).symm.trans hr)
    cases hop : x.2.op with
    | claim =>
      have hne' : r ≠ ⟨x.key, x.1.canonical⟩ := fun he => hne (congrArg ClaimRow.key he)
      simp [foldOp, hop, hne']
    | release => simp [foldOp, hop, hne]
    | unknown n => simp [foldOp, hop]

/-! ### The invariant -/

namespace LinkedSys

variable {κ : Columns} {M : Type} {c : LinkedConfig M} {D : Dialect κ} {H : Hasher}
  {Src : Envelope → Prop} {s s' : LinkedSys κ}

/-- The event at the position was derived from the source event. -/
def Derived (s : LinkedSys κ) (env : Envelope) (r : EventRow κ) : Prop :=
  r ∈ s.db.events.rows ∧ (env, r.globalPosition) ∈ s.emitted

variable (c Src) in
/-- Others stay out of the scope, and the handler is called on source events. -/
def Allowed : LinkedSys κ → LinkedStep → Prop
  | _, .append _ p => ∀ op ∈ p.constraints, op.scope ≠ c.scope
  | _, .handle env E _ _ _ => Src env ∧ E.Outside

variable (c Src s) in
/-- The claims of the scope are those of the events derived. -/
structure Inv : Prop where
  nodup : (s.emitted.map Prod.fst).Nodup
  source : ∀ x ∈ s.emitted, Src x.1 ∧ c.Wants x.1
  stored : ∀ x ∈ s.emitted, ∃ r ∈ s.db.events.rows, r.globalPosition = x.2 ∧
    r.causationID = x.1.eventID ∧
      ∀ route, c.route x.1 = .ok route → r.inStream route.destinationStream = true
  claimed : ∀ row ∈ s.db.uniqueClaims.rows, row.key.scope = c.scope →
    ∃ x ∈ s.emitted, row.key.value = x.1.eventID.string
  held : ∀ x ∈ s.emitted, ∀ route, c.route x.1 = .ok route →
    ∃ row ∈ s.db.uniqueClaims.rows, row.key = (c.claim x.1).key route.destinationStream
  returned : ∀ env, (env, .ok ()) ∈ s.returned → c.Wants env → ∃ n, (env, n) ∈ s.emitted

namespace Inv

theorem empty : (LinkedSys.empty : LinkedSys κ).Inv c Src where
  nodup := List.nodup_nil
  source _ hx := absurd hx List.not_mem_nil
  stored _ hx := absurd hx List.not_mem_nil
  claimed _ hr := absurd hr List.not_mem_nil
  held _ hx := absurd hx List.not_mem_nil
  returned _ hx := absurd hx List.not_mem_nil

/-- An invocation returns, with nil only if there is nothing to derive or it has been derived. -/
theorem ret (h : s.Inv c Src) {env : Envelope} {r : Except Err Unit}
    (hr : r = .ok () → c.Wants env → ∃ n, (env, n) ∈ s.emitted) : (s.ret env r).Inv c Src :=
  { h with
    returned := fun env' hmem hw => by
      rcases List.mem_append.1 hmem with hmem | hmem
      · exact h.returned env' hmem hw
      · obtain ⟨rfl, rfl⟩ := Prod.mk.inj (List.mem_singleton.1 hmem)
        exact hr rfl hw }

/-- The tables are the same. -/
theorem sameTables (h : s.Inv c Src) {db' : Db κ} (hs : s.db.SameTables db') :
    Inv c Src { s with db := db' } :=
  { h with
    stored := by
      rw [hs.1]
      exact h.stored
    claimed := by
      rw [hs.2.2.1]
      exact h.claimed
    held := by
      rw [hs.2.2.1]
      exact h.held }

/-- Another writer commits. -/
theorem other (h : s.Inv c Src) {E : Engine} {p : AppendParams} {db' : Db κ}
    {rows : List (EventRow κ)} (ha : Appended D H E p s.db db' rows)
    (hp : ∀ op ∈ p.constraints, op.scope ≠ c.scope) : Inv c Src { s with db := db' } := by
  have hops : ∀ x ∈ p.ops, x.2.scope ≠ c.scope := by
    intro x hx
    obtain ⟨op, hop, rfl⟩ := List.mem_map.1 hx
    exact hp op hop
  refine { h with stored := ?_, claimed := ?_, held := ?_ }
  · intro x hx
    obtain ⟨r, hr, hrest⟩ := h.stored x hx
    refine ⟨r, ?_, hrest⟩
    rw [ha.events]
    exact List.mem_append_left _ hr
  · intro row hrow hscope
    rw [ha.claims, mem_foldl_foldOp_of_scope hops hscope] at hrow
    exact h.claimed row hrow hscope
  · intro x hx route hroute
    obtain ⟨row, hrow, hkey⟩ := h.held x hx route hroute
    refine ⟨row, ?_, hkey⟩
    rw [ha.claims, mem_foldl_foldOp_of_scope hops (by rw [hkey]; rfl)]
    exact hrow

/-- The handler commits: the claim was free, so that nothing was derived before. -/
theorem emit (h : s.Inv c Src) (hid : c.idempotent = true) {env : Envelope} {route : Route M}
    {payload : Bytes} {eventID commandID : UUID} {E : Engine} {db' : Db κ}
    {rows : List (EventRow κ)}
    (ha : Appended D H E (c.params env route payload eventID commandID) s.db db' rows)
    (hsrc : Src env) (ht : c.takes env = true) (hroute : c.route env = .ok route)
    (hskip : route.skip = false) :
    Inv c Src { s with db := db', emitted := s.emitted ++ [(env, db'.seq)] } := by
  have hallowed := ha.allowed
  have hclaims := ha.claims
  rw [LinkedConfig.ops_params hid] at hallowed hclaims
  have hfree : ∀ r ∈ s.db.uniqueClaims.rows, r.key ≠ (c.claim env).key route.destinationStream := by
    rcases hallowed.1 with ⟨-, hfree⟩ | hrel
    · exact hfree
    · cases hrel
  -- the row of the derived event
  obtain ⟨row, hrows, hpos, hcause, hstream⟩ : ∃ row, rows = [row] ∧
      row.globalPosition = db'.seq ∧ row.causationID = env.eventID ∧
        row.inStream route.destinationStream = true := by
    have hseq := ha.seq
    have hw := ha.written
    cases hw with
    | cons hrow hrest =>
      cases hrest
      obtain ⟨actor, hash, pj, kr, -, -, -, -, rfl⟩ := prepareEvent_eq_ok.1 hrow
      exact ⟨_, rfl, hseq.symm, rfl, by simp [EventRow.inStream, eventRow, LinkedConfig.params]⟩
  refine ⟨?_, ?_, ?_, ?_, ?_, ?_⟩
  · rw [List.map_append, List.map_singleton, ← List.concat_eq_append]
    refine List.Nodup.concat (fun hmem => ?_) h.nodup
    obtain ⟨x, hx, rfl⟩ := List.mem_map.1 hmem
    obtain ⟨r, hr, hkey⟩ := h.held x hx route hroute
    exact hfree r hr hkey
  · intro x hx
    rcases List.mem_append.1 hx with hx | hx
    · exact h.source x hx
    · obtain rfl := List.mem_singleton.1 hx
      exact ⟨hsrc, ht, route, hroute, hskip⟩
  · intro x hx
    rw [ha.events]
    rcases List.mem_append.1 hx with hx | hx
    · obtain ⟨r, hr, hrest⟩ := h.stored x hx
      exact ⟨r, List.mem_append_left _ hr, hrest⟩
    · obtain rfl := List.mem_singleton.1 hx
      refine ⟨row, List.mem_append_right _ (hrows ▸ List.mem_cons_self), hpos, hcause, ?_⟩
      intro route' hroute'
      obtain rfl := Except.ok.inj (hroute.symm.trans hroute')
      exact hstream
  · intro r hr hscope
    rw [hclaims] at hr
    rcases List.mem_append.1 hr with hr | hr
    · obtain ⟨x, hx, hval⟩ := h.claimed r hr hscope
      exact ⟨x, List.mem_append_left _ hx, hval⟩
    · obtain rfl := List.mem_singleton.1 hr
      exact ⟨_, List.mem_append_right _ List.mem_cons_self, rfl⟩
  · intro x hx route' hroute'
    rw [hclaims]
    rcases List.mem_append.1 hx with hx | hx
    · obtain ⟨r, hr, hkey⟩ := h.held x hx route' hroute'
      exact ⟨r, List.mem_append_left _ hr, hkey⟩
    · obtain rfl := List.mem_singleton.1 hx
      obtain rfl := Except.ok.inj (hroute.symm.trans hroute')
      exact ⟨_, List.mem_append_right _ List.mem_cons_self, rfl⟩
  · intro env' hmem hw
    obtain ⟨n, hn⟩ := h.returned env' hmem hw
    exact ⟨n, List.mem_append_left _ hn⟩

/-- A claim that is refused was made for the same source event. -/
theorem refused (h : s.Inv c Src) (hD : D.Outside H) (hid : c.idempotent = true)
    (hids : ∀ e e', Src e → Src e' → e.eventID = e'.eventID → e = e') {env : Envelope}
    {route : Route M} {payload : Bytes} {eventID commandID : UUID} {E : Engine}
    (hE : E.Outside) {e : Err} {db' : Db κ}
    (ha : append D H E (c.params env route payload eventID commandID) s.db = (.error e, db'))
    (he : e.is .constraintViolated = true) (hsrc : Src env) : ∃ n, (env, n) ∈ s.emitted := by
  have hnot := not_opsAllowed_of_append hD hE ha he
  rw [LinkedConfig.ops_params hid] at hnot
  have hheld : ∃ r ∈ s.db.uniqueClaims.rows,
      r.key = (c.claim env).key route.destinationStream := by
    by_contra hfree
    push Not at hfree
    exact hnot ⟨Or.inl ⟨rfl, hfree⟩, trivial⟩
  obtain ⟨r, hr, hkey⟩ := hheld
  obtain ⟨x, hx, hval⟩ := h.claimed r hr (by rw [hkey]; rfl)
  have hsame : x.1.eventID = env.eventID := by
    rw [hkey] at hval
    exact (congrArg UUID.mk hval).symm
  obtain rfl := hids _ _ (h.source x hx).1 hsrc hsame
  exact ⟨x.2, hx⟩

theorem finish (h : s.Inv c Src) {env : Envelope} (hmem : ∃ n, (env, n) ∈ s.emitted)
    (ending : Ending) : (s.finish c env ending).Inv c Src := by
  cases ending with
  | returned => exact h.ret fun _ _ => hmem
  | lost e => exact h.ret fun _ _ => hmem
  | crashed => exact h

theorem handle (h : s.Inv c Src) (hD : D.Outside H) (hid : c.idempotent = true)
    (hids : ∀ e e', Src e → Src e' → e.eventID = e'.eventID → e = e') {env : Envelope}
    {E : Engine} (hE : E.Outside) (hsrc : Src env) (eventID commandID : UUID) (ending : Ending) :
    (s.handle c D H env E eventID commandID ending).Inv c Src := by
  unfold LinkedSys.handle
  split
  · exact h.ret fun hr => by cases hr
  · rename_i hprep
    exact h.ret fun _ hw => absurd hw (LinkedConfig.not_wants_of_prepare hprep)
  · rename_i p hprep
    obtain ⟨ht, route, payload, hroute, hskip, rfl⟩ := LinkedConfig.prepare_eq_some hprep
    split
    · rename_i r db' hres
      obtain ⟨rows, ha⟩ := append_ok hres
      exact (h.emit hid ha hsrc ht hroute hskip).finish
        ⟨_, List.mem_append_right _ List.mem_cons_self⟩ ending
    · rename_i e db' hres
      refine (h.sameTables (append_error hres)).ret fun hr _ => ?_
      -- nil is returned only for a refused claim
      simp only [LinkedConfig.result] at hr
      split_ifs at hr with he
      exact h.refused hD hid hids hE hres (Bool.and_eq_true_iff.1 he).1 hsrc

theorem step (h : s.Inv c Src) (hD : D.Outside H) (hid : c.idempotent = true)
    (hids : ∀ e e', Src e → Src e' → e.eventID = e'.eventID → e = e') {l : LinkedStep}
    (hl : Allowed c Src s l) : (s.next c D H l).Inv c Src := by
  cases l with
  | append E p =>
    simp only [next]
    rcases hres : EventStore.append D H E p s.db with ⟨e | r, db'⟩
    · exact h.sameTables (append_error hres)
    · obtain ⟨rows, ha⟩ := append_ok hres
      exact h.other ha hl
  | handle env E eventID commandID ending =>
    exact h.handle hD hid hids hl.2 hl.1 eventID commandID ending

end Inv

/-- The row of a derived event is determined by the source event. -/
theorem Inv.derived_unique (h : s.Inv c Src) {env : Envelope} {r r' : EventRow κ}
    (hr : s.Derived env r) (hr' : s.Derived env r') : r = r' := by
  have hx := List.inj_on_of_nodup_map h.nodup hr.2 hr'.2 rfl
  exact Db.eq_of_position hr.1 hr'.1 (Prod.mk.inj hx).2

end LinkedSys

variable {κ : Columns} {M : Type} {c : LinkedConfig M} {D : Dialect κ} {H : Hasher}
  {Src : Envelope → Prop} {s : LinkedSys κ}

/-- **A linked projection derives each event once.**  The handler is invoked any number of times,
by any number of runners, on source events with distinct ids, and is cut off at any point; other
writers do not use the scope of its claims.  Then no source event has been derived from twice, what
was derived is in the destination, and a source event for which an invocation has returned nil has
exactly one derived event there. -/
theorem linked_once (hD : D.Outside H) (hid : c.idempotent = true)
    (hids : ∀ e e', Src e → Src e' → e.eventID = e'.eventID → e = e')
    (hs : ((linkedSystem c D H).restrict (LinkedSys.Allowed c Src)).Reachable s) :
    (s.emitted.map Prod.fst).Nodup ∧
    (∀ env n, (env, n) ∈ s.emitted → ∃ r, s.Derived env r ∧ r.globalPosition = n ∧
      r.causationID = env.eventID ∧
        ∀ route, c.route env = .ok route → r.inStream route.destinationStream = true) ∧
    (∀ env r r', s.Derived env r → s.Derived env r' → r = r') ∧
    ∀ env, (env, .ok ()) ∈ s.returned → c.Wants env → ∃! r, s.Derived env r := by
  have hinv : s.Inv c Src := by
    refine hs.invariant ?_ ?_
    · rintro _ rfl
      exact .empty
    · rintro s l s' - hi ⟨hl, rfl⟩
      exact hi.step hD hid hids hl
  have hstored : ∀ env n, (env, n) ∈ s.emitted → ∃ r, s.Derived env r ∧ r.globalPosition = n ∧
      r.causationID = env.eventID ∧
        ∀ route, c.route env = .ok route → r.inStream route.destinationStream = true := by
    intro env n hx
    obtain ⟨r, hr, hpos, hrest⟩ := hinv.stored _ hx
    exact ⟨r, ⟨hr, hpos.symm ▸ hx⟩, hpos, hrest⟩
  refine ⟨hinv.nodup, hstored, fun env r r' => hinv.derived_unique, fun env hret hw => ?_⟩
  obtain ⟨n, hn⟩ := hinv.returned env hret hw
  obtain ⟨r, hr, -⟩ := hstored env n hn
  exact ⟨r, hr, fun r' hr' => hinv.derived_unique hr' hr⟩

/-- The `n`-th source event of a small log. -/
def Envelope.small (id : String) (n : ℕ) : Envelope :=
  ⟨⟨id⟩, "acme", ⟨"acme", "order", "1"⟩, n, n, "placed", 1, 0, 0, ⟨"r"⟩, ⟨"c"⟩, ⟨"c"⟩, .zero, [],
    none, none, [], []⟩

/-- A projection that copies every event to the stream `copy:1`. -/
def LinkedConfig.copy : LinkedConfig Unit where
  name := "copy"
  sourceTypeURLs := ["placed"]
  route env := .ok ⟨false, ⟨"acme", "copy", "1"⟩, some (), "copied", 0, env.version - 1, .zero⟩
  idempotentEmit := none
  marshal _ := .ok [7]

/-- The small SQLite library, with actors written as their principal. -/
def LinkedConfig.library : Sqlite.Library Bytes :=
  { Sqlite.Library.small with marshalActor := fun a => .ok a.principal }

theorem LinkedConfig.library_outside :
    (Sqlite.dialect LinkedConfig.library).Outside Hasher.small where
  encodeActor a e h := by cases h
  marshal m e h := by cases h
  storeJSON b e h := by cases h
  storeState b e h := by cases h
  preamble x hx e he := by
    obtain rfl := List.mem_singleton.1 hx
    exact he

/-- Two source events.  The first invocation crashes after its commit, and the second finds the
claim; the third is told that its commit failed, and the fourth finds the claim. -/
theorem linked_once_replayed :
    ∃ s, ((linkedSystem .copy (Sqlite.dialect LinkedConfig.library) .small).restrict
        (LinkedSys.Allowed .copy fun e => e = .small "a" 1 ∨ e = .small "b" 2)).Reachable s ∧
      s.db.events.rows.map EventRow.globalPosition = [1, 2, 3] ∧
      (∃! r, s.Derived (Envelope.small "a" 1) r) ∧
      ∃! r, s.Derived (Envelope.small "b" 2) r := by
  let D := Sqlite.dialect LinkedConfig.library
  let Src : Envelope → Prop := fun e => e = .small "a" 1 ∨ e = .small "b" 2
  let T := (linkedSystem .copy D .small).restrict (LinkedSys.Allowed .copy Src)
  have hcalm : Engine.calm.Outside := fun _ _ h => by cases h
  let run : List LinkedStep :=
    [.handle (.small "a" 1) .calm ⟨"x"⟩ ⟨"k"⟩ .crashed,
      .handle (.small "a" 1) .calm ⟨"y"⟩ ⟨"l"⟩ .returned, .append .calm (.bare 0 "z"),
      .handle (.small "b" 2) .calm ⟨"u"⟩ ⟨"m"⟩ (.lost (.text "connection lost")),
      .handle (.small "b" 2) .calm ⟨"v"⟩ ⟨"n"⟩ .returned]
  have hrun : ∀ l ∈ run, ∀ s : LinkedSys (Sqlite.columns Bytes), s.Allowed .copy Src l := by
    intro l hl s
    simp only [run, List.mem_cons, List.not_mem_nil, or_false] at hl
    rcases hl with rfl | rfl | rfl | rfl | rfl
    · exact ⟨Or.inl rfl, hcalm⟩
    · exact ⟨Or.inl rfl, hcalm⟩
    · exact fun op hop => absurd hop List.not_mem_nil
    · exact ⟨Or.inr rfl, hcalm⟩
    · exact ⟨Or.inr rfl, hcalm⟩
  let f (s : LinkedSys (Sqlite.columns Bytes)) (l : LinkedStep) : Option (LinkedSys _) :=
    some (s.next .copy D .small l)
  have hexec : (TS.exec f .empty run).map (fun s => (s.db.events.rows.map EventRow.globalPosition,
      decide ((Envelope.small "a" 1, (.ok () : Except Err Unit)) ∈ s.returned),
      decide ((Envelope.small "b" 2, (.ok () : Except Err Unit)) ∈ s.returned))) =
      some ([1, 2, 3], true, true) := by
    decide +kernel
  obtain ⟨s, hs, hobs⟩ := Option.map_eq_some_iff.1 hexec
  obtain ⟨hpos, hobs⟩ := Prod.mk.inj hobs
  obtain ⟨ha, hb⟩ := Prod.mk.inj hobs
  have hr : T.Reachable s := TS.Reachable.exec (.init rfl)
    (fun l hl s s' hf => ⟨hrun l hl s, (Option.some.inj hf).symm⟩) hs
  have hids : ∀ e e', Src e → Src e' → e.eventID = e'.eventID → e = e' := by
    rintro e e' (rfl | rfl) (rfl | rfl) he
    · rfl
    · exact absurd he (by decide)
    · exact absurd he (by decide)
    · rfl
  have hwants : ∀ e, Src e → LinkedConfig.copy.Wants e := by
    rintro e (rfl | rfl)
    · exact ⟨by decide, _, rfl, rfl⟩
    · exact ⟨by decide, _, rfl, rfl⟩
  obtain ⟨-, -, -, honce⟩ := linked_once LinkedConfig.library_outside rfl hids hr
  exact ⟨s, hr, hpos, honce _ (of_decide_eq_true ha) (hwants _ (Or.inl rfl)),
    honce _ (of_decide_eq_true hb) (hwants _ (Or.inr rfl))⟩

end EventStore
