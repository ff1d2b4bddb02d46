import EventStore.LTS.Basic
import EventStore.Paging.Keyset
import EventStore.Storage.Read

/-!
# Exporting what is stored about a subject

`RunSubjectExport` (`shred/dsar.go`) reads the events of a tenant page by page, asks the inspector
about each and collects what it accepts, up to `MaxRecords`.  `exportLoop_eq` says that the pages
do not show: a call is one pass over the events beyond `FromPosition`.

A resumable export is a chain of calls, each of which starts where the result before it says
(`LastPosition`), while the log grows.  Two things go wrong there:

* a call that finds no event returns `LastPosition = 0`, so that the next one starts over;
* `Truncated` is set as soon as `MaxRecords` is reached, also when nothing is left.

`chain_exact` says that nothing else does.
-/

namespace EventStore.Dsar

open Paging

/-- `shred.SubjectExportRequest`. -/
structure SubjectExportRequest where
  tenantID : String
  subject : String
  fromPosition : ℕ
  batchSize : ℤ
  maxRecords : ℤ

/-- `SubjectExportRequest.validate`. -/
def SubjectExportRequest.validate (req : SubjectExportRequest) : Except Err Unit :=
  if req.tenantID = "" then .error (.text "shred: SubjectExportRequest.TenantID is required")
  else if req.subject = "" then .error (.text "shred: SubjectExportRequest.Subject is required")
  else .ok ()

/-- `shred.SubjectExportRecord`. -/
structure SubjectExportRecord where
  eventID : String
  tenantID : String
  streamID : String
  typeURL : String
  schemaVersion : UInt32
  version : ℕ
  globalPosition : ℕ
  occurredAt : Time
  recordedAt : Time
  correlationID : String
  causationID : String
  commandID : String
  payload : Bytes
  deriving DecidableEq

/-- `shred.SubjectExportResult`. -/
structure SubjectExportResult where
  records : List SubjectExportRecord
  lastPosition : ℕ
  truncated : Bool
  deriving DecidableEq

/-- `SubjectInspector.Inspect`: `none` is the nil payload that skips an event. -/
abbrev SubjectInspector := Envelope → String → Except Err (Option Bytes)

/-- `SubjectExportSource.ReadAllForTenant`. -/
abbrev SubjectExportSource := String → ℕ → ℕ → Except Err (List Envelope)

/-- `uuidString`. -/
def uuidString (u : UUID) : String :=
  if u.string = "00000000-0000-0000-0000-000000000000" then "" else u.string

/-- The record of an event. -/
def toRecord (env : Envelope) (payload : Bytes) : SubjectExportRecord where
  eventID := env.eventID.string
  tenantID := env.tenantID
  streamID := env.streamID.canonical
  typeURL := env.typeURL
  schemaVersion := env.schemaVersion
  version := env.version
  globalPosition := env.globalPosition
  occurredAt := env.occurredAt
  recordedAt := env.recordedAt
  correlationID := uuidString env.correlationID
  causationID := uuidString env.causationID
  commandID := uuidString env.commandID
  payload := payload

/-- The variables `records` and `last` of `RunSubjectExport`. -/
structure Vars where
  records : List SubjectExportRecord
  last : ℕ

/-- The loop over the events of a page; the result says whether `MaxRecords` has been reached. -/
def inspectPage (inspector : SubjectInspector) (req : SubjectExportRequest) :
    List Envelope → Vars → Except Err (Vars × Bool)
  | [], v => .ok (v, false)
  | env :: envs, v => do
    let id := env.eventID.string
    let tenant := req.tenantID
    let subject := req.subject
    let payload ← (inspector env req.subject).mapError
      (.wrap s!"shred: DSAR inspect event={id} tenant={tenant} subject={subject}")
    match payload with
    | none => inspectPage inspector req envs ⟨v.records, env.globalPosition⟩
    | some payload =>
      let v : Vars := ⟨v.records ++ [toRecord env payload], env.globalPosition⟩
      if 0 < req.maxRecords ∧ req.maxRecords ≤ v.records.length then .ok (v, true)
      else inspectPage inspector req envs v

/-- The loop over the pages, for up to `fuel` of them. -/
def exportLoop (src : SubjectExportSource) (inspector : SubjectInspector)
    (req : SubjectExportRequest) (batchSize : ℕ) : ℕ → ℕ → Vars →
    Option (Except Err SubjectExportResult)
  | 0, _, _ => none
  | fuel + 1, cursor, v =>
    match src req.tenantID cursor batchSize with
    | .error err =>
      let tenant := req.tenantID
      some (.error (.wrap s!"shred: DSAR read tenant={tenant} cursor={cursor}" err))
    | .ok [] => some (.ok ⟨v.records, v.last, false⟩)
    | .ok (env :: envs) =>
      match inspectPage inspector req (env :: envs) v with
      | .error err => some (.error err)
      | .ok (v, true) => some (.ok ⟨v.records, v.last, true⟩)
      | .ok (v, false) =>
        if (env :: envs).length < batchSize then some (.ok ⟨v.records, v.last, false⟩)
        else exportLoop src inspector req batchSize fuel v.last v

/-- `RunSubjectExport`, for up to `fuel` pages. -/
def runSubjectExport (fuel : ℕ) (src : SubjectExportSource) (inspector : SubjectInspector)
    (req : SubjectExportRequest) : Option (Except Err SubjectExportResult) :=
  match req.validate with
  | .error err => some (.error err)
  | .ok () =>
    let batchSize := if req.batchSize ≤ 0 then 200 else req.batchSize
    exportLoop src inspector req batchSize.toNat fuel req.fromPosition ⟨[], 0⟩

/-- A source that reads from a log. -/
def serve (log : List Envelope) : SubjectExportSource := fun _ cursor limit =>
  .ok ((beyond Envelope.globalPosition cursor log).take limit)

/-- The records of the events that the inspector accepts. -/
def accepted (inspector : SubjectInspector) (subject : String) (log : List Envelope) :
    List SubjectExportRecord :=
  log.filterMap fun env =>
    match inspector env subject with
    | .ok (some payload) => some (toRecord env payload)
    | _ => none

/-- Positions start at one and grow. -/
def Ordered (log : List Envelope) : Prop :=
  (0 :: log.map Envelope.globalPosition).Pairwise (· < ·)

instance (log : List Envelope) : Decidable (Ordered log) :=
  inferInstanceAs (Decidable (List.Pairwise _ _))

/-! ### The chain of calls -/

/-- A tenant's log, the position the next call starts from, what the calls have exported, and of
each result whether it is truncated and whether accepted events beyond its position remained. -/
structure Chain where
  log : List Envelope
  cursor : ℕ
  exported : List SubjectExportRecord
  reports : List (Bool × Bool)

/-- The log grows, or another call is made. -/
inductive ChainStep where
  | grow (more : List Envelope)
  | call (batchSize maxRecords : ℤ)

namespace Chain

variable (inspector : SubjectInspector) (tenant subject : String)

/-- The chain after a result. -/
def after (s : Chain) (r : SubjectExportResult) : Chain where
  log := s.log
  cursor := r.lastPosition
  exported := s.exported ++ r.records
  reports := s.reports ++ [(r.truncated, decide
    (accepted inspector subject (beyond Envelope.globalPosition r.lastPosition s.log) ≠ []))]

/-- The next call, with pages enough for the log. -/
def call (s : Chain) (batchSize maxRecords : ℤ) : Option (Except Err SubjectExportResult) :=
  runSubjectExport (s.log.length + 1) (serve s.log) inspector
    ⟨tenant, subject, s.cursor, batchSize, maxRecords⟩

/-- A step of the chain; a call that fails is made again from where it started. -/
def next (s : Chain) : ChainStep → Option Chain
  | .grow more => if Ordered (s.log ++ more) then some { s with log := s.log ++ more } else none
  | .call batchSize maxRecords =>
    (s.call inspector tenant subject batchSize maxRecords).map fun
      | .error _ => s
      | .ok r => s.after inspector subject r

/-- **The purpose of a chain**: the accepted events up to the cursor have been exported, once and in
order, and each result tells whether more remained. -/
structure Exact (s : Chain) : Prop where
  exported : s.exported = accepted inspector subject
    (s.log.filter fun env => decide (env.globalPosition ≤ s.cursor))
  reports : ∀ p ∈ s.reports, p.1 = p.2

/-- The condition on a call: it finds an event, or nothing has been exported yet; and the accepted
events that it finds are not exactly `MaxRecords`. -/
def Sound (s : Chain) : ChainStep → Prop
  | .grow _ => True
  | .call _ maxRecords =>
    (beyond Envelope.globalPosition s.cursor s.log ≠ [] ∨ s.exported = []) ∧
    ¬ (0 < maxRecords ∧ maxRecords =
      (accepted inspector subject (beyond Envelope.globalPosition s.cursor s.log)).length)

instance decidableSound (s : Chain) : ∀ l, Decidable (s.Sound inspector subject l)
  | .grow _ => .isTrue trivial
  | .call _ _ => inferInstanceAs (Decidable (_ ∧ _))

end Chain

/-- Chains of calls from the beginning of a log. -/
def chain (inspector : SubjectInspector) (tenant subject : String) : TS Chain ChainStep where
  init s := Ordered s.log ∧ s.cursor = 0 ∧ s.exported = [] ∧ s.reports = []
  step s l s' := s.next inspector tenant subject l = some s'

/-! ### One call -/

section Call

variable {inspector : SubjectInspector} {subject : String} {req : SubjectExportRequest}
  {l m log : List Envelope} {v v' : Vars} {stop : Bool}

@[simp] theorem accepted_append : accepted inspector subject (l ++ m) =
    accepted inspector subject l ++ accepted inspector subject m := List.filterMap_append ..

theorem inspectPage_append : inspectPage inspector req (l ++ m) v =
    (inspectPage inspector req l v).bind fun p =>
      if p.2 then .ok p else inspectPage inspector req m p.1 := by
  induction l generalizing v with
  | nil => rfl
  | cons env l ih =>
    rw [List.cons_append, inspectPage, inspectPage]
    cases hi : inspector env req.subject with
    | error err => rfl
    | ok payload =>
      cases payload with
      | none => exact ih
      | some payload =>
        simp only [Except.mapError, bind, Except.bind]
        split_ifs with hcap
        · rfl
        · exact ih

/-- **A page, or the whole log**: the events up to some point have been inspected, and the loop
has gone on to the end unless `MaxRecords` was reached. -/
theorem inspectPage_ok (h : inspectPage inspector req l v = .ok (v', stop))
    (hv : 0 < req.maxRecords → (v.records.length : ℤ) < req.maxRecords) :
    ∃ done rest, l = done ++ rest ∧
      v'.records = v.records ++ accepted inspector req.subject done ∧
      v'.last = (done.getLast?.map Envelope.globalPosition).getD v.last ∧
      (stop = false ∧ rest = [] ∧
          (0 < req.maxRecords → (v'.records.length : ℤ) < req.maxRecords) ∨
        stop = true ∧ done ≠ [] ∧ 0 < req.maxRecords ∧
          (v'.records.length : ℤ) = req.maxRecords) := by
  induction l generalizing v with
  | nil =>
    cases h
    exact ⟨[], [], rfl, (List.append_nil _).symm, rfl, .inl ⟨rfl, rfl, hv⟩⟩
  | cons env l ih =>
    rw [inspectPage] at h
    cases hi : inspector env req.subject with
    | error err =>
      rw [hi] at h
      cases h
    | ok payload =>
      rw [hi] at h
      -- what the rest of the page does, after this event
      have hlast : ∀ done : List Envelope,
          ((env :: done).getLast?.map Envelope.globalPosition).getD v.last =
            (done.getLast?.map Envelope.globalPosition).getD env.globalPosition := by
        intro done
        cases done <;> simp [List.getLast?_cons]
      cases payload with
      | none =>
        have hacc : ∀ done, accepted inspector req.subject (env :: done) =
            accepted inspector req.subject done := fun done => by
          rw [accepted, List.filterMap_cons, hi]
          rfl
        obtain ⟨done, rest, rfl, hrec, hl, hstop⟩ := ih h hv
        refine ⟨env :: done, rest, rfl, ?_, ?_, ?_⟩
        · rw [hacc]
          exact hrec
        · rw [hlast]
          exact hl
        · exact hstop.imp_right fun h => ⟨h.1, List.cons_ne_nil _ _, h.2.2⟩
      | some payload =>
        have hacc : ∀ done, accepted inspector req.subject (env :: done) =
            toRecord env payload :: accepted inspector req.subject done := fun done => by
          rw [accepted, List.filterMap_cons, hi]
          rfl
        simp only [Except.mapError, bind, Except.bind] at h
        have hlen : (v.records ++ [toRecord env payload]).length = v.records.length + 1 :=
          List.length_append
        split_ifs at h with hcap
        · cases h
          refine ⟨[env], l, rfl, by rw [hacc]; rfl, rfl,
            .inr ⟨rfl, List.cons_ne_nil _ _, hcap.1, ?_⟩⟩
          have := hv hcap.1
          have := hcap.2
          simp only [hlen] at *
          omega
        · obtain ⟨done, rest, rfl, hrec, hl, hstop⟩ := ih h fun hpos => by
            have := fun hle => hcap ⟨hpos, hle⟩
            simp only [hlen] at *
            omega
          refine ⟨env :: done, rest, rfl, ?_, ?_, ?_⟩
          · rw [hacc, hrec, List.append_assoc]
            rfl
          · rw [hlast]
            exact hl
          · exact hstop.imp_right fun h => ⟨h.1, List.cons_ne_nil _ _, h.2.2⟩

/-- **The pages do not show**: a call is one pass over the events beyond the cursor. -/
theorem exportLoop_eq {batchSize fuel cursor : ℕ}
    (hlog : log.Pairwise fun a b => a.globalPosition < b.globalPosition) (hb : 0 < batchSize)
    (hfuel : (beyond Envelope.globalPosition cursor log).length < fuel)
    (hv : 0 < req.maxRecords → (v.records.length : ℤ) < req.maxRecords) :
    exportLoop (serve log) inspector req batchSize fuel cursor v =
      some ((inspectPage inspector req (beyond Envelope.globalPosition cursor log) v).map
        fun p => ⟨p.1.records, p.1.last, p.2⟩) := by
  induction fuel generalizing cursor v with
  | zero => omega
  | succ fuel ih =>
    rw [exportLoop, serve]
    cases hpage : (beyond Envelope.globalPosition cursor log).take batchSize with
    | nil =>
      rw [(List.take_eq_nil_iff.1 hpage).resolve_left hb.ne']
      rfl
    | cons env envs =>
      dsimp only
      -- the page ends with some event, and the pass goes on beyond it
      obtain ⟨a, ha⟩ : ∃ a, (env :: envs).getLast? = some a :=
        ⟨_, List.getLast?_eq_some_getLast (List.cons_ne_nil _ _)⟩
      have happend := take_beyond hlog (hpage ▸ ha)
      rw [hpage] at happend
      rw [← happend, inspectPage_append]
      cases hpass : inspectPage inspector req (env :: envs) v with
      | error err => rfl
      | ok p =>
        obtain ⟨v', stop⟩ := p
        cases stop with
        | true => rfl
        | false =>
          obtain ⟨done, rest, hdone, -, hlast, hstop⟩ := inspectPage_ok hpass hv
          obtain ⟨-, rfl, hv'⟩ := hstop.resolve_right fun h => Bool.false_ne_true h.1
          rw [List.append_nil] at hdone
          have hcursor : v'.last = a.globalPosition := by
            rw [hlast, ← hdone, ha]
            rfl
          dsimp only
          rw [hcursor]
          have hsum := congrArg List.length happend
          rw [List.length_append, List.length_cons] at hsum
          split_ifs with hlen
          · -- a short page is all there is
            rw [← hpage, List.length_take] at hlen
            have hzero : beyond Envelope.globalPosition a.globalPosition log = [] := by
              have hl := congrArg List.length hpage
              rw [List.length_take, List.length_cons] at hl
              exact List.eq_nil_of_length_eq_zero (by omega)
            simp only [Except.bind, Bool.false_eq_true, if_false, hzero]
            rw [inspectPage, ← hcursor]
            rfl
          · exact ih (by omega) hv'

/-- A call that succeeds, and whose request is valid. -/
theorem runSubjectExport_ok {fuel : ℕ} {r : SubjectExportResult}
    (hlog : log.Pairwise fun a b => a.globalPosition < b.globalPosition)
    (hfuel : log.length < fuel)
    (h : runSubjectExport fuel (serve log) inspector req = some (.ok r)) :
    ∃ done rest, beyond Envelope.globalPosition req.fromPosition log = done ++ rest ∧
      r.records = accepted inspector req.subject done ∧
      r.lastPosition = (done.getLast?.map Envelope.globalPosition).getD 0 ∧
      (r.truncated = false ∧ rest = [] ∧
          (0 < req.maxRecords → (r.records.length : ℤ) < req.maxRecords) ∨
        r.truncated = true ∧ done ≠ [] ∧ 0 < req.maxRecords ∧
          (r.records.length : ℤ) = req.maxRecords) := by
  rw [runSubjectExport] at h
  cases hval : req.validate with
  | error err =>
    rw [hval] at h
    cases h
  | ok u =>
    rw [hval] at h
    dsimp only at h
    have hb : 0 < (if req.batchSize ≤ 0 then 200 else req.batchSize).toNat := by
      split_ifs <;> omega
    have hlen : (beyond Envelope.globalPosition req.fromPosition log).length < fuel :=
      (List.length_filter_le _ _).trans_lt hfuel
    rw [exportLoop_eq (v := ⟨[], 0⟩) hlog hb hlen (by simp)] at h
    cases hpass : inspectPage inspector req
        (beyond Envelope.globalPosition req.fromPosition log) ⟨[], 0⟩ with
    | error err =>
      rw [hpass] at h
      cases h
    | ok p =>
      obtain ⟨v', stop⟩ := p
      rw [hpass] at h
      cases h
      exact inspectPage_ok hpass (by simp)

/-- A call returns, whatever the inspector answers. -/
theorem runSubjectExport_returns {fuel : ℕ}
    (hlog : log.Pairwise fun a b => a.globalPosition < b.globalPosition)
    (hfuel : log.length < fuel) : runSubjectExport fuel (serve log) inspector req ≠ none := by
  rw [runSubjectExport]
  cases req.validate with
  | error err => exact Option.some_ne_none _
  | ok u =>
    dsimp only
    rw [exportLoop_eq (v := ⟨[], 0⟩) hlog (by split_ifs <;> omega)
      ((List.length_filter_le _ _).trans_lt hfuel) (by simp)]
    exact Option.some_ne_none _

/-- The stores serve the log of a tenant whose events can be read. -/
theorem readAllForTenant_eq_serve {κ : Columns} {D : Dialect κ} {db : Db κ} {tenant : String}
    (ht : tenant ≠ "")
    (hlog : List.Forall₂ (fun r e => rowToEnvelope D r = .ok e) (db.scope tenant) log) :
    readAllForTenant D db tenant = serve log tenant := by
  funext cursor limit
  have hserve : List.Forall₂ (fun r e => rowToEnvelope D r = .ok e)
      (((db.scope tenant).filter fun r => decide (cursor < r.globalPosition)).take limit)
      ((beyond Envelope.globalPosition cursor log).take limit) := by
    refine List.forall₂_take _ (List.rel_filter ?_ hlog)
    intro r e hre
    obtain ⟨_, _, _, _, _, _, _, _, rfl⟩ := rowToEnvelope_eq_ok.1 hre
    rfl
  have hpage := readAll_scope_eq_ok.2 hserve
  rwa [if_neg ht] at hpage

end Call

/-! ### Call after call -/

namespace Chain

variable {inspector : SubjectInspector} {tenant subject : String} {s : Chain}

theorem pairwise_of_ordered {log : List Envelope} (h : Ordered log) :
    log.Pairwise (fun a b => a.globalPosition < b.globalPosition) ∧
      ∀ e ∈ log, 0 < e.globalPosition := by
  obtain ⟨hpos, hlog⟩ := List.pairwise_cons.1 h
  exact ⟨List.pairwise_map.1 hlog, fun e he => hpos _ (List.mem_map_of_mem he)⟩

/-- What holds along a chain: the log is in order and the cursor is a position of it. -/
structure Inv (inspector : SubjectInspector) (subject : String) (s : Chain) : Prop where
  ordered : Ordered s.log
  cursor : s.cursor = 0 ∨ ∃ e ∈ s.log, e.globalPosition = s.cursor
  exact : s.Exact inspector subject

theorem exact_after (hs : s.Exact inspector subject) {r : SubjectExportResult} :
    (s.after inspector subject r).Exact inspector subject ↔
      s.exported ++ r.records = accepted inspector subject
        (s.log.filter fun env => decide (env.globalPosition ≤ r.lastPosition)) ∧
      (r.truncated = true ↔ accepted inspector subject
        (beyond Envelope.globalPosition r.lastPosition s.log) ≠ []) := by
  constructor
  · intro h
    have hlast := h.reports _ (List.mem_append_right _ (List.mem_singleton.2 rfl))
    exact ⟨h.exported, Bool.eq_iff_iff.1 hlast |>.trans decide_eq_true_iff⟩
  · rintro ⟨hexp, htrunc⟩
    refine ⟨hexp, fun p hp => ?_⟩
    rcases List.mem_append.1 hp with hp | hp
    · exact hs.reports p hp
    · rw [List.mem_singleton.1 hp, Bool.eq_iff_iff, decide_eq_true_eq]
      exact htrunc

/-- **One more call** keeps the chain exact precisely under the condition. -/
theorem exact_after_iff (hs : s.Inv inspector subject) {batchSize maxRecords : ℤ}
    {r : SubjectExportResult}
    (h : s.call inspector tenant subject batchSize maxRecords = some (.ok r)) :
    (s.after inspector subject r).Exact inspector subject ↔
      s.Sound inspector subject (.call batchSize maxRecords) := by
  obtain ⟨hlog, hpos⟩ := pairwise_of_ordered hs.ordered
  obtain ⟨done, rest, hpending, hrecords, hlast, hstop⟩ :=
    runSubjectExport_ok hlog (Nat.lt_succ_self _) h
  dsimp only at hpending hrecords hstop
  have hall := filter_le_append_beyond s.cursor hlog
  have hexp := hs.exact.exported
  rw [exact_after hs.exact, Sound, hpending, hrecords]
  cases hdone : done.getLast? with
  | none =>
    -- no event was found: the cursor goes back to the beginning
    obtain rfl := List.getLast?_eq_none_iff.1 hdone
    obtain ⟨htrunc, rfl, -⟩ := hstop.resolve_right fun h => h.2.1 rfl
    have hlast : r.lastPosition = 0 := hlast
    have hnone : s.log.filter (fun e => decide (e.globalPosition ≤ 0)) = [] :=
      List.filter_eq_nil_iff.2 fun e he => by simpa using (hpos e he).ne'
    have hbeyond : beyond Envelope.globalPosition 0 s.log = s.log :=
      List.filter_eq_self.2 fun e he => decide_eq_true (hpos e he)
    rw [hpending, List.nil_append, List.append_nil] at hall
    rw [hall] at hexp
    rw [hlast, hnone, hbeyond, htrunc, ← hexp]
    simp only [accepted, List.filterMap_nil, List.append_nil, List.length_nil]
    constructor
    · rintro ⟨hnil, -⟩
      exact ⟨.inr hnil, fun hc => hc.1.ne' hc.2⟩
    · rintro ⟨hfound, -⟩
      have hnil := hfound.resolve_left (not_not.2 rfl)
      exact ⟨hnil, by simp [hnil]⟩
  | some a =>
    -- the cursor moves to the last event that was inspected
    have hlast : r.lastPosition = a.globalPosition := by rw [hlast, hdone]; rfl
    have htake : (beyond Envelope.globalPosition s.cursor s.log).take done.length = done := by
      rw [hpending, List.take_left]
    have hrest : beyond Envelope.globalPosition a.globalPosition s.log = rest := by
      have := take_beyond (n := done.length) (a := a) hlog (by rw [htake, hdone])
      rw [htake, hpending] at this
      exact List.append_cancel_left this
    have hupto : s.log.filter (fun e => decide (e.globalPosition ≤ a.globalPosition)) =
        s.log.filter (fun e => decide (e.globalPosition ≤ s.cursor)) ++ done := by
      have hnext := filter_le_append_beyond a.globalPosition hlog
      rw [hrest] at hnext
      rw [hpending, ← List.append_assoc] at hall
      exact List.append_cancel_right (hnext.trans hall.symm)
    have hrecs : s.exported ++ accepted inspector subject done = accepted inspector subject
        (s.log.filter fun e => decide (e.globalPosition ≤ a.globalPosition)) := by
      rw [hupto, accepted_append, ← hexp]
    have hfound : done ++ rest ≠ [] := by
      intro hnil
      rw [(List.append_eq_nil_iff.1 hnil).1] at hdone
      cases hdone
    rw [hlast, hrest, accepted_append, List.length_append]
    rw [hrecords] at hstop
    rcases hstop with ⟨htrunc, rfl, hlt⟩ | ⟨htrunc, -, hmax, hlen⟩
    · have hzero : accepted inspector subject [] = [] := rfl
      rw [htrunc, hzero]
      refine ⟨fun _ => ⟨.inl hfound, fun hc => ?_⟩, fun _ => ⟨hrecs, by simp⟩⟩
      have hlt' := hlt hc.1
      have heq := hc.2
      rw [List.length_nil] at heq
      omega
    · rw [htrunc]
      constructor
      · rintro ⟨-, hmore⟩
        refine ⟨.inl hfound, fun hc => hmore.1 rfl (List.eq_nil_of_length_eq_zero ?_)⟩
        have heq := hc.2
        omega
      · rintro ⟨-, hmore⟩
        refine ⟨hrecs, fun _ hnil => hmore ⟨hmax, ?_⟩, fun _ => rfl⟩
        rw [hnil, List.length_nil, ← hlen]
        rfl

theorem Inv.grow (hs : s.Inv inspector subject) {more : List Envelope}
    (hord : Ordered (s.log ++ more)) :
    ({ s with log := s.log ++ more } : Chain).Inv inspector subject where
  ordered := hord
  cursor := by
    refine hs.cursor.imp_right ?_
    rintro ⟨e, he, heq⟩
    exact ⟨e, List.mem_append_left _ he, heq⟩
  exact := by
    obtain ⟨hlog, hpos⟩ := pairwise_of_ordered hord
    -- what is new is beyond the cursor
    have hnew : more.filter (fun e => decide (e.globalPosition ≤ s.cursor)) = [] := by
      refine List.filter_eq_nil_iff.2 fun e he => ?_
      rw [decide_eq_true_eq, not_le]
      rcases hs.cursor with h0 | ⟨e', he', heq⟩
      · rw [h0]
        exact hpos e (List.mem_append_right _ he)
      · rw [← heq]
        exact (List.pairwise_append.1 hlog).2.2 e' he' e he
    refine ⟨?_, hs.exact.reports⟩
    dsimp only
    rw [List.filter_append, hnew, List.append_nil]
    exact hs.exact.exported

theorem Inv.call (hs : s.Inv inspector subject) {batchSize maxRecords : ℤ}
    {r : SubjectExportResult}
    (h : s.call inspector tenant subject batchSize maxRecords = some (.ok r))
    (hsound : s.Sound inspector subject (.call batchSize maxRecords)) :
    (s.after inspector subject r).Inv inspector subject where
  ordered := hs.ordered
  cursor := by
    obtain ⟨done, rest, hpending, -, hlast, -⟩ :=
      runSubjectExport_ok (pairwise_of_ordered hs.ordered).1 (Nat.lt_succ_self _) h
    cases hdone : done.getLast? with
    | none =>
      rw [hdone] at hlast
      exact .inl hlast
    | some a =>
      rw [hdone] at hlast
      have hmem : a ∈ beyond Envelope.globalPosition s.cursor s.log := by
        rw [hpending]
        exact List.mem_append_left _ (List.mem_of_getLast? hdone)
      exact .inr ⟨a, (mem_beyond.1 hmem).1, hlast.symm⟩
  exact := (exact_after_iff hs h).2 hsound

theorem Inv.step (hs : s.Inv inspector subject) {l : ChainStep} {s' : Chain}
    (hsound : s.Sound inspector subject l)
    (h : s.next inspector tenant subject l = some s') : s'.Inv inspector subject := by
  cases l with
  | grow more =>
    rw [next] at h
    split_ifs at h with hord
    cases h
    exact hs.grow hord
  | call batchSize maxRecords =>
    obtain ⟨res, hres, hs'⟩ := Option.map_eq_some_iff.1 h
    cases res with
    | error err => exact hs' ▸ hs
    | ok r => exact hs' ▸ hs.call hres hsound

end Chain

/-- **When a chain of calls exports everything once and says whether more remains.**  In every
state of a chain whose calls meet the condition the chain is exact and the next call returns; and
if it succeeds, the chain is still exact precisely if it meets the condition, too. -/
theorem chain_exact {inspector : SubjectInspector} {tenant subject : String} {s : Chain}
    (h : ((chain inspector tenant subject).restrict (Chain.Sound inspector subject)).Reachable s) :
    s.Exact inspector subject ∧
    (∀ batchSize maxRecords, s.call inspector tenant subject batchSize maxRecords ≠ none) ∧
    ∀ batchSize maxRecords r, s.call inspector tenant subject batchSize maxRecords = some (.ok r) →
      ((s.after inspector subject r).Exact inspector subject ↔
        s.Sound inspector subject (.call batchSize maxRecords)) := by
  have hinv : s.Inv inspector subject := by
    refine h.invariant (fun s hs => ?_) fun s l s' _ hs hstep => hs.step hstep.1 hstep.2
    obtain ⟨hord, hcursor, hexp, hrep⟩ := hs
    have hnone : s.log.filter (fun e => decide (e.globalPosition ≤ 0)) = [] :=
      List.filter_eq_nil_iff.2 fun e he => by
        simpa using ((Chain.pairwise_of_ordered hord).2 e he).ne'
    refine ⟨hord, .inl hcursor, ?_, ?_⟩
    · rw [hexp, hcursor, hnone]
      rfl
    · simp [hrep]
  refine ⟨hinv.exact, fun b m => ?_, fun b m r hr => Chain.exact_after_iff hinv hr⟩
  exact runSubjectExport_returns (Chain.pairwise_of_ordered hinv.ordered).1 (Nat.lt_succ_self _)

/-! ### A chain that goes wrong -/

/-- An event at a position. -/
def eventAt (position : ℕ) : Envelope :=
  ⟨⟨"e"⟩, "acme", ⟨"acme", "order", "1"⟩, position, position, "type.example/Placed", 1, 0, 0, ⟨"c"⟩,
    ⟨"c"⟩, ⟨"c"⟩, .zero, [], none, none, [], []⟩

/-- An inspector that accepts every event. -/
def everything : SubjectInspector := fun env _ => .ok (some env.payload)

/-- A chain over no events. -/
def fresh : Chain := ⟨[], 0, [], []⟩

/-- The event is exported, a call finds nothing new, and the next one exports the event again; and
a call whose `MaxRecords` is the number of events left is said to be truncated. -/
theorem export_repeated :
    (TS.exec (Chain.next everything "acme" "alice") fresh
      [.grow [eventAt 1], .call 0 0, .call 0 0, .call 0 0]).map
        (fun s => s.exported.map SubjectExportRecord.globalPosition) = some [1, 1] ∧
    (TS.exec (Chain.next everything "acme" "alice") fresh [.grow [eventAt 1], .call 0 1]).map
      Chain.reports = some [(true, false)] := by
  decide +kernel

/-- A chain of two calls, the first of them truncated. -/
theorem chain_exact_resumed : ∃ s : Chain,
    ((chain everything "acme" "alice").restrict (Chain.Sound everything "alice")).Reachable s ∧
    s.exported.map SubjectExportRecord.globalPosition = [1, 2, 3] ∧
    s.Exact everything "alice" := by
  have hexec : (TS.exec (TS.guarded (Chain.Sound everything "alice")
      (Chain.next everything "acme" "alice")) fresh
      [.grow [eventAt 1, eventAt 2, eventAt 3], .call 0 2, .call 0 0]).map
        (fun s => s.exported.map SubjectExportRecord.globalPosition) = some [1, 2, 3] := by
    decide +kernel
  obtain ⟨s, hs, hpos⟩ := Option.map_eq_some_iff.1 hexec
  have hreach : ((chain everything "acme" "alice").restrict
      (Chain.Sound everything "alice")).Reachable s :=
    TS.Reachable.exec (.init ⟨by decide, rfl, rfl, rfl⟩)
      (fun l _ s s' h => TS.step_guarded (fun h => h) h) hs
  exact ⟨s, hreach, hpos, (chain_exact hreach).1⟩

end EventStore.Dsar
