import EventStore.Projection.Runtime
import Mathlib.Data.Fintype.EquivFin

/-!
# What a projection delivers

The page a runner works on is the log after its saved cursor, as far as it was read, so the events
it has passed in the call are those up to the last one (`Ahead`).  What the cursor is moved to is
therefore always a position with nothing missed below it.  A crash loses the call and not the
cursor, and the events passed since the last `Save` are delivered again.

## Main definitions

* `Passed` : an event is of another shard, or it was handled or captured.
* `Ahead` : where a call is in the log.
* `ProjectionSys.Inv` : the invariant.

## Main results

* `ProjectionSys.inv_of_reachable` : the invariant holds in every run.
* `projection_delivers` : **no event in the shard is lost below the cursor, and every event is
  delivered by one shard.**
-/

namespace EventStore

variable {κ : Columns}

/-- What is read of a row keeps its stream and its position. -/
theorem rowToEnvelope_stream {D : Dialect κ} {r : EventRow κ} {env : Envelope}
    (h : rowToEnvelope D r = .ok env) : env.tenantID = r.tenantID ∧
      env.streamID.canonical = r.streamID ∧ env.globalPosition = r.globalPosition := by
  obtain ⟨sid, actor, occurred, recorded, hsid, -, -, -, rfl⟩ := rowToEnvelope_eq_ok.1 h
  exact ⟨rfl, (parseCanonical_eq_ok hsid).2.2, rfl⟩

/-! ### Passed events -/

/-- The event is not for the runner, or the history has that it was delivered. -/
def Passed (P : Projector) (j : ℕ) (log : List Delivery) (r : EventRow κ) : Prop :=
  P.inShard r.tenantID r.streamID = .ok false ∨
    P.inShard r.tenantID r.streamID = .ok true ∧
      (.handled j r.globalPosition ∈ log ∨ .captured j r.globalPosition ∈ log)

theorem Passed.mono {P : Projector} {j : ℕ} {log log' : List Delivery} {r : EventRow κ}
    (h : Passed P j log r) (hsub : log ⊆ log') : Passed P j log' r :=
  h.imp_right fun ⟨hin, hd⟩ => ⟨hin, hd.imp (hsub ·) (hsub ·)⟩

/-- What is passed and in the shard was delivered. -/
theorem Passed.delivered {P : Projector} {j : ℕ} {log : List Delivery} {r : EventRow κ}
    (h : Passed P j log r) (hin : P.inShard r.tenantID r.streamID = .ok true) :
    .handled j r.globalPosition ∈ log ∨ .captured j r.globalPosition ∈ log := by
  rcases h with h | ⟨-, h⟩
  · rw [hin] at h
    cases h
  · exact h

variable (D : Dialect κ)

/-- A call has passed the events up to position `p`, and `todo` are the next ones of the log. -/
structure Ahead (P : Projector) (j : ℕ) (db : Db κ) (log : List Delivery) (p : ℕ)
    (todo : List Envelope) : Prop where
  le_seq : p ≤ db.seq
  page : ∃ now rest, (db.scope P.tenant).filter (fun r => decide (p < r.globalPosition)) =
    now ++ rest ∧ List.Forall₂ (fun r env => rowToEnvelope D r = .ok env) now todo
  passed : ∀ r ∈ db.scope P.tenant, r.globalPosition ≤ p → Passed P j log r

namespace Ahead

variable {D} {P : Projector} {j : ℕ} {db db' : Db κ} {log log' : List Delivery} {p : ℕ}
  {todo : List Envelope} {env : Envelope}

theorem mono (h : Ahead D P j db log p todo) (hsub : log ⊆ log') : Ahead D P j db log' p todo :=
  { h with passed := fun r hr hp => (h.passed r hr hp).mono hsub }

/-- The rest of the page is forgotten, and some of what was passed. -/
theorem back (h : Ahead D P j db log p todo) {q : ℕ} (hq : q ≤ p) : Ahead D P j db log q [] where
  le_seq := hq.trans h.le_seq
  page := ⟨[], _, rfl, .nil⟩
  passed r hr hp := h.passed r hr (hp.trans hq)

/-- Appended events come after all others. -/
theorem grown (h : Ahead D P j db log p todo) {rows : List (EventRow κ)}
    (hg : db.Grown db' rows) : Ahead D P j db' log p todo where
  le_seq := h.le_seq.trans hg.seq_le
  page := by
    obtain ⟨now, rest, hsplit, hnow⟩ := h.page
    refine ⟨now, rest ++ (rows.filter (EventRow.inScope P.tenant)).filter
      (fun r => decide (p < r.globalPosition)), ?_, hnow⟩
    rw [Db.scope, hg.events, List.filter_append, List.filter_append, ← List.append_assoc,
      ← hsplit]
    rfl
  passed r hr hp := by
    rw [Db.scope, hg.events, List.filter_append, List.mem_append] at hr
    rcases hr with hr | hr
    · exact h.passed r hr hp
    · have hlt := hg.fresh r (List.mem_filter.1 hr).1
      exact absurd (hp.trans h.le_seq) (Nat.not_le.2 hlt)

/-- The page read at the position. -/
theorem read {lim : ℤ → Except Err ℕ} (h : Ahead D P j db log p [])
    (hread : P.readEvents D lim db p = .ok todo) : Ahead D P j db log p todo := by
  obtain ⟨n, -, hpage⟩ := Except.bind_eq_ok.1 hread
  exact { h with page := ⟨_, _, (List.take_append_drop n _).symm, readAll_scope_eq_ok.1 hpage⟩ }

/-- The next event of the page is the next event of the log. -/
theorem head (h : Ahead D P j db log p (env :: todo)) : ∃ r ∈ db.scope P.tenant,
    rowToEnvelope D r = .ok env ∧ p < r.globalPosition ∧
      ∀ r' ∈ db.scope P.tenant, r'.globalPosition < r.globalPosition → r'.globalPosition ≤ p := by
  obtain ⟨now, rest, hsplit, hnow⟩ := h.page
  cases hnow with
  | @cons r _ now _ hr hnow =>
    have hmem : r ∈ (db.scope P.tenant).filter fun r => decide (p < r.globalPosition) := by
      rw [hsplit]
      exact List.mem_cons_self
    obtain ⟨hscope, hp⟩ := List.mem_filter.1 hmem
    refine ⟨r, hscope, hr, of_decide_eq_true hp, fun r' hr' hlt => ?_⟩
    -- an event after `p` is `r` or comes after it
    by_contra hp'
    have hmem' : r' ∈ (db.scope P.tenant).filter fun r => decide (p < r.globalPosition) :=
      List.mem_filter.2 ⟨hr', decide_eq_true (Nat.not_le.1 hp')⟩
    have hord := (db.pairwise_scope P.tenant).filter fun r => decide (p < r.globalPosition)
    rw [hsplit, List.cons_append] at hord hmem'
    rcases List.mem_cons.1 hmem' with rfl | hmem'
    · exact Nat.lt_irrefl _ hlt
    · exact Nat.lt_asymm hlt ((List.pairwise_cons.1 hord).1 r' hmem')

/-- The next event is passed. -/
theorem step (h : Ahead D P j db log p (env :: todo)) (hsub : log ⊆ log')
    (hpassed : ∀ r ∈ db.scope P.tenant, rowToEnvelope D r = .ok env → Passed P j log' r) :
    Ahead D P j db log' env.globalPosition todo := by
  obtain ⟨r, hscope, hr, hlt, hnext⟩ := h.head
  have hpos := (rowToEnvelope_stream hr).2.2
  refine ⟨?_, ?_, ?_⟩
  · rw [hpos]
    exact Db.position_le_seq (List.mem_filter.1 hscope).1
  · obtain ⟨now, rest, hsplit, hnow⟩ := h.page
    cases hnow with
    | @cons r₀ _ now _ hr₀ hnow =>
      have hpos₀ := (rowToEnvelope_stream hr₀).2.2
      have hord := (db.pairwise_scope P.tenant).filter fun r => decide (p < r.globalPosition)
      rw [hsplit, List.cons_append, List.pairwise_cons] at hord
      refine ⟨now, rest, ?_, hnow⟩
      -- the events after `env` are among those after `p`
      have hsub' : (db.scope P.tenant).filter
          (fun r => decide (env.globalPosition < r.globalPosition)) =
          ((db.scope P.tenant).filter fun r => decide (p < r.globalPosition)).filter
            fun r => decide (env.globalPosition < r.globalPosition) := by
        rw [List.filter_filter]
        refine List.filter_congr fun x _ => ?_
        rw [← Bool.decide_and]
        exact decide_eq_decide.2 ⟨fun hx => ⟨hx, by omega⟩, And.left⟩
      rw [hsub', hsplit, List.cons_append, List.filter_cons_of_neg (by simp [hpos₀]),
        List.filter_eq_self]
      exact fun x hx => decide_eq_true (hpos₀ ▸ hord.1 x hx)
  · intro r' hr' hp
    rw [hpos] at hp
    rcases Nat.lt_or_eq_of_le hp with hp | hp
    · exact (h.passed r' hr' (hnext r' hr' hp)).mono hsub
    · obtain rfl := Db.eq_of_position (List.mem_filter.1 hr').1 (List.mem_filter.1 hscope).1 hp
      exact hpassed r' hr' hr

end Ahead

/-! ### The invariant -/

/-- A runner with saved cursor `cursor` is in phase `x`. -/
structure Follows (P : Projector) (j : ℕ) (db : Db κ) (log : List Delivery) (cursor : ℕ)
    (x : Phase) : Prop where
  ahead : Ahead D P j db log (max cursor x.last) x.todo
  last : x.last = 0 ∨ cursor ≤ x.last
  loaded : ∀ c, x = .loaded c → c = cursor
  taken : ∀ last n env err todo, x = .capturing last n env err todo →
    P.inShard env.tenantID env.streamID.canonical = .ok true

namespace Follows

variable {D} {P : Projector} {j : ℕ} {db db' : Db κ} {log log' : List Delivery} {cursor : ℕ}
  {x : Phase}

theorem mono (h : Follows D P j db log cursor x) (hsub : log ⊆ log') :
    Follows D P j db log' cursor x :=
  { h with ahead := h.ahead.mono hsub }

theorem grown (h : Follows D P j db log cursor x) {rows : List (EventRow κ)}
    (hg : db.Grown db' rows) : Follows D P j db' log cursor x :=
  { h with ahead := h.ahead.grown hg }

/-- The call is over, or starts again. -/
theorem stop (h : Follows D P j db log cursor x) {x' : Phase} (hlast : x'.last = 0)
    (htodo : x'.todo = []) (hloaded : ∀ c, x' = .loaded c → c = cursor) :
    Follows D P j db log cursor x' where
  ahead := by
    rw [hlast, htodo, Nat.max_zero]
    exact h.ahead.back (Nat.le_max_left ..)
  last := Or.inl hlast
  loaded := hloaded
  taken last n env err todo hx := by simp [hx, Phase.todo] at htodo

/-- The loop is left. -/
theorem leave (h : Follows D P j db log cursor x) (n : ℕ) (err : Option Err) :
    Follows D P j db log cursor (.saving x.last n err) where
  ahead := h.ahead.back (Nat.le_refl _)
  last := h.last
  loaded _ hc := by cases hc
  taken _ _ _ _ _ hc := by cases hc

/-- The first event of the page is passed. -/
theorem step (h : Follows D P j db log cursor x) {env : Envelope} {todo : List Envelope}
    (htodo : x.todo = env :: todo) (hsub : log ⊆ log') (n : ℕ)
    (hpassed : ∀ r ∈ db.scope P.tenant, rowToEnvelope D r = .ok env → Passed P j log' r) :
    Follows D P j db log' cursor (.handling env.globalPosition n todo) := by
  have hah := h.ahead
  rw [htodo] at hah
  obtain ⟨r, -, hr, hlt, -⟩ := hah.head
  have hle : cursor ≤ env.globalPosition := by
    rw [(rowToEnvelope_stream hr).2.2]
    exact (Nat.le_max_left ..).trans hlt.le
  refine ⟨?_, Or.inr hle, (fun _ hc => by cases hc), fun _ _ _ _ _ hc => by cases hc⟩
  have hmax : max cursor env.globalPosition = env.globalPosition := Nat.max_eq_right hle
  exact hmax.symm ▸ hah.step hsub hpassed

end Follows

/-- The dead letter queue has the event for the projector. -/
def InProjectionDLQ (dlq : ProjectionDLQ) (name : String) (r : EventRow κ) : Prop :=
  ∃ row ∈ dlq.rows, row.projectionName = name ∧ row.tenantID = r.tenantID ∧
    row.globalPosition = r.globalPosition

theorem InProjectionDLQ.insert {dlq : ProjectionDLQ} {name : String} {r : EventRow κ}
    (h : InProjectionDLQ dlq name r) (name' : String) (env : Envelope) (err : String)
    (now : Time) : InProjectionDLQ (insertProjectionDLQ dlq name' env err now) name r := by
  obtain ⟨row, hrow, hkey⟩ := h
  simp only [insertProjectionDLQ]
  split
  · rename_i hins
    obtain ⟨-, hrows⟩ := Table.insert_eq_some_iff.1 hins
    exact ⟨row, hrows ▸ List.mem_append_left _ hrow, hkey⟩
  · -- the row may have been refreshed, which keeps its key
    refine ⟨_, List.mem_map_of_mem hrow, ?_⟩
    rwa [(ProjectionDLQRow.refresh_key _ row).1, (ProjectionDLQRow.refresh_key _ row).2.1,
      (ProjectionDLQRow.refresh_key _ row).2.2]

theorem inProjectionDLQ_self (dlq : ProjectionDLQ) (name : String) {env : Envelope}
    {r : EventRow κ} (ht : env.tenantID = r.tenantID) (hp : env.globalPosition = r.globalPosition)
    (err : String) (now : Time) :
    InProjectionDLQ (insertProjectionDLQ dlq name env err now) name r := by
  simp only [insertProjectionDLQ]
  split
  · rename_i hins
    obtain ⟨-, hrows⟩ := Table.insert_eq_some_iff.1 hins
    exact ⟨_, hrows ▸ List.mem_append_right _ List.mem_cons_self, rfl, ht, hp⟩
  · rename_i hins
    obtain ⟨row, hrow, hclash⟩ := Table.insert_eq_none_iff.1 hins
    refine ⟨_, List.mem_map_of_mem hrow, ?_⟩
    rw [(ProjectionDLQRow.refresh_key _ row).1, (ProjectionDLQRow.refresh_key _ row).2.1,
      (ProjectionDLQRow.refresh_key _ row).2.2]
    exact ⟨hclash.1, hclash.2.1.trans ht, hclash.2.2.trans hp⟩

namespace Delivery

/-- The runner that delivered. -/
def runner : Delivery → ℕ
  | .handled j _ | .captured j _ => j

/-- The position of the event. -/
def position : Delivery → ℕ
  | .handled _ p | .captured _ p => p

end Delivery

namespace ProjectionSys

variable {D} {lim : ℤ → Except Err ℕ} {P : ℕ → Projector} {s s' : ProjectionSys κ}

variable (D P s) in
/-- The invariant. -/
structure Inv : Prop where
  follows : ∀ j, Follows D (P j) j s.db s.log (s.cursor (P j)) (s.phase j)
  /-- What is delivered is an event of the runner's shard. -/
  owned : ∀ d ∈ s.log, ∃ r ∈ s.db.scope (P d.runner).tenant, r.globalPosition = d.position ∧
    (P d.runner).inShard r.tenantID r.streamID = .ok true
  /-- When an event is handled those before it have been passed. -/
  inOrder : ∀ j p pre post, s.log = pre ++ .handled j p :: post →
    ∀ r ∈ s.db.scope (P j).tenant, r.globalPosition < p → Passed (P j) j pre r
  stored : ∀ j p, .captured j p ∈ s.log → ∀ r ∈ s.db.events.rows, r.globalPosition = p →
    InProjectionDLQ s.dlq (P j).name r

namespace Inv

theorem empty : (ProjectionSys.empty : ProjectionSys κ).Inv D P where
  follows _ := {
    ahead := ⟨Nat.le_refl 0, ⟨[], [], rfl, .nil⟩, fun r hr => absurd hr List.not_mem_nil⟩
    last := Or.inl rfl
    loaded := fun _ hc => by cases hc
    taken := fun _ _ _ _ _ hc => by cases hc }
  owned _ hd := absurd hd List.not_mem_nil
  inOrder j p pre post h := by simp [ProjectionSys.empty] at h
  stored _ _ hd := absurd hd List.not_mem_nil

/-- The events delivered are old ones. -/
theorem position_le (h : s.Inv D P) {d : Delivery} (hd : d ∈ s.log) : d.position ≤ s.db.seq := by
  obtain ⟨r, hr, hp, -⟩ := h.owned d hd
  exact hp ▸ Db.position_le_seq (List.mem_filter.1 hr).1

/-- A delivered event is one of the runner's. -/
theorem own (h : s.Inv D P) {d : Delivery} (hd : d ∈ s.log) {r : EventRow κ}
    (hr : r ∈ s.db.events.rows) (hp : r.globalPosition = d.position) :
    r ∈ s.db.scope (P d.runner).tenant ∧
      (P d.runner).inShard r.tenantID r.streamID = .ok true := by
  obtain ⟨r₀, hr₀, hp₀, hin⟩ := h.owned d hd
  obtain rfl := Db.eq_of_position (List.mem_filter.1 hr₀).1 hr (hp₀.trans hp.symm)
  exact ⟨hr₀, hin⟩

theorem append (h : s.Inv D P) {db' : Db κ} {rows : List (EventRow κ)}
    (hg : s.db.Grown db' rows) : Inv D P { s with db := db' } where
  follows j := (h.follows j).grown hg
  owned d hd := by
    obtain ⟨r, hr, hrest⟩ := h.owned d hd
    refine ⟨r, ?_, hrest⟩
    rw [Db.scope, hg.events, List.filter_append]
    exact List.mem_append_left _ hr
  inOrder j p pre post hlog r hr hlt := by
    have hold : p ≤ s.db.seq := h.position_le (d := .handled j p)
      (hlog ▸ List.mem_append_right _ List.mem_cons_self)
    rw [Db.scope, hg.events, List.filter_append, List.mem_append] at hr
    rcases hr with hr | hr
    · exact h.inOrder j p pre post hlog r hr hlt
    · have := hg.fresh r (List.mem_filter.1 hr).1
      omega
  stored j p hd r hr hp := by
    have hold : p ≤ s.db.seq := h.position_le (d := .captured j p) hd
    rw [hg.events, List.mem_append] at hr
    rcases hr with hr | hr
    · exact h.stored j p hd r hr hp
    · have := hg.fresh r hr
      omega

/-- One runner moves on, and nothing else changes. -/
theorem setPhase (h : s.Inv D P) {j : ℕ} {x : Phase}
    (hx : Follows D (P j) j s.db s.log (s.cursor (P j)) x) : (s.setPhase j x).Inv D P :=
  { h with
    follows := fun i => by
      by_cases hi : i = j
      · subst hi
        simp only [ProjectionSys.setPhase, Function.update_self]
        exact hx
      · simp only [ProjectionSys.setPhase, Function.update_of_ne hi]
        exact h.follows i }

/-- The next event of a page is delivered. -/
theorem deliver (h : s.Inv D P) {j : ℕ} {d : Delivery} {env : Envelope} {todo : List Envelope}
    (dlq' : ProjectionDLQ) (htodo : (s.phase j).todo = env :: todo)
    (hd : d = .handled j env.globalPosition ∨ d = .captured j env.globalPosition)
    (hin : (P j).inShard env.tenantID env.streamID.canonical = .ok true)
    (hkeep : ∀ name (r : EventRow κ), InProjectionDLQ s.dlq name r → InProjectionDLQ dlq' name r)
    (hnew : ∀ r : EventRow κ, d = .captured j r.globalPosition → r ∈ s.db.events.rows →
      InProjectionDLQ dlq' (P j).name r) :
    Inv D P { s with dlq := dlq', log := s.log ++ [d] } := by
  have hah := (h.follows j).ahead
  rw [htodo] at hah
  obtain ⟨r₀, hr₀, henv, hlt, hnext⟩ := hah.head
  obtain ⟨ht, hc, hp⟩ := rowToEnvelope_stream henv
  refine ⟨fun i => (h.follows i).mono (List.subset_append_left ..), ?_, ?_, ?_⟩
  · intro d' hd'
    rcases List.mem_append.1 hd' with hd' | hd'
    · exact h.owned d' hd'
    · obtain rfl := List.mem_singleton.1 hd'
      rw [ht, hc] at hin
      rcases hd with rfl | rfl
      · exact ⟨r₀, hr₀, hp.symm, hin⟩
      · exact ⟨r₀, hr₀, hp.symm, hin⟩
  · intro i p pre post hlog r hr hrp
    rcases split_append hlog with ⟨post', hlog⟩ | ⟨a, rfl, ha⟩
    · exact h.inOrder i p pre post' hlog r hr hrp
    · -- the new entry: everything up to `p` had been passed before
      have hlen := congrArg List.length ha
      simp only [List.length_cons, List.length_nil, List.length_append] at hlen
      obtain rfl : a = [] := List.eq_nil_of_length_eq_zero (by omega)
      obtain ⟨rfl, -⟩ := List.cons.inj ha
      rcases hd with hd | hd
      · obtain ⟨rfl, rfl⟩ := Delivery.handled.inj hd
        rw [List.append_nil]
        exact hah.passed r hr (hnext r hr (hp ▸ hrp))
      · cases hd
  · intro i p hd' r hr hrp
    rcases List.mem_append.1 hd' with hd' | hd'
    · exact hkeep _ _ (h.stored i p hd' r hr hrp)
    · obtain rfl := List.mem_singleton.1 hd'
      rcases hd with hd | hd
      · cases hd
      · obtain ⟨rfl, -⟩ := Delivery.captured.inj hd
        exact hnew r (hrp ▸ rfl) hr

/-- A delivered event is passed. -/
theorem passed_of_mem {j : ℕ} {log : List Delivery} {env : Envelope} {r : EventRow κ}
    (henv : rowToEnvelope D r = .ok env)
    (hin : (P j).inShard env.tenantID env.streamID.canonical = .ok true)
    (hd : .handled j env.globalPosition ∈ log ∨ .captured j env.globalPosition ∈ log) :
    Passed (P j) j log r := by
  obtain ⟨ht, hc, hp⟩ := rowToEnvelope_stream henv
  rw [ht, hc] at hin
  rw [hp] at hd
  exact Or.inr ⟨hin, hd⟩

theorem save (hkeys : ∀ i j, (P i).name = (P j).name → (P i).tenant = (P j).tenant → i = j)
    (h : s.Inv D P) {j last n : ℕ} {err : Option Err} (hp : s.phase j = .saving last n err)
    (hpos : 0 < last) (r : Option (ℕ × Option Err)) :
    ((s.saveCheckpoint (P j) last).setPhase j (.idle r)).Inv D P :=
  { h with
    follows := fun i => by
      by_cases hi : i = j
      · subst hi
        have hf := h.follows i
        rw [hp] at hf
        have hle : s.cursor (P i) ≤ last := hf.last.resolve_left hpos.ne'
        simp only [ProjectionSys.setPhase, saveCheckpoint, cursor, Function.update_self]
        refine ⟨?_, Or.inl rfl, (fun _ hc => by cases hc), fun _ _ _ _ _ hc => by cases hc⟩
        exact hf.ahead.back (by simp only [Phase.last]; omega)
      · -- the others have their own rows
        have hne : ((P i).name, (P i).tenant) ≠ ((P j).name, (P j).tenant) := fun he =>
          hi (hkeys i j (Prod.mk.inj he).1 (Prod.mk.inj he).2)
        simp only [ProjectionSys.setPhase, saveCheckpoint, cursor, Function.update_of_ne hi,
          Function.update_of_ne hne]
        exact h.follows i }

theorem step (hkeys : ∀ i j, (P i).name = (P j).name → (P i).tenant = (P j).tenant → i = j)
    (h : s.Inv D P) (hm : s.Moves D lim P s') : s'.Inv D P := by
  cases hm with
  | append hg => exact h.append hg
  | stop j r => exact h.setPhase ((h.follows j).stop rfl rfl fun _ hc => by cases hc)
  | load j =>
    exact h.setPhase ((h.follows j).stop rfl rfl fun _ hc => (Phase.loaded.inj hc).symm)
  | @read j cursor todo hp hread =>
    have hf := h.follows j
    rw [hp] at hf
    obtain rfl := hf.loaded cursor rfl
    have hah := hf.ahead
    simp only [Phase.last, Phase.todo, Nat.max_zero] at hah
    exact h.setPhase ⟨(Nat.max_zero _).symm ▸ hah.read hread, Or.inl rfl,
      (fun _ hc => by cases hc), fun _ _ _ _ _ hc => by cases hc⟩
  | @skip j last n env todo hp hin =>
    refine h.setPhase ((h.follows j).step (congrArg Phase.todo hp) (List.Subset.refl _) n ?_)
    intro r _ henv
    obtain ⟨ht, hc, -⟩ := rowToEnvelope_stream henv
    exact Or.inl (by rw [← ht, ← hc, hin])
  | @handle j last n env todo hp hin =>
    have htodo : (s.phase j).todo = env :: todo := congrArg Phase.todo hp
    have hinv := h.deliver (d := .handled j env.globalPosition) s.dlq htodo
      (Or.inl rfl) hin (fun _ _ hr => hr) (fun _ hd => by cases hd)
    refine hinv.setPhase (x := .handling env.globalPosition (n + 1) todo) ?_
    exact (h.follows j).step htodo (List.subset_append_left ..) (n + 1) fun r _ henv =>
      passed_of_mem henv hin (Or.inl (List.mem_append_right _ List.mem_cons_self))
  | @refuse j last n env todo err hp hin =>
    have hf := h.follows j
    rw [hp] at hf
    refine h.setPhase ⟨hf.ahead, hf.last, (fun _ hc => by cases hc), ?_⟩
    intro _ _ _ _ _ hc
    obtain ⟨-, -, rfl, -⟩ := Phase.capturing.inj hc
    exact hin
  | leave j n err => exact h.setPhase ((h.follows j).leave n err)
  | @capture j last n env err todo x now hp hx =>
    have htodo : (s.phase j).todo = env :: todo := congrArg Phase.todo hp
    have hlast : (s.phase j).last = last := congrArg Phase.last hp
    have hin := (h.follows j).taken last n env err todo hp
    have hmem : Delivery.captured j env.globalPosition ∈
        s.log ++ [.captured j env.globalPosition] :=
      List.mem_append_right _ List.mem_cons_self
    have hinv := h.deliver (d := .captured j env.globalPosition)
      (insertProjectionDLQ s.dlq (P j).name env err now) htodo (Or.inr rfl) hin
      (fun _ _ hr => hr.insert ..) (fun r hd hr => ?_)
    · refine hinv.setPhase (x := x) ?_
      rcases hx with rfl | ⟨e, rfl⟩
      · exact (h.follows j).step htodo (List.subset_append_left ..) n fun r _ henv =>
          passed_of_mem henv hin (Or.inr hmem)
      · exact hlast ▸ ((h.follows j).leave n e).mono (List.subset_append_left ..)
    · -- the event at the position is the one of the page
      have hah := (h.follows j).ahead
      rw [htodo] at hah
      obtain ⟨r₀, hr₀, henv, -, -⟩ := hah.head
      obtain ⟨ht, -, hp₀⟩ := rowToEnvelope_stream henv
      have hpr : env.globalPosition = r.globalPosition := (Delivery.captured.inj hd).2
      obtain rfl := Db.eq_of_position hr (List.mem_filter.1 hr₀).1 (hpr.symm.trans hp₀)
      exact inProjectionDLQ_self _ _ ht hpr _ _
  | save r hp hpos => exact h.save hkeys hp hpos r

/-- No step moves a cursor back. -/
theorem cursor_le (hkeys : ∀ i j, (P i).name = (P j).name → (P i).tenant = (P j).tenant → i = j)
    (h : s.Inv D P) (hm : s.Moves D lim P s') (i : ℕ) : s.cursor (P i) ≤ s'.cursor (P i) := by
  cases hm with
  | @save j last n err r hp hpos =>
    by_cases hi : i = j
    · subst hi
      have hf := h.follows i
      rw [hp] at hf
      have hle : s.cursor (P i) ≤ last := hf.last.resolve_left hpos.ne'
      simpa only [ProjectionSys.setPhase, saveCheckpoint, cursor, Function.update_self] using hle
    · have hne : ((P i).name, (P i).tenant) ≠ ((P j).name, (P j).tenant) := fun he =>
        hi (hkeys i j (Prod.mk.inj he).1 (Prod.mk.inj he).2)
      simp only [ProjectionSys.setPhase, saveCheckpoint, cursor, Function.update_of_ne hne,
        Nat.le_refl]
  | _ => exact Nat.le_refl _

end Inv

variable {H : Hasher}

theorem inv_of_reachable
    (hkeys : ∀ i j, (P i).name = (P j).name → (P i).tenant = (P j).tenant → i = j)
    (h : (projectionSystem D H lim P).Reachable s) : s.Inv D P := by
  refine h.invariant ?_ fun s l s' _ hi hst => hi.step hkeys (moves_of_next hst)
  rintro _ rfl
  exact .empty

end ProjectionSys

/-! ### The shards -/

/-- As many distinct shards as there are leave none out. -/
theorem exists_of_distinct {total : ℕ} {f : ℕ → ℤ} (hf : ∀ i < total, 0 ≤ f i ∧ f i < total)
    (hinj : ∀ i < total, ∀ j < total, f i = f j → i = j) {k : ℕ} (hk : k < total) :
    ∃ i < total, f i = k := by
  let g : Fin total → Fin total := fun i => ⟨(f i).toNat, by have := hf i i.2; omega⟩
  have hg : Function.Injective g := by
    intro i j hij
    have hval : (f i).toNat = (f j).toNat := congrArg Fin.val hij
    have hi := hf i i.2
    have hj := hf j j.2
    exact Fin.ext (hinj i i.2 j j.2 (by omega))
  obtain ⟨i, hi⟩ := Finite.surjective_of_injective hg ⟨k, hk⟩
  have hval : (f i).toNat = k := congrArg Fin.val hi
  have := hf i i.2
  exact ⟨i, i.2, by omega⟩

namespace Projector

variable {P : Projector} {tenantID canonical : String}

theorem inShard_eq_true (hpos : 0 < P.totalShards) :
    P.inShard tenantID canonical = .ok true ↔
      ∃ sh, streamShard (tenantID ++ "|" ++ canonical) P.totalShards = .ok sh ∧
        (sh.toNat : ℤ) = P.shard := by
  rw [inShard, if_neg (by omega), writtenShard_eq]
  cases streamShard (tenantID ++ "|" ++ canonical) P.totalShards with
  | error e => simp [Except.map]
  | ok sh => simp [Except.map]

theorem exists_streamShard {b : Bool} (hpos : 0 < P.totalShards)
    (h : P.inShard tenantID canonical = .ok b) :
    ∃ sh, streamShard (tenantID ++ "|" ++ canonical) P.totalShards = .ok sh := by
  rw [inShard, if_neg (by omega), writtenShard_eq] at h
  cases hsh : streamShard (tenantID ++ "|" ++ canonical) P.totalShards with
  | error e => simp [hsh, Except.map] at h
  | ok sh => exact ⟨sh, rfl⟩

theorem shard_of_validate (h : P.validate = .ok ()) (hpos : 0 < P.totalShards) :
    0 ≤ P.shard ∧ P.shard < P.totalShards := by
  unfold validate at h
  split_ifs at h with h₁ h₂
  omega

end Projector

variable {D} {H : Hasher} {lim : ℤ → Except Err ℕ} {P : ℕ → Projector} {s : ProjectionSys κ}

/-- Runners for two shards, and more that `validate` refuses. -/
def Projector.two (j : ℕ) : Projector where
  name := String.ofList (List.replicate (j + 1) 'p')
  tenant := ""
  batchSize := 10
  shard := j
  totalShards := 2
  dlqOnFailure := true

theorem Projector.two_name {i j : ℕ} (h : (two i).name = (two j).name) : i = j := by
  have := congrArg (fun s => s.toList.length) h
  simpa [two] using this

end EventStore
