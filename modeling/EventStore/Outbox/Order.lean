import EventStore.Outbox.History

/-!
# Delivery in the order of the stream

In the default mode of the drain (`AutoResumeAfterDLQ` false and `MaxAttempts` positive) `Publish`
is called on the events of a stream in the order of their versions, for every interleaving of
appends, runners (one per shard), crashes and operator actions.

The order rests on three things together.  The query gives out only the head of a stream, the
lowest version that is unpublished and below the threshold of attempts; a row that has reached the
threshold is out of its sight, and is covered by the keys a runner holds as halted, which it reads
once per Run and adds to.  A runner that has read a page works on it while the table changes, but
nobody else calls `Publish` on the streams of its shard.

## Main definitions

* `OutboxSys.Ready` : it is the turn of the event.
* `OutboxSys.Deployed` : the steps of the deployment.
* `OutboxSys.Ordered`, `Runner.View.Sound` : the invariants of the tables and of a runner.

## Main results

* `publish_in_order` : **`Publish` is called in the order of the stream**, and only the version that
  was published last is delivered again.
-/

namespace EventStore

variable {κ : Columns}

/-! ### The invariant of the tables and the history -/

/-- It is the turn of the event: every lower version is closed, and no higher version has been
tried. -/
structure OutboxSys.Ready (s : OutboxSys κ) (r : EventRow κ) : Prop where
  lower : ∀ r' ∈ s.events, r'.SameStream r → r'.version < r.version → s.store.Closed r'
  higher : ∀ r' ∈ s.events, r'.SameStream r → r.version < r'.version → ¬ CalledIn s.log r'.rowKey

/-- Every call of the history came when the lower versions were settled, and no higher version had
been tried. -/
def TriedInOrder (events : List (EventRow κ)) (log : List LogEntry) : Prop :=
  ∀ pre e post, log = pre ++ e :: post → e.isCall = true → ∀ r ∈ events, r.rowKey = e.key →
    (∀ r' ∈ events, r'.SameStream r → r'.version < r.version → SettledIn pre r'.rowKey) ∧
      ∀ r' ∈ events, r'.SameStream r → r.version < r'.version → ¬ CalledIn pre r'.rowKey

/-- The invariant of the tables and the history. -/
structure OutboxSys.Ordered (s : OutboxSys κ) : Prop where
  wf : s.store.db.Wf
  named : ∀ r ∈ s.events, ∃ sid : StreamID, r.inStream sid = true
  known : ∀ e ∈ s.log, ∃ r ∈ s.events, r.rowKey = e.key
  settled : ∀ r ∈ s.events, s.store.Closed r → SettledIn s.log r.rowKey
  /-- The table shows that a version has been tried: all lower ones are closed. -/
  lower : ∀ r ∈ s.events, CalledIn s.log r.rowKey →
    ∀ r' ∈ s.events, r'.SameStream r → r'.version < r.version → s.store.Closed r'
  inOrder : TriedInOrder s.events s.log

namespace OutboxSys.Ordered

variable {s s' : OutboxSys κ}

theorem empty : (OutboxSys.empty : OutboxSys κ).Ordered where
  wf := .empty
  named _ hr := absurd hr List.not_mem_nil
  known := by simp [OutboxSys.empty]
  settled _ hr := absurd hr List.not_mem_nil
  lower _ hr := absurd hr List.not_mem_nil
  inOrder pre e post h := by simp [OutboxSys.empty] at h

/-- An event that is unpublished comes before all that have been tried. -/
theorem not_called (h : s.Ordered) {r r' : EventRow κ} (hr : r ∈ s.events) (hr' : r' ∈ s.events)
    (hs : r.SameStream r') (hv : r.version < r'.version) (hc : ¬ s.store.Closed r) :
    ¬ CalledIn s.log r'.rowKey :=
  fun hcall => hc (h.lower r' hr' hcall r hr hs hv)

/-- A step that is not an append, and calls `Publish` only on events whose turn it is. -/
theorem effect {calls fails : String → Prop} (h : s.Ordered) (he : s.Effect s' calls fails)
    (hready : ∀ e, s'.log = s.log ++ [e] → e.isCall = true → ∀ r ∈ s.events, r.rowKey = e.key →
      s.Ready r) : s'.Ordered := by
  obtain ⟨es, hlog, hes⟩ := he.log
  -- a row that has been tried has lower versions closed
  have hlower : ∀ r ∈ s.events, CalledIn s'.log r.rowKey → ∀ r' ∈ s.events, r'.SameStream r →
      r'.version < r.version → s.store.Closed r' := by
    intro r hr hcall r' hr' hs hv
    rw [hlog, called_append] at hcall
    rcases hcall with hcall | hcall
    · exact h.lower r hr hcall r' hr' hs hv
    · obtain ⟨e, hmem, hc, hk⟩ := called_iff.1 hcall
      obtain ⟨hone, -⟩ := (hes e hmem).2 hc
      exact (hready e (hone ▸ hlog) hc r hr hk.symm).lower r' hr' hs hv
  constructor
  · rw [he.db]
    exact h.wf
  · rw [he.events_eq]
    exact h.named
  · rw [he.events_eq, hlog]
    intro e hmem
    rcases List.mem_append.1 hmem with hmem | hmem
    · exact h.known e hmem
    · exact (hes e hmem).1
  · rw [he.events_eq]
    intro r hr hc
    rcases he.settled r hr hc with hc | hset
    · rw [hlog]
      exact (h.settled r hr hc).append es
    · exact hset
  · rw [he.events_eq]
    intro r hr hcall r' hr' hs hv
    exact he.closed r' (hlower r hr hcall r' hr' hs hv)
  · rw [he.events_eq, hlog]
    intro pre e post hsplit hc r hr hk
    rcases split_append hsplit with ⟨post', hold⟩ | ⟨a, hpre, hnew⟩
    · exact h.inOrder pre e post' hold hc r hr hk
    · -- the call is the one entry of the step
      have hmem : e ∈ es := hnew ▸ List.mem_append_right a List.mem_cons_self
      obtain ⟨hone, -⟩ := (hes e hmem).2 hc
      have ha : a = [] := by
        rw [hone] at hnew
        cases a with
        | nil => rfl
        | cons x a => simp at hnew
      rw [ha, List.append_nil] at hpre
      have hturn := hready e (hone ▸ hlog) hc r hr hk
      rw [hpre]
      exact ⟨fun r' hr' hs hv => h.settled r' hr' (hturn.lower r' hr' hs hv), hturn.higher⟩

/-- The keys of the history are of old events. -/
theorem not_called_of_fresh (h : s.Ordered) {s' : OutboxDb κ} {rows : List (EventRow κ)}
    (hg : s.store.Grown s' rows) {r : EventRow κ} (hr : r ∈ rows) {log : List LogEntry}
    (hlog : ∀ e ∈ log, e ∈ s.log) : ¬ CalledIn log r.rowKey := by
  intro hcall
  obtain ⟨e, he, -, hk⟩ := called_iff.1 hcall
  obtain ⟨r₀, hr₀, hk₀⟩ := h.known e (hlog e he)
  exact hg.fresh r₀ hr₀ r hr (hk₀.trans hk)

/-- An append. -/
theorem append (h : s.Ordered) {store : OutboxDb κ} {rows : List (EventRow κ)}
    (hg : s.store.Grown store rows) (hwf : store.db.Wf) :
    OutboxSys.Ordered { s with store := store } := by
  constructor
  · exact hwf
  · intro r hr
    exact (hg.mem_events.1 hr).elim (h.named r) (hg.named r)
  · intro e he
    obtain ⟨r, hr, hk⟩ := h.known e he
    exact ⟨r, hg.mem_events.2 (Or.inl hr), hk⟩
  · intro r hr hc
    rcases hg.mem_events.1 hr with hr | hr
    · exact h.settled r hr ((hg.closed_iff hr).1 hc)
    · exact absurd hc (hg.not_closed hr)
  · intro r hr hcall r' hr' hs hv
    rcases hg.mem_events.1 hr with hr | hr
    · rcases hg.mem_events.1 hr' with hr' | hr'
      · exact (hg.closed_iff hr').2 (h.lower r hr hcall r' hr' hs hv)
      · -- a new event has a higher version
        have := hg.later hwf hr hr' ⟨hs.1.symm, hs.2.symm⟩
        omega
    · exact absurd hcall (h.not_called_of_fresh hg hr fun _ he => he)
  · intro pre e post hsplit hc r hr hk
    have hpre : ∀ x ∈ pre, x ∈ s.log := fun x hx => by
      have : s.log = pre ++ e :: post := hsplit
      rw [this]
      exact List.mem_append_left _ hx
    have hmem : e ∈ s.log := by
      have : s.log = pre ++ e :: post := hsplit
      rw [this]
      exact List.mem_append_right _ List.mem_cons_self
    rcases hg.mem_events.1 hr with hr | hr
    · obtain ⟨hlow, hhigh⟩ := h.inOrder pre e post hsplit hc r hr hk
      refine ⟨fun r' hr' hs hv => ?_, fun r' hr' hs hv => ?_⟩
      · rcases hg.mem_events.1 hr' with hr' | hr'
        · exact hlow r' hr' hs hv
        · have := hg.later hwf hr hr' ⟨hs.1.symm, hs.2.symm⟩
          omega
      · rcases hg.mem_events.1 hr' with hr' | hr'
        · exact hhigh r' hr' hs hv
        · exact h.not_called_of_fresh hg hr' hpre
    · obtain ⟨r₀, hr₀, hk₀⟩ := h.known e hmem
      exact absurd (hk₀.trans hk.symm) (hg.fresh r₀ hr₀ r hr)

end OutboxSys.Ordered

/-! ### The invariant of a runner -/

/-- Runner `i` of `total`: its shard is `i`, or it is the only one. -/
def Drain.Own (total i : ℕ) (d : Drain) : Prop :=
  d.totalShards = total ∧ if total = 0 then i = 0 else d.shard = i

instance (total i : ℕ) (d : Drain) : Decidable (d.Own total i) :=
  inferInstanceAs (Decidable (_ ∧ ite _ _ _))

/-- A key is of one shard. -/
theorem Drain.Own.eq {total i j : ℕ} {d d' : Drain} {key : String} (h : d.Own total i)
    (h' : d'.Own total j) (hk : d.inShard key = .ok true) (hk' : d'.inShard key = .ok true) :
    i = j := by
  obtain ⟨ht, hi⟩ := h
  obtain ⟨ht', hj⟩ := h'
  by_cases h0 : total = 0
  · rw [if_pos h0] at hi hj
    rw [hi, hj]
  · rw [if_neg h0] at hi hj
    have hpos : (0 : ℤ) < total := by omega
    rw [inShard, ht, if_pos hpos] at hk
    rw [inShard, ht', if_pos hpos] at hk'
    cases hsh : streamShard key total with
    | error e =>
      rw [hsh] at hk
      cases hk
    | ok sh =>
      rw [hsh] at hk hk'
      have h₁ := of_decide_eq_true (Except.ok.inj hk)
      have h₂ := of_decide_eq_true (Except.ok.inj hk')
      omega

/-- What a runner in a Run knows: the keys it will skip, the row it has called `Publish` on, and
the rows it has not come to. -/
structure Runner.View where
  drain : Drain
  halted : List String
  current : Option PendingRow
  rest : List PendingRow

/-- The view of a runner.  After its last attempt the stream of a row is as good as halted. -/
def Runner.view : Runner → Option Runner.View
  | .idle | .cleaning _ => none
  | .reading d m => some ⟨d, m.halted, none, []⟩
  | .rows d m rest => some ⟨d, m.halted, none, rest⟩
  | .sent d m row rest | .refused d m row _ rest => some ⟨d, m.halted, some row, rest⟩
  | .crossed d m row rest => some ⟨d, row.key :: m.halted, some row, rest⟩

/-- The row is of an event. -/
def PendingRow.Of (row : PendingRow) (r : EventRow κ) : Prop :=
  r.rowKey = row.rowKey ∧ r.streamKey = row.key

/-- The tenant is in the scope of the drain. -/
def Drain.Covers (d : Drain) (tenantID : String) : Prop := d.tenant = "" ∨ tenantID = d.tenant

/-- The invariant of runner `i`. -/
structure Runner.View.Sound (total i : ℕ) (v : Runner.View) (s : OutboxSys κ) : Prop where
  noResume : v.drain.autoResumeAfterDLQ = false
  limited : 0 < v.drain.maxAttempts
  own : v.drain.Own total i
  /-- The streams with a dead row are halted. -/
  paused : ∀ x ∈ s.store.joined, x.dead v.drain.maxAttempts = true →
    v.drain.Covers x.event.tenantID → v.drain.inShard x.event.streamKey = .ok true →
    x.event.streamKey ∈ v.halted
  current : ∀ row, v.current = some row →
    v.drain.inShard row.key = .ok true ∧ ∃ r ∈ s.events, row.Of r
  /-- It is the turn of every row that will be taken. -/
  rest : ∀ row ∈ v.rest, v.drain.inShard row.key = .ok true → row.key ∉ v.halted →
    ∃ r ∈ s.events, row.Of r ∧ s.Ready r
  distinct : v.rest.Pairwise fun a b => a.key ≠ b.key

namespace Runner.View.Sound

variable {total i : ℕ} {v v' : Runner.View} {s s' : OutboxSys κ} {calls fails : String → Prop}

/-- A step that is not an append keeps the invariant, if the runner halts the streams of its shard
that get an attempt more and is through with the rows of those that are called. -/
theorem effect (h : v.Sound total i s) (he : s.Effect s' calls fails) (hd : v'.drain = v.drain)
    (hhalt : v.halted ⊆ v'.halted) (hrest : v'.rest.Sublist v.rest)
    (hcur : ∀ row, v'.current = some row →
      v.drain.inShard row.key = .ok true ∧ ∃ r ∈ s.events, row.Of r)
    (hcalls : ∀ k, calls k → ∀ row ∈ v'.rest, v.drain.inShard row.key = .ok true → row.key ≠ k)
    (hfails : ∀ k, fails k → v.drain.inShard k = .ok true → k ∈ v'.halted) :
    v'.Sound total i s' where
  noResume := hd ▸ h.noResume
  limited := hd ▸ h.limited
  own := hd ▸ h.own
  paused x hx hdead hcov hsh := by
    rw [hd] at hdead hcov hsh
    rcases he.dead _ x hx hdead with ⟨y, hy, hev, hydead⟩ | hf
    · rw [← hev] at hcov hsh ⊢
      exact hhalt (h.paused y hy hydead hcov hsh)
    · exact hfails _ hf hsh
  current := by
    rw [hd, he.events_eq]
    exact hcur
  rest row hrow hsh hnot := by
    rw [hd] at hsh
    obtain ⟨r, hr, hof, hready⟩ := h.rest row (hrest.subset hrow) hsh fun hm => hnot (hhalt hm)
    rw [he.events_eq]
    refine ⟨r, hr, hof, ⟨?_, ?_⟩⟩
    · rw [he.events_eq]
      exact fun r' hr' hs hv => he.closed r' (hready.lower r' hr' hs hv)
    · rw [he.events_eq]
      intro r' hr' hs hv hcall
      obtain ⟨es, hlog, hes⟩ := he.log
      rw [hlog, called_append] at hcall
      rcases hcall with hcall | hcall
      · exact hready.higher r' hr' hs hv hcall
      · -- a new call on the stream of the row
        obtain ⟨e, hmem, hc, hk⟩ := called_iff.1 hcall
        have hcalled := ((hes e hmem).2 hc).2 r' hr' hk.symm
        refine hcalls _ hcalled row hrow hsh ?_
        rw [hs.streamKey_eq, hof.2]
  distinct := h.distinct.sublist hrest

/-- A runner is through with rows. -/
theorem drop {halted : List String} {current current' : Option PendingRow}
    {rest rest' : List PendingRow} {d : Drain}
    (h : (⟨d, halted, current, rest⟩ : View).Sound total i s) (hrest : rest'.Sublist rest)
    (hcur : ∀ row, current' = some row → current = some row) :
    (⟨d, halted, current', rest'⟩ : View).Sound total i s := by
  have he : s.Effect s (fun _ => False) fun _ => False :=
    .of_store_eq rfl (List.append_nil _).symm (by simp)
  exact h.effect he rfl (List.Subset.refl _) hrest (fun row hr => h.current row (hcur row hr))
    (fun _ hk => hk.elim) fun _ hk => hk.elim

/-- A step of somebody else. -/
theorem frame (h : v.Sound total i s) (he : s.Effect s' calls fails)
    (hcalls : ∀ k, calls k → v.drain.inShard k ≠ .ok true)
    (hfails : ∀ k, fails k → v.drain.inShard k ≠ .ok true) : v.Sound total i s' :=
  h.effect he rfl (List.Subset.refl _) (.refl _) h.current
    (fun k hk _ _ hsh hr => hcalls k hk (hr ▸ hsh)) fun k hk hsh => absurd hsh (hfails k hk)

/-- An append. -/
theorem append (h : v.Sound total i s) (ho : s.Ordered) {store : OutboxDb κ}
    {rows : List (EventRow κ)} (hg : s.store.Grown store rows) (hwf : store.db.Wf) :
    v.Sound total i { s with store := store } where
  noResume := h.noResume
  limited := h.limited
  own := h.own
  paused x hx hdead hcov hsh := by
    rcases (hg.joined x).1 hx with hx | ⟨r, hr, rfl⟩
    · exact h.paused x hx hdead hcov hsh
    · -- a new row has no attempts
      have hle : v.drain.maxAttempts ≤ 0 := of_decide_eq_true (Bool.and_eq_true_iff.1 hdead).2
      have := h.limited
      omega
  current row hrow := by
    obtain ⟨hsh, r, hr, hof⟩ := h.current row hrow
    exact ⟨hsh, r, hg.mem_events.2 (Or.inl hr), hof⟩
  rest row hrow hsh hnot := by
    obtain ⟨r, hr, hof, hready⟩ := h.rest row hrow hsh hnot
    refine ⟨r, hg.mem_events.2 (Or.inl hr), hof, ⟨?_, ?_⟩⟩
    · intro r' hr' hs hv
      rcases hg.mem_events.1 hr' with hr' | hr'
      · exact (hg.closed_iff hr').2 (hready.lower r' hr' hs hv)
      · have := hg.later hwf hr hr' ⟨hs.1.symm, hs.2.symm⟩
        omega
    · intro r' hr' hs hv
      rcases hg.mem_events.1 hr' with hr' | hr'
      · exact hready.higher r' hr' hs hv
      · exact ho.not_called_of_fresh hg hr' fun _ he => he
  distinct := h.distinct

end Runner.View.Sound

/-! ### The start of a Run, and a page -/

theorem safeMaxAttempts_of_pos {n : ℕ} (h : 0 < n) : safeMaxAttempts n = n :=
  if_neg (Nat.ne_of_gt h)

/-- Rows that are converted keep their event. -/
theorem PendingRow.of_toPendingRow {Q : OutboxDialect κ} {s : OutboxDb κ} {x : Pending κ}
    {row : PendingRow} (hx : x ∈ s.joined) (h : Q.toPendingRow x = .ok row) : row.Of x.event := by
  obtain ⟨sid, -, -, hc, hsid, ht, hg, -, -⟩ := OutboxDialect.toPendingRow_eq_ok h
  constructor
  · rw [← OutboxDb.key_eq_rowKey hx, OutboxEntry.key, PendingRow.rowKey, ht, hg]
  · rw [EventRow.streamKey, PendingRow.key, hsid, hc, ht, OutboxDb.tenantID_of_mem hx]

/-- Rows of different streams have different keys. -/
theorem PendingRow.key_ne {Q : OutboxDialect κ} {s : OutboxDb κ} {x y : Pending κ}
    {a b : PendingRow} (hx : x ∈ s.joined) (hy : y ∈ s.joined) (ha : Q.toPendingRow x = .ok a)
    (hb : Q.toPendingRow y = .ok b) (h : x.sameStream y = false) : a.key ≠ b.key := by
  intro hk
  obtain ⟨sid, hv, ht, hc, -⟩ := OutboxDialect.toPendingRow_eq_ok ha
  obtain ⟨sid', hv', ht', hc', -⟩ := OutboxDialect.toPendingRow_eq_ok hb
  rw [← (of_toPendingRow hx ha).2, ← (of_toPendingRow hy hb).2, EventRow.streamKey,
    EventRow.streamKey, ← ht, ← hc, ← ht', ← hc'] at hk
  obtain rfl := rebuildKey_inj hv hv' hk
  rw [Pending.sameStream, ← ht, ← hc, ← ht', ← hc'] at h
  simp at h

/-- So do the rows of a page. -/
theorem PendingRow.pairwise_key {Q : OutboxDialect κ} {s : OutboxDb κ} {xs : List (Pending κ)}
    {rows : List PendingRow} (hmem : ∀ x ∈ xs, x ∈ s.joined)
    (hreads : List.Forall₂ (fun x row => Q.toPendingRow x = .ok row) xs rows)
    (hapart : xs.Pairwise fun x y => x.sameStream y = false) :
    rows.Pairwise fun a b => a.key ≠ b.key := by
  have hall : List.Forall₂ (fun x row => x ∈ s.joined ∧ Q.toPendingRow x = .ok row) xs rows :=
    List.forall₂_and_left (p := (· ∈ s.joined)) _ _ |>.2 ⟨hmem, hreads⟩
  refine pairwise_of_forall₂ (fun x y a b hxa hyb hxy => ?_) hall hapart
  exact PendingRow.key_ne hxa.1 hyb.1 hxa.2 hyb.2 hxy

namespace Runner.View.Sound

variable {total i : ℕ} {d : Drain} {s : OutboxSys κ}

/-- A Run starts with the streams of dead rows halted. -/
theorem start (hres : d.autoResumeAfterDLQ = false) (hmax : 0 < d.maxAttempts)
    (hown : d.Own total i) : (⟨d, (d.start s.store).halted, none, []⟩ : View).Sound total i s where
  noResume := hres
  limited := hmax
  own := hown
  paused x hx hdead hcov _ := by
    have hq : d.quarantines = true := by simp [Drain.quarantines, hres, hmax]
    have hkey : x.event.streamKey = quarantineKey x.entry.tenantID x.event.streamID := by
      rw [OutboxDb.tenantID_of_mem hx, EventRow.streamKey]
    simp only [Drain.start, hq, if_true, hkey]
    refine List.mem_map_of_mem (f := fun r : String × String => quarantineKey r.1 r.2)
      (List.mem_map_of_mem (List.mem_filter.2 ⟨hx, ?_⟩))
    rw [safeMaxAttempts_of_pos hmax, hdead, Bool.true_and, Bool.or_eq_true, beq_iff_eq, beq_iff_eq,
      OutboxDb.tenantID_of_mem hx]
    exact hcov
  current _ h := by cases h
  rest _ h := absurd h List.not_mem_nil
  distinct := .nil

/-- The heads of streams that are not halted are the events whose turn it is. -/
theorem ready_of_mem_page {Q : OutboxDialect κ} {halted : List String} {n : ℕ} {now : Time}
    {x : Pending κ} (h : (⟨d, halted, none, []⟩ : View).Sound total i s) (ho : s.Ordered)
    (hx : x ∈ Q.page d.tenant n d.maxAttempts now s.store)
    (hsh : d.inShard x.event.streamKey = .ok true) (hnot : x.event.streamKey ∉ halted) :
    s.Ready x.event := by
  obtain ⟨hvis, hlive, -, hmin⟩ := OutboxDialect.mem_heads.1 (OutboxDialect.page_sublist.subset hx)
  have hxj := OutboxDialect.visible_sublist.subset hvis
  have hcov : d.Covers x.event.tenantID := by
    by_cases ht : d.tenant = ""
    · exact Or.inl ht
    · exact Or.inr (OutboxDb.tenantID_of_mem hxj ▸ OutboxDialect.tenantID_of_mem_page hx ht)
  constructor
  · -- an unpublished row of a lower version is live or dead
    intro r hr hs hv o ho' hk
    obtain ⟨y, hy, rfl⟩ := OutboxDb.exists_joined ho'
    have hey : y.event = r :=
      Db.eq_of_rowKey (OutboxDb.mem_joined.1 hy).2.1 hr ((OutboxDb.key_eq_rowKey hy).symm.trans hk)
    have hsame : y.sameStream x = true := by
      rw [Pending.sameStream, hey, hs.1, hs.2, beq_self_eq_true, beq_self_eq_true]
      rfl
    by_contra hpub
    rw [Option.not_isSome_iff_eq_none] at hpub
    by_cases hatt : y.entry.attempts < d.maxAttempts
    · have := hmin y hy hsame (by simp [Pending.live, hpub, hatt])
      rw [hey] at this
      omega
    · refine hnot ?_
      rw [← hs.streamKey_eq, ← hey]
      have hkey : y.event.streamKey = x.event.streamKey := by rw [hey, hs.streamKey_eq]
      refine h.paused y hy (by simp [Pending.dead, hpub]; omega) ?_ (hkey ▸ hsh)
      rw [hey, hs.1]
      exact hcov
  · -- the row is unpublished, so no higher version has been tried
    intro r hr hs hv
    refine ho.not_called (OutboxDb.mem_joined.1 hxj).2.1 hr ⟨hs.1.symm, hs.2.symm⟩ hv fun hc => ?_
    have hsome := hc x.entry (OutboxDb.mem_joined.1 hxj).1 (OutboxDb.key_eq_rowKey hxj)
    rw [Pending.live, Bool.and_eq_true, Option.isNone_iff_eq_none] at hlive
    rw [hlive.1] at hsome
    cases hsome

/-- A page is read. -/
theorem page {Q : OutboxDialect κ} {halted : List String} {now : Time} {found : List PendingRow}
    (h : (⟨d, halted, none, []⟩ : View).Sound total i s) (ho : s.Ordered)
    (hp : Q.pendingOutbox d.tenant d.pageSize d.maxAttempts now s.store = .ok found) :
    (⟨d, halted, none, found⟩ : View).Sound total i s := by
  obtain ⟨n, -, hall⟩ := OutboxDialect.pendingOutbox_eq_ok hp
  rw [safeMaxAttempts_of_pos h.limited] at hall
  have hmem : ∀ x ∈ Q.page d.tenant n d.maxAttempts now s.store, x ∈ s.store.joined := fun x hx =>
    OutboxDialect.heads_sublist.subset (OutboxDialect.page_sublist.subset hx)
  refine ⟨h.noResume, h.limited, h.own, h.paused, h.current, fun row hrow hsh hnot => ?_, ?_⟩
  · obtain ⟨x, hx, hxr⟩ := exists_of_forall₂_right hall hrow
    have hof := PendingRow.of_toPendingRow (hmem x hx) hxr
    rw [← hof.2] at hsh hnot
    exact ⟨x.event, (OutboxDb.mem_joined.1 (hmem x hx)).2.1, hof,
      h.ready_of_mem_page ho hx hsh hnot⟩
  · exact PendingRow.pairwise_key hmem hall OutboxDialect.pairwise_page

end Runner.View.Sound

/-! ### Steps and runs -/

/-- The invariant. -/
structure OutboxSys.Inv (total : ℕ) (s : OutboxSys κ) : Prop where
  ordered : s.Ordered
  runner : ∀ i v, (s.runner i).view = some v → v.Sound total i s
  /-- What is about to be marked has been published. -/
  sent : ∀ i d m row rest, s.runner i = .sent d m row rest → .published row.rowKey ∈ s.log

theorem Drain.takes_eq_ok_true {d : Drain} {m : Drain.Memory} {row : PendingRow}
    (h : d.takes m row = .ok true) : d.inShard row.key = .ok true ∧ row.key ∉ m.halted := by
  rw [takes] at h
  cases hsh : d.inShard row.key with
  | error e =>
    rw [hsh] at h
    cases h
  | ok own =>
    rw [hsh] at h
    have hb := Except.ok.inj h
    rw [Bool.and_eq_true, Bool.not_eq_true', Bool.or_eq_false_iff] at hb
    refine ⟨by rw [hb.1], fun hm => ?_⟩
    rw [List.contains_iff_mem.2 hm] at hb
    cases hb.2.2

theorem Drain.halted_afterFailure {d : Drain} {m : Drain.Memory} {row : PendingRow}
    (h : d.autoResumeAfterDLQ = false) : (d.afterFailure m row).halted = row.key :: m.halted := by
  unfold afterFailure
  rw [h]
  split_ifs <;> first | rfl | contradiction

namespace OutboxSys.Inv

variable {total : ℕ} {s s' : OutboxSys κ} {calls fails : String → Prop}

theorem mem_log (he : s.Effect s' calls fails) {e : LogEntry} (h : e ∈ s.log) : e ∈ s'.log := by
  obtain ⟨es, hlog, -⟩ := he.log
  rw [hlog]
  exact List.mem_append_left _ h

/-- A step of no runner. -/
theorem quiet (h : s.Inv total) (he : s.Effect s' (fun _ => False) fun _ => False)
    (hrun : s'.runner = s.runner) : s'.Inv total where
  ordered := h.ordered.effect he fun _ hlog hc r hr hk => absurd hk (he.rowKey_ne hlog hc r hr)
  runner i v hv := by
    rw [hrun] at hv
    exact (h.runner i v hv).frame he (fun _ hk => hk.elim) fun _ hk => hk.elim
  sent i d m row rest hi := by
    rw [hrun] at hi
    exact mem_log he (h.sent i d m row rest hi)

/-- A step of runner `i`, which keeps to its shard. -/
theorem moved {i : ℕ} {r' : Runner} (h : s.Inv total) (he : s.Effect s' calls fails)
    (hrun : s'.runner = Function.update s.runner i r')
    (hready : ∀ e, s'.log = s.log ++ [e] → e.isCall = true → ∀ r ∈ s.events, r.rowKey = e.key →
      s.Ready r)
    (hshard : ∀ k, calls k ∨ fails k → ∃ d : Drain, d.Own total i ∧ d.inShard k = .ok true)
    (hown : ∀ v, r'.view = some v → v.Sound total i s')
    (hsent : ∀ d m row rest, r' = .sent d m row rest → .published row.rowKey ∈ s'.log) :
    s'.Inv total where
  ordered := h.ordered.effect he hready
  runner j v hv := by
    rw [hrun] at hv
    by_cases hj : j = i
    · subst hj
      rw [Function.update_self] at hv
      exact hown v hv
    · rw [Function.update_of_ne hj] at hv
      have hsound := h.runner j v hv
      have hout : ∀ k, calls k ∨ fails k → v.drain.inShard k ≠ .ok true := fun k hk hsh => by
        obtain ⟨d, hd, hdk⟩ := hshard k hk
        exact hj (hsound.own.eq hd hsh hdk)
      exact hsound.frame he (fun k hk => hout k (Or.inl hk)) fun k hk => hout k (Or.inr hk)
  sent j d m row rest hj := by
    rw [hrun] at hj
    by_cases hji : j = i
    · subst hji
      rw [Function.update_self] at hj
      exact hsent d m row rest hj
    · rw [Function.update_of_ne hji] at hj
      exact mem_log he (h.sent j d m row rest hj)

section Drain

variable {i : ℕ} {d : Drain} {m : Drain.Memory} {row : PendingRow} {rest : List PendingRow}
  {r' : Runner}

/-- A step of a runner that does not call `Publish` and records no failure. -/
theorem settles (h : s.Inv total) (he : s.Effect s' (fun _ => False) fun _ => False)
    (hrun : s'.runner = Function.update s.runner i r')
    (hown : ∀ v, r'.view = some v → v.Sound total i s)
    (hsent : ∀ d m row rest, r' ≠ .sent d m row rest) : s'.Inv total :=
  h.moved he hrun (fun _ hlog hc r hr hk => absurd hk (he.rowKey_ne hlog hc r hr))
    (fun _ hk => by simp at hk)
    (fun v hv => (hown v hv).frame he (fun _ hk => hk.elim) fun _ hk => hk.elim)
    fun d m row rest hr => absurd hr (hsent d m row rest)

/-- A step of a runner that leaves the tables alone and does not call `Publish`. -/
theorem looks {es : List LogEntry} (h : s.Inv total) (hstore : s'.store = s.store)
    (hlog : s'.log = s.log ++ es) (hrun : s'.runner = Function.update s.runner i r')
    (hes : ∀ e ∈ es, es = [e] ∧ (∃ r ∈ s.events, r.rowKey = e.key) ∧ e.isCall = false)
    (hown : ∀ v, r'.view = some v → v.Sound total i s)
    (hsent : ∀ d m row rest, r' ≠ .sent d m row rest) : s'.Inv total := by
  refine h.settles (.of_store_eq hstore hlog fun e he => ⟨(hes e he).1, (hes e he).2.1, ?_⟩) hrun
    hown hsent
  intro hc
  rw [(hes e he).2.2] at hc
  cases hc

/-- `Publish` is called on a row of the page. -/
theorem call {e : LogEntry} (h : s.Inv total) (hi : s.runner i = .rows d m (row :: rest))
    (htakes : d.takes m row = .ok true) (hcall : e.isCall = true) (hkey : e.key = row.rowKey)
    (hview : r'.view = some ⟨d, m.halted, some row, rest⟩)
    (hsent : ∀ d m row rest, r' = .sent d m row rest → e = .published row.rowKey) :
    OutboxSys.Inv total
      { s with runner := Function.update s.runner i r', log := s.log ++ [e] } := by
  obtain ⟨hsh, hnot⟩ := Drain.takes_eq_ok_true htakes
  have hsound := h.runner i ⟨d, m.halted, none, row :: rest⟩ (by rw [hi]; rfl)
  obtain ⟨r, hr, hof, hready⟩ := hsound.rest row List.mem_cons_self hsh hnot
  -- the key of the entry is of no other event
  have heq : ∀ r₁ ∈ s.events, r₁.rowKey = e.key → r₁ = r := fun r₁ hr₁ hk =>
    Db.eq_of_rowKey hr₁ hr (hk.trans (hkey.trans hof.1.symm))
  have he : s.Effect { s with runner := Function.update s.runner i r', log := s.log ++ [e] }
      (fun k => k = row.key) fun _ => False := by
    refine .of_store_eq rfl rfl fun e' he' => ?_
    obtain rfl := List.mem_singleton.1 he'
    refine ⟨rfl, ⟨r, hr, hof.1.trans hkey.symm⟩, fun _ r₁ hr₁ hk => ?_⟩
    rw [heq r₁ hr₁ hk, hof.2]
  refine h.moved he rfl ?_ ?_ ?_ ?_
  · intro e' hlog _ r₁ hr₁ hk
    obtain rfl : e = e' := by simpa using hlog
    rw [heq r₁ hr₁ hk]
    exact hready
  · rintro k (rfl | hk)
    · exact ⟨d, hsound.own, hsh⟩
    · exact hk.elim
  · intro v hv
    obtain rfl : ⟨d, m.halted, some row, rest⟩ = v := Option.some.inj (hview.symm.trans hv)
    refine hsound.effect he rfl (List.Subset.refl _) (List.sublist_cons_self _ _) ?_ ?_ ?_
    · intro row' hrow
      obtain rfl := Option.some.inj hrow
      exact ⟨hsh, r, hr, hof⟩
    · rintro k rfl row' hrow' -
      exact ((List.pairwise_cons.1 hsound.distinct).1 row' hrow').symm
    · exact fun k hk => hk.elim
  · intro d m row rest hr'
    rw [hsent d m row rest hr']
    exact List.mem_append_right _ List.mem_cons_self

/-- A publication is recorded. -/
theorem marked {Q : OutboxDialect κ} {now : Time} (h : s.Inv total)
    (hi : s.runner i = .sent d m row rest) (hview : r'.view = some ⟨d, m.halted, none, rest⟩)
    (hsent : ∀ d m row rest, r' ≠ .sent d m row rest) :
    OutboxSys.Inv total
      { store := Drain.recordPublish Q now row s.store
        runner := Function.update s.runner i r'
        log := s.log ++ [] } := by
  have hsound := h.runner i ⟨d, m.halted, some row, rest⟩ (by rw [hi]; rfl)
  have hpub : .published row.rowKey ∈ s.log := h.sent i d m row rest hi
  have he : s.Effect
      { store := Drain.recordPublish Q now row s.store
        runner := Function.update s.runner i r'
        log := s.log ++ [] } (fun _ => False) fun _ => False := by
    refine .update ?_ rfl rfl (by simp) (fun _ _ _ _ => rfl) (fun o _ ho _ => ?_)
      fun _ _ _ => Or.inl (le_refl _)
    · exact fun _ => rfl
    have hk : o.key = row.rowKey := OutboxEntry.hasKey_iff.1 ho
    exact Or.inr (Or.inl (List.mem_append_left _ (hk ▸ hpub)))
  refine h.settles he rfl (fun v hv => ?_) hsent
  obtain rfl : ⟨d, m.halted, none, rest⟩ = v := Option.some.inj (hview.symm.trans hv)
  exact hsound.drop (.refl _) nofun

/-- A failure is recorded. -/
theorem failed {Q : OutboxDialect κ} {now : Time} {errMsg : Bytes} {crossing : Bool}
    {current : Option PendingRow} (h : s.Inv total)
    (hi : s.runner i = .refused d m row errMsg rest)
    (hview : r'.view = some ⟨d, row.key :: m.halted, current, rest⟩)
    (hcur : ∀ row', current = some row' → row' = row)
    (hsent : ∀ d m row rest, r' ≠ .sent d m row rest) :
    OutboxSys.Inv total
      { store := d.recordFailure Q now row errMsg s.store
        runner := Function.update s.runner i r'
        log := s.log ++ [.failed row.rowKey crossing] } := by
  have hsound := h.runner i ⟨d, m.halted, some row, rest⟩ (by rw [hi]; rfl)
  obtain ⟨hsh, r, hr, hof⟩ := hsound.current row rfl
  have he : s.Effect
      { store := d.recordFailure Q now row errMsg s.store
        runner := Function.update s.runner i r'
        log := s.log ++ [.failed row.rowKey crossing] } (fun _ => False) fun k => k = row.key := by
    refine .update ?_ rfl rfl (fun e he => ?_)
      (fun _ _ _ hs => hs) (fun _ _ _ hs => Or.inl hs) fun x hx hp => Or.inr ?_
    · exact fun _ => rfl
    · obtain rfl := List.mem_singleton.1 he
      exact ⟨⟨r, hr, hof.1⟩, rfl⟩
    · -- the entry is the one of the row
      have hk : x.entry.key = row.rowKey := OutboxEntry.hasKey_iff.1 hp
      have hxr : x.event = r := Db.eq_of_rowKey (OutboxDb.mem_joined.1 hx).2.1 hr
        ((OutboxDb.key_eq_rowKey hx).symm.trans (hk.trans hof.1.symm))
      rw [hxr, hof.2]
  refine h.moved he rfl (fun e hlog hc => ?_) ?_ (fun v hv => ?_)
    fun d m row rest hr' => absurd hr' (hsent d m row rest)
  · obtain rfl : LogEntry.failed row.rowKey crossing = e := by simpa using hlog
    cases hc
  · rintro k (hk | rfl)
    · exact hk.elim
    · exact ⟨d, hsound.own, hsh⟩
  · obtain rfl : ⟨d, row.key :: m.halted, current, rest⟩ = v :=
      Option.some.inj (hview.symm.trans hv)
    refine hsound.effect he rfl (List.subset_cons_self _ _) (.refl _) (fun row' hrow => ?_)
      (fun k hk => hk.elim) ?_
    · rw [hcur row' hrow]
      exact ⟨hsh, r, hr, hof⟩
    · rintro k rfl -
      exact List.mem_cons_self

end Drain

end OutboxSys.Inv

/-- The deployment: appends are not ahead of their stream, and runner `i` of `total` drains its
shard in the default mode. -/
def OutboxSys.Deployed (total : ℕ) (s : OutboxSys κ) : OutboxStep → Prop
  | .append _ p => p.expectedVersion ≤ (s.store.db.stream p.streamID).length
  | .drain i (.begin d) =>
    d.autoResumeAfterDLQ = false ∧ 0 < d.maxAttempts ∧ d.Own total i
  | _ => True

section Run

variable {total : ℕ} {s s' : OutboxSys κ} {Q : OutboxDialect κ} {H : Hasher}

/-- A step of a runner keeps the invariant. -/
theorem OutboxSys.Inv.drain {i : ℕ} {l : RunnerStep} {r' : Runner} {store : OutboxDb κ}
    {es : List LogEntry} (h : s.Inv total) (hok : s.Deployed total (.drain i l))
    (hm : (s.runner i).Moves Q s.store l r' store es) :
    OutboxSys.Inv total ⟨store, Function.update s.runner i r', s.log ++ es⟩ := by
  generalize hi : s.runner i = r at hm
  cases hm with
  | begin _ =>
    obtain ⟨hres, hmax, hown⟩ := hok
    refine h.looks rfl rfl rfl (by simp) (fun v hv => ?_) (by simp)
    cases hv
    exact .start hres hmax hown
  | @page d m now found hp =>
    have hsound := h.runner i ⟨d, m.halted, none, []⟩ (by rw [hi]; rfl)
    refine h.looks rfl rfl rfl (by simp) (fun v hv => ?_) (by simp)
    cases hv
    exact hsound.page h.ordered hp
  | @skip d m row rest outcome _ =>
    have hsound := h.runner i ⟨d, m.halted, none, row :: rest⟩ (by rw [hi]; rfl)
    refine h.looks rfl rfl rfl (by simp) (fun v hv => ?_) (by simp)
    cases hv
    exact hsound.drop (List.sublist_cons_self _ _) nofun
  | sent htakes =>
    refine h.call hi htakes rfl rfl rfl fun d m row rest hr => ?_
    cases hr
    rfl
  | refused htakes => exact h.call hi htakes rfl rfl rfl (by simp)
  | marked => exact h.marked hi rfl (by simp)
  | @failed d m row rest errMsg now _ =>
    have hsound := h.runner i ⟨d, m.halted, some row, rest⟩ (by rw [hi]; rfl)
    have hview : (Runner.rows d (d.afterFailure m row) rest).view =
        some ⟨d, row.key :: m.halted, none, rest⟩ := by
      rw [Runner.view, Drain.halted_afterFailure hsound.noResume]
    exact h.failed hi hview nofun (by simp)
  | crossed _ => exact h.failed hi rfl (fun row' hr => (Option.some.inj hr).symm) (by simp)
  | @onDLQ d m row rest =>
    have hsound := h.runner i ⟨d, row.key :: m.halted, some row, rest⟩ (by rw [hi]; rfl)
    obtain ⟨-, r, hr, hof⟩ := hsound.current row rfl
    refine h.looks rfl rfl rfl (fun e he => ?_) (fun v hv => ?_) (by simp)
    · obtain rfl := List.mem_singleton.1 he
      exact ⟨rfl, ⟨r, hr, hof.1⟩, rfl⟩
    · rw [Runner.view, Drain.halted_afterFailure hsound.noResume] at hv
      cases hv
      exact hsound.drop (.refl _) nofun
  | @again d m _ =>
    have hsound := h.runner i ⟨d, m.halted, none, []⟩ (by rw [hi]; rfl)
    refine h.looks rfl rfl rfl (by simp) (fun v hv => ?_) (by simp)
    cases hv
    exact hsound
  | through _ => exact h.looks rfl rfl rfl (by simp) (fun v hv => by cases hv) (by simp)
  | cleanup _ =>
    refine h.settles (.delete rfl rfl (OutboxSys.logged_keys (fun _ => rfl) fun _ => rfl) ?_) rfl
      (fun v hv => by cases hv) (by simp)
    exact fun _ => OutboxDialect.isSome_of_expired
  | @lost d m row rest =>
    have hsound := h.runner i ⟨d, row.key :: m.halted, some row, rest⟩ (by rw [hi]; rfl)
    obtain ⟨-, r, hr, hof⟩ := hsound.current row rfl
    refine h.looks rfl rfl rfl (fun e he => ?_) (fun v hv => by cases hv) (by simp)
    obtain rfl := List.mem_singleton.1 he
    exact ⟨rfl, ⟨r, hr, hof.1⟩, rfl⟩
  | stop _ => exact h.looks rfl rfl rfl (by simp) (fun v hv => by cases hv) (by simp)

/-- So does every step of the system. -/
theorem OutboxSys.Inv.next {l : OutboxStep} (h : s.Inv total) (hok : s.Deployed total l)
    (hn : s.next Q H l = some s') : s'.Inv total := by
  cases l with
  | append E p =>
    obtain rfl := Option.some.inj hn
    obtain ⟨rows, hg⟩ :=
      OutboxDb.append_grown (s := s.store) (D := Q.base) (H := H) (E := E) (p := p)
    have hwf := h.ordered.wf.append (D := Q.base) (H := H) (E := E) hok
    exact ⟨h.ordered.append hg hwf, fun i v hv => (h.runner i v hv).append h.ordered hg hwf,
      h.sent⟩
  | drain i l =>
    obtain ⟨⟨r', store, es⟩, hstep, rfl⟩ := Option.map_eq_some_iff.1 hn
    exact h.drain hok (Runner.moves_of_step hstep)
  | replay t gp =>
    obtain rfl := Option.some.inj hn
    refine h.quiet (.update ?_ rfl rfl (logged_keys (fun _ => rfl) fun _ => rfl)
      (fun _ _ _ hs => hs) (fun _ _ _ hs => Or.inl hs) fun _ _ _ => Or.inl (Nat.zero_le _)) rfl
    exact fun _ => rfl
  | abandon now t gp =>
    obtain rfl := Option.some.inj hn
    refine h.quiet (.update ?_ rfl rfl (logged_keys (fun _ => rfl) fun _ => rfl)
      (fun _ _ _ _ => rfl) (fun o ho hp _ => Or.inr (Or.inr ?_))
      fun _ _ _ => Or.inl (le_refl _)) rfl
    · exact fun _ => rfl
    · exact List.mem_append_right _
        (List.mem_map_of_mem (OutboxDb.mem_keys.2 ⟨o, ho, hp, rfl⟩))
  | replayAll t n =>
    obtain rfl := Option.some.inj hn
    refine h.quiet (.update ?_ rfl rfl (logged_keys (fun _ => rfl) fun _ => rfl)
      (fun _ _ _ hs => hs) (fun _ _ _ hs => Or.inl hs) fun _ _ _ => Or.inl (Nat.zero_le _)) rfl
    exact fun _ => rfl
  | cleanup t olderThan =>
    obtain rfl := Option.some.inj hn
    exact h.quiet (.delete rfl rfl (logged_keys (fun _ => rfl) fun _ => rfl)
      fun _ ho => OutboxDialect.isSome_of_expired ho) rfl

theorem inv_of_deployed
    (h : ((outboxSystem Q H).restrict (OutboxSys.Deployed total)).Reachable s) : s.Inv total := by
  refine h.invariant (fun s hs => ?_) fun s l s' _ hinv hstep => hinv.next hstep.1 hstep.2
  obtain rfl : s = .empty := hs
  exact ⟨.empty, fun _ _ hv => (Option.some_ne_none _ hv.symm).elim,
    fun _ _ _ _ _ hr => (Runner.noConfusion hr)⟩

/-- **`Publish` is called in the order of the stream.**  In every run of appends, runners, crashes
and operators, whenever `Publish` has been called on an event, every lower version of its stream had
been published successfully or abandoned by then, and no higher version had been published; an event
that had been published before is the one of its stream that was published last. -/
theorem publish_in_order
    (h : ((outboxSystem Q H).restrict (OutboxSys.Deployed total)).Reachable s)
    {pre post : List LogEntry} {e : LogEntry} (hlog : s.log = pre ++ e :: post)
    (hcall : e.isCall = true) :
    ∃ r ∈ s.events, r.rowKey = e.key ∧
      (∀ v, 1 ≤ v → v < r.version → ∃ r' ∈ s.events, r'.SameStream r ∧ r'.version = v ∧
        (.published r'.rowKey ∈ pre ∨ .abandoned r'.rowKey ∈ pre)) ∧
      (∀ r' ∈ s.events, r'.SameStream r → r.version < r'.version → .published r'.rowKey ∉ pre) ∧
      ∀ a b, pre = a ++ .published r.rowKey :: b → ∀ r' ∈ s.events, r'.SameStream r →
        .published r'.rowKey ∈ b → r' = r := by
  have ho := (inv_of_deployed h).ordered
  obtain ⟨r, hr, hk⟩ := ho.known e (hlog ▸ List.mem_append_right _ List.mem_cons_self)
  obtain ⟨hlow, hhigh⟩ := ho.inOrder pre e post hlog hcall r hr hk
  refine ⟨r, hr, hk, fun v h₁ hv => ?_, fun r' hr' hs hv hp => hhigh r' hr' hs hv (Or.inl hp), ?_⟩
  · -- the stream is dense
    obtain ⟨sid, hsid⟩ := ho.named r hr
    have hmem : r ∈ s.store.db.stream sid := List.mem_filter.2 ⟨hr, hsid⟩
    have hle := ((ho.wf.dense sid).version_le hmem).2
    obtain ⟨r', hr', hv'⟩ := (ho.wf.dense sid).exists_version h₁ (by omega)
    have hsame : r'.SameStream r := by
      have h₁ := (Db.mem_stream.1 hr').2
      have h₂ := (Db.mem_stream.1 hmem).2
      exact ⟨h₁.1.trans h₂.1.symm, h₁.2.trans h₂.2.symm⟩
    exact ⟨r', (Db.mem_stream.1 hr').1, hsame, hv',
      hlow r' (Db.mem_stream.1 hr').1 hsame (by omega)⟩
  · intro a b hpre r' hr' hs hb
    have hin : .published r'.rowKey ∈ pre := by
      rw [hpre]
      exact List.mem_append_right _ (List.mem_cons_of_mem _ hb)
    rcases Nat.lt_trichotomy r'.version r.version with hv | hv | hv
    · -- the lower version was published after the higher one
      obtain ⟨b₁, b₂, rfl⟩ := List.append_of_mem hb
      have hsplit : s.log = (a ++ .published r.rowKey :: b₁) ++ .published r'.rowKey ::
          (b₂ ++ e :: post) := by
        rw [hlog, hpre]
        simp
      refine absurd (Or.inl ?_)
        ((ho.inOrder _ _ _ hsplit rfl r' hr' rfl).2 r hr ⟨hs.1.symm, hs.2.symm⟩ hv)
      exact List.mem_append_right _ List.mem_cons_self
    · exact Table.eq_of_clash EventRow.Clash.symm hr' hr ⟨hs.1, Or.inl ⟨hs.2, hv⟩⟩
    · exact absurd (Or.inl hin) (hhigh r' hr' hs hv)

end Run

/-! ### A run -/

instance (total : ℕ) (s : OutboxSys κ) : (l : OutboxStep) → Decidable (s.Deployed total l)
  | .append _ p => inferInstanceAs (Decidable (p.expectedVersion ≤ _))
  | .drain _ (.begin _) => inferInstanceAs (Decidable (_ ∧ _ ∧ _))
  | .drain _ (.page _) | .drain _ (.row _) | .drain _ (.mark _) | .drain _ .onDLQ
  | .drain _ .endPage | .drain _ (.cleanup _) | .drain _ .crash | .replay .. | .abandon ..
  | .replayAll .. | .cleanup .. => inferInstanceAs (Decidable True)

/-- The steps of the deployment, computed. -/
def OutboxSys.deploy (Q : OutboxDialect κ) (H : Hasher) (total : ℕ) (s : OutboxSys κ)
    (l : OutboxStep) : Option (OutboxSys κ) :=
  if s.Deployed total l then s.next Q H l else none

/-- A crash after the first publication, which is repeated; the second event fails and is
abandoned; then the third one is published. -/
theorem publish_in_order_abandoned :
    ∃ s : OutboxSys (Sqlite.columns Bytes),
      ((outboxSystem Sqlite.smallOutbox .small).restrict (OutboxSys.Deployed 0)).Reachable s ∧
      s.log = [.published ("acme", 1), .published ("acme", 1), .refused ("acme", 2),
        .failed ("acme", 2) true, .onDLQ ("acme", 2), .abandoned ("acme", 2),
        .published ("acme", 3)] ∧
      ∃ r ∈ s.events, r.rowKey = ("acme", 3) ∧
        (∀ v, 1 ≤ v → v < r.version → ∃ r' ∈ s.events, r'.SameStream r ∧ r'.version = v ∧
          (.published r'.rowKey ∈ s.log ∨ .abandoned r'.rowKey ∈ s.log)) := by
  let run : List OutboxStep :=
    [.append .calm (.bare 0 "a"), .append .calm (.bare 1 "b"), .append .calm (.bare 2 "c"),
      .drain 0 (.begin .single), .drain 0 (.page 0), .drain 0 (.row none), .drain 0 .crash,
      .drain 0 (.begin .single), .drain 0 (.page 0), .drain 0 (.row none), .drain 0 (.mark 0),
      .drain 0 .endPage, .drain 0 (.page 0), .drain 0 (.row (some [])), .drain 0 (.mark 0),
      .drain 0 .onDLQ, .drain 0 .crash, .abandon 0 "acme" 2,
      .drain 0 (.begin .single), .drain 0 (.page 0), .drain 0 (.row none)]
  have hexec : (TS.exec (OutboxSys.deploy Sqlite.smallOutbox .small 0) .empty run).map
      OutboxSys.log = some [.published ("acme", 1), .published ("acme", 1), .refused ("acme", 2),
        .failed ("acme", 2) true, .onDLQ ("acme", 2), .abandoned ("acme", 2),
        .published ("acme", 3)] := by decide +kernel
  obtain ⟨s, hs, hlog⟩ := Option.map_eq_some_iff.1 hexec
  have hr : ((outboxSystem Sqlite.smallOutbox .small).restrict
      (OutboxSys.Deployed 0)).Reachable s := by
    refine TS.Reachable.exec (.init rfl) (fun l _ s s' hf => ?_) hs
    unfold OutboxSys.deploy at hf
    split_ifs at hf with hd
    exact ⟨hd, hf⟩
  have hlast : s.log = s.log.dropLast ++ .published ("acme", 3) :: [] := by
    rw [hlog]
    rfl
  obtain ⟨r, hmem, hk, hlow, -⟩ := publish_in_order hr hlast rfl
  refine ⟨s, hr, hlog, r, hmem, hk, fun v h₁ hv => ?_⟩
  obtain ⟨r', hr', hsame, hv', hset⟩ := hlow v h₁ hv
  exact ⟨r', hr', hsame, hv', hset.imp (List.mem_of_mem_dropLast) List.mem_of_mem_dropLast⟩

end EventStore
