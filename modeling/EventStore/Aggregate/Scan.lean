import EventStore.Aggregate.Apart

/-!
# What a rebuild has read

A rebuild reads the events in its scope in the order of their positions, a page at a time, and
other clients append while it does.  New events get positions above all that were drawn, so the
events up to the cursor are never added to: `Scanned` splits the events in scope into those seen
and the rest, and says that the map holds, for every stream, the fold of its events seen
(`Runtime.rebuilt`).

* `Scanned.page` : a page moves events from the rest to those seen.
* `Scanned.appended` : an append adds to the rest.
* `Scanned.last` : after an empty page the map holds the fold of every stream in scope.
-/

namespace EventStore

variable {K S C E : Type} {κ : Columns} {D : Dialect κ} {H : Hasher}

namespace Runtime

variable (rt : Runtime K S C E)

/-- A stored event, added to what a rebuild holds for its stream. -/
def scanRow (acc : Option (S × ℕ)) (r : EventRow κ) : Option (S × ℕ) :=
  match rt.codec.decode r.typeURL (UInt32.ofInt r.schemaVersion) r.payload with
  | .error _ => acc
  | .ok evt => some (rt.decider.evolve (acc.getD (rt.decider.initial, 0)).1 evt, r.version)

/-- What a rebuild holds for a stream of which it has seen the given rows. -/
def rebuilt (rows : List (EventRow κ)) : Option (S × ℕ) := rows.foldl rt.scanRow none

theorem rebuilt_concat (rows : List (EventRow κ)) (r : EventRow κ) :
    rt.rebuilt (rows ++ [r]) = rt.scanRow (rt.rebuilt rows) r := by
  rw [rebuilt, rebuilt, List.foldl_append]
  rfl

/-- The map holds every stream as far as its rows were seen. -/
def Covers (seen : List (EventRow κ)) (streams : List (String × StreamState S)) : Prop :=
  ∀ sid : StreamID, sid.Valid → streams.lookup (rebuildKey sid.tenant sid.canonical) =
    (rt.rebuilt (seen.filter (EventRow.inStream sid))).map fun x => ⟨x.1, x.2, sid⟩

variable {rt}

/-- One event of a page adds its row. -/
theorem Covers.scanEvent {seen : List (EventRow κ)} {sc : Scan S} {r : EventRow κ}
    {env : Envelope} (h : rt.Covers seen sc.streams) (henv : rowToEnvelope D r = .ok env) :
    rt.Covers (seen ++ [r]) (rt.scanEvent sc env).streams := by
  obtain ⟨sid₀, _, _, _, hsid, -, -, -, rfl⟩ := rowToEnvelope_eq_ok.1 henv
  obtain ⟨hv₀, ht, hc⟩ := parseCanonical_eq_ok hsid
  intro sid hv
  rw [List.filter_append]
  by_cases he : sid = sid₀
  · subst he
    have hin : r.inStream sid = true := EventRow.inStream_iff.2 (Prod.ext ht hc)
    rw [List.filter_cons_of_pos hin, List.filter_nil, rebuilt_concat, Runtime.scanEvent, scanRow]
    cases hdec : rt.codec.decode r.typeURL (UInt32.ofInt r.schemaVersion) r.payload with
    | error e => exact h sid hv
    | ok evt =>
      -- the event evolves the entry of its stream, or the initial state
      dsimp only
      rw [← ht, lookup_setKey_self, h sid hv]
      cases rt.rebuilt (seen.filter (EventRow.inStream sid)) <;> rfl
  · have hin : ¬ r.inStream sid = true := fun hin =>
      he (StreamID.eq_of_key_eq hv hv₀ ((EventRow.inStream_iff.1 hin).trans (Prod.ext ht hc).symm))
    have hne : rebuildKey sid.tenant sid.canonical ≠ rebuildKey r.tenantID sid₀.canonical :=
      fun hk => he (rebuildKey_inj hv hv₀ (ht ▸ hk))
    rw [List.filter_cons_of_neg hin, List.filter_nil, List.append_nil, ← h sid hv,
      Runtime.scanEvent]
    dsimp only
    split
    · rfl
    · exact lookup_setKey_ne hne

theorem scanEvent_cursor (sc : Scan S) (env : Envelope) :
    (rt.scanEvent sc env).cursor = max sc.cursor env.globalPosition := by
  have : (if sc.cursor < env.globalPosition then env.globalPosition else sc.cursor) =
      max sc.cursor env.globalPosition := by
    split_ifs <;> omega
  unfold Runtime.scanEvent
  dsimp only
  split <;> exact this

/-- A page adds its rows, and moves the cursor to the last of them. -/
theorem Covers.page {seen rows : List (EventRow κ)} {sc : Scan S} {envs : List Envelope}
    (h : rt.Covers seen sc.streams)
    (hread : List.Forall₂ (fun r e => rowToEnvelope D r = .ok e) rows envs) :
    rt.Covers (seen ++ rows) (envs.foldl rt.scanEvent sc).streams ∧
      (envs.foldl rt.scanEvent sc).cursor =
        (rows.map EventRow.globalPosition).foldl max sc.cursor := by
  induction hread generalizing seen sc with
  | nil => exact ⟨by rwa [List.append_nil], rfl⟩
  | @cons r env rows envs hr _ ih =>
    have hgp : env.globalPosition = r.globalPosition := by
      obtain ⟨_, _, _, _, -, -, -, -, rfl⟩ := rowToEnvelope_eq_ok.1 hr
      rfl
    have := ih (h.scanEvent hr)
    rw [List.append_assoc, List.singleton_append, scanEvent_cursor, hgp] at this
    exact this

/-- If all rows of a stream decode, what is held is at the version of the last. -/
theorem rebuilt_version {rows : List (EventRow κ)}
    (h : ∀ r ∈ rows, ∃ evt, rt.codec.decode r.typeURL (UInt32.ofInt r.schemaVersion) r.payload =
      .ok evt) : (rt.rebuilt rows).map Prod.snd = rows.getLast?.map EventRow.version := by
  induction rows using List.reverseRecOn with
  | nil => rfl
  | append_singleton rows r _ =>
    obtain ⟨evt, hevt⟩ := h r (List.mem_append_right _ List.mem_cons_self)
    rw [rebuilt_concat, scanRow, hevt, List.getLast?_concat]
    rfl

/-- If no row of a stream decodes, nothing is held. -/
theorem rebuilt_eq_none {rows : List (EventRow κ)}
    (h : ∀ r ∈ rows, ∃ e, rt.codec.decode r.typeURL (UInt32.ofInt r.schemaVersion) r.payload =
      .error e) : rt.rebuilt rows = none := by
  induction rows using List.reverseRecOn with
  | nil => rfl
  | append_singleton rows r ih =>
    obtain ⟨e, he⟩ := h r (List.mem_append_right _ List.mem_cons_self)
    rw [rebuilt_concat, scanRow, he]
    exact ih fun r' hr' => h r' (List.mem_append_left _ hr')

end Runtime

/-! ### Seen and not yet seen -/

theorem readPage_eq_ok {db : Db κ} {tenant : String} {cursor : ℕ} {envs : List Envelope} :
    readPage D db tenant cursor = .ok envs ↔
      List.Forall₂ (fun r e => rowToEnvelope D r = .ok e)
        (((db.scope tenant).filter fun r => decide (cursor < r.globalPosition)).take pageSize)
        envs :=
  readAll_scope_eq_ok

variable (D) in
/-- The events in scope are those seen, up to the cursor, and the rest; the map holds the fold of
those seen. -/
structure Scanned (rt : Runtime K S C E) (tenant : String) (db : Db κ) (sc : Scan S)
    (seen rest : List (EventRow κ)) : Prop where
  split : db.scope tenant = seen ++ rest
  seen_le : ∀ r ∈ seen, r.globalPosition ≤ sc.cursor
  lt_rest : ∀ r ∈ rest, sc.cursor < r.globalPosition
  cursor_le : sc.cursor ≤ db.seq
  readable : ∀ r ∈ seen, ∃ env, rowToEnvelope D r = .ok env
  covers : rt.Covers seen sc.streams

namespace Scanned

variable {rt : Runtime K S C E} {tenant : String} {db db' : Db κ} {sc : Scan S}
  {seen rest : List (EventRow κ)}

theorem start (h : db.Wf) : Scanned D rt tenant db ⟨0, []⟩ [] (db.scope tenant) where
  split := rfl
  seen_le _ hr := absurd hr List.not_mem_nil
  lt_rest r hr := h.position_pos r (List.mem_filter.1 hr).1
  cursor_le := Nat.zero_le _
  readable _ hr := absurd hr List.not_mem_nil
  covers _ _ := rfl

theorem of_events_eq (h : Scanned D rt tenant db sc seen rest) (he : db'.events = db.events)
    (hq : db.seq ≤ db'.seq) : Scanned D rt tenant db' sc seen rest :=
  { h with
    split := by rw [Db.scope, he]; exact h.split
    cursor_le := h.cursor_le.trans hq }

/-- What is appended is not yet seen. -/
theorem appended (h : Scanned D rt tenant db sc seen rest) {en : Engine} {p : AppendParams}
    {rows : List (EventRow κ)} (ha : Appended D H en p db db' rows) :
    Scanned D rt tenant db' sc seen (rest ++ rows.filter (EventRow.inScope tenant)) where
  split := by
    rw [Db.scope, ha.events, List.filter_append, ← List.append_assoc, ← h.split]
    rfl
  seen_le := h.seen_le
  lt_rest r hr := by
    rcases List.mem_append.1 hr with hr | hr
    · exact h.lt_rest r hr
    · exact Nat.lt_of_le_of_lt h.cursor_le (ha.written.seq_lt r (List.mem_filter.1 hr).1)
  cursor_le := by
    rw [ha.seq]
    exact h.cursor_le.trans (Nat.le_add_right ..)
  readable := h.readable
  covers := h.covers

theorem filter_eq_rest (h : Scanned D rt tenant db sc seen rest) :
    (db.scope tenant).filter (fun r => decide (sc.cursor < r.globalPosition)) = rest := by
  rw [h.split, List.filter_append, List.filter_eq_nil_iff.2, List.nil_append,
    List.filter_eq_self.2]
  · exact fun r hr => decide_eq_true (h.lt_rest r hr)
  · exact fun r hr => by simpa using h.seen_le r hr

theorem foldl_max_spec (l : List ℕ) (a : ℕ) :
    a ≤ l.foldl max a ∧ (∀ x ∈ l, x ≤ l.foldl max a) ∧ (l.foldl max a = a ∨ l.foldl max a ∈ l) := by
  induction l generalizing a with
  | nil => simp
  | cons x l ih =>
    obtain ⟨h₁, h₂, h₃⟩ := ih (max a x)
    refine ⟨(Nat.le_max_left a x).trans h₁, ?_, ?_⟩
    · exact List.forall_mem_cons.2 ⟨(Nat.le_max_right a x).trans h₁, h₂⟩
    · rw [List.foldl_cons]
      rcases h₃ with h₃ | h₃
      · rcases Nat.le_total a x with hax | hax
        · right
          rw [h₃, Nat.max_eq_right hax]
          exact List.mem_cons_self
        · exact Or.inl (h₃.trans (Nat.max_eq_left hax))
      · exact Or.inr (List.mem_cons_of_mem _ h₃)

/-- **A page moves the first events of the rest to those seen.** -/
theorem page (h : Scanned D rt tenant db sc seen rest) {envs : List Envelope}
    (hread : readPage D db tenant sc.cursor = .ok envs) :
    Scanned D rt tenant db (envs.foldl rt.scanEvent sc) (seen ++ rest.take pageSize)
      (rest.drop pageSize) := by
  rw [readPage_eq_ok, h.filter_eq_rest] at hread
  obtain ⟨hcov, hcur⟩ := h.covers.page hread
  obtain ⟨hle, hall, hmem⟩ := foldl_max_spec ((rest.take pageSize).map EventRow.globalPosition)
    sc.cursor
  rw [← hcur] at hle hall hmem
  have hrest : ∀ r ∈ rest, r ∈ db.events.rows := fun r hr =>
    (List.mem_filter.1 (h.split ▸ List.mem_append_right seen hr : r ∈ db.scope tenant)).1
  refine ⟨?_, fun r hr => ?_, fun r hr => ?_, ?_, fun r hr => ?_, hcov⟩
  · rw [List.append_assoc, List.take_append_drop]
    exact h.split
  · rcases List.mem_append.1 hr with hr | hr
    · exact (h.seen_le r hr).trans hle
    · exact hall _ (List.mem_map_of_mem hr)
  · -- the cursor stands at a row of the page, or where it stood
    rcases hmem with hmem | hmem
    · rw [hmem]
      exact h.lt_rest r (List.mem_of_mem_drop hr)
    · obtain ⟨r', hr', hgp⟩ := List.mem_map.1 hmem
      rw [← hgp]
      -- the rows of the page come before those left
      have hpw := (List.pairwise_append.1 (h.split ▸ db.pairwise_scope tenant)).2.1
      rw [← List.take_append_drop pageSize rest] at hpw
      exact (List.pairwise_append.1 hpw).2.2 r' hr' r hr
  · rcases hmem with hmem | hmem
    · rw [hmem]
      exact h.cursor_le
    · obtain ⟨r', hr', hgp⟩ := List.mem_map.1 hmem
      rw [← hgp]
      exact Db.position_le_seq (hrest r' (List.mem_of_mem_take hr'))
  · rcases List.mem_append.1 hr with hr | hr
    · exact h.readable r hr
    · obtain ⟨env, -, henv⟩ := exists_of_forall₂_right hread.flip hr
      exact ⟨env, henv⟩

/-- **After an empty page everything in scope has been seen.** -/
theorem last (h : Scanned D rt tenant db sc seen rest)
    (hread : readPage D db tenant sc.cursor = .ok []) : rest = [] ∧ seen = db.scope tenant := by
  rw [readPage_eq_ok, h.filter_eq_rest, List.forall₂_nil_right_iff] at hread
  have hnil : rest = [] := (List.take_eq_nil_iff.1 hread).resolve_left (by decide)
  exact ⟨hnil, by rw [h.split, hnil, List.append_nil]⟩

end Scanned

/-- The rows of a stream in scope, of those in scope. -/
theorem Db.filter_scope {db : Db κ} {tenant : String} {sid : StreamID}
    (h : sid.InScope tenant) :
    (db.scope tenant).filter (EventRow.inStream sid) = db.stream sid := by
  rw [Db.scope, List.filter_filter, Db.stream]
  refine List.filter_congr fun r _ => ?_
  rw [Bool.and_eq_left_iff_imp]
  intro hin
  have hk := (Prod.mk.inj (EventRow.inStream_iff.1 hin)).1
  rw [EventRow.inScope, Bool.or_eq_true, beq_iff_eq, beq_iff_eq]
  exact h.imp_right fun he => hk ▸ he

/-- A stream out of scope has no rows in scope. -/
theorem Db.filter_scope_nil {db : Db κ} {tenant : String} {sid : StreamID}
    (h : ¬ sid.InScope tenant) :
    (db.scope tenant).filter (EventRow.inStream sid) = [] := by
  rw [List.filter_eq_nil_iff]
  intro r hr hin
  have hk := (Prod.mk.inj (EventRow.inStream_iff.1 hin)).1
  have hs := (List.mem_filter.1 hr).2
  rw [EventRow.inScope, Bool.or_eq_true, beq_iff_eq, beq_iff_eq] at hs
  exact h (hs.imp_right fun he => hk.trans he)

/-- Nothing is held for a stream of another aggregate or out of scope. -/
theorem Apart.rebuilt_eq_none {R : Runtime K S C E} {mine : StreamID → Prop} {db : Db κ}
    (h : Apart R mine db) {tenant : String} {sid : StreamID} (hv : sid.Valid)
    (hn : ¬ (mine sid ∧ sid.InScope tenant)) :
    R.rebuilt ((db.scope tenant).filter (EventRow.inStream sid)) = none := by
  by_cases hscope : sid.InScope tenant
  · refine R.rebuilt_eq_none fun r hr => ?_
    rw [Db.filter_scope hscope] at hr
    cases hdec : R.codec.decode r.typeURL (UInt32.ofInt r.schemaVersion) r.payload with
    | error e => exact ⟨e, rfl⟩
    | ok evt => exact absurd ⟨(h.reads sid hv r hr).1 ⟨evt, hdec⟩, hscope⟩ hn
  · rw [Db.filter_scope_nil hscope]
    rfl

end EventStore
