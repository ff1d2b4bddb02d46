import EventStore.LTS.Basic
import EventStore.Storage.Integrity

/-!
# What readers of a Postgres store see

Append transactions of any number of sessions, statement by statement, beside readers that follow
the log page by page.

A position is drawn from the sequence when an event is inserted, long before it becomes visible, and
a rollback does not give it back.  A session that drew position 5 could thus commit after one that
drew position 6, and a reader that has seen 6 would never ask for 5.  Every transaction therefore
takes a store-wide advisory lock first, and the lock is released after the commit is visible: the
positions of a transaction are drawn after everything before has become visible.

The committed rows are a plain list here, in the order they became visible: that this is the order
of the positions is what has to be proved.  Statements on `unique_claims`, `outbox` and
`state_cache` do nothing to what readers see, and stand for themselves only as a point where the
transaction may fail (`rollback`).

## Main definitions

* `Postgres.Step`, `Postgres.Cluster.next` : the steps of sessions and readers.
* `Postgres.readFrom` : `ReadAll` and `ReadAllForTenant`.

## Main results

* `Postgres.committed_written` : the rows a session commits are those of `Append`.
* `Postgres.pages_follow_log` : **the pages of a reader are a prefix of the log.**
-/

namespace EventStore

namespace Postgres

variable {J : Type}

/-! ### The model -/

/-- The rows in scope: of one tenant, or all. -/
def inScope {κ : Columns} (tenant : Option String) (r : EventRow κ) : Bool :=
  tenant.all fun t => r.tenantID == t

variable (L : Library J) (H : Hasher)

/-- `ReadAll`, and `ReadAllForTenant` for a tenant: one statement on the committed rows. -/
def readFrom (tenant : Option String) (rows : List (EventRow (columns J))) (fromPosition : ℕ)
    (limit : ℤ) : Except Err (List Envelope) := do
  let n ← maxRows limit
  collect (dialect L) (((rows.filter fun r => inScope tenant r &&
    decide (fromPosition < r.globalPosition)).insertionSort fun a b =>
      a.globalPosition ≤ b.globalPosition).take n)

/-- `LastStreamHash` with its default. -/
def predecessorHash {κ : Columns} (rows : List (EventRow κ)) (sid : StreamID) : Bytes :=
  let h := (((rows.filter (EventRow.inStream sid)).insertionSort fun a b =>
    a.version ≤ b.version).getLast?.bind EventRow.hash).getD []
  if h.length = 0 then zeroHash else h

/-- Where a call of `Append` is. -/
inductive Session (κ : Columns) where
  | idle
  /-- Blocked in `pg_advisory_xact_lock`. -/
  | waiting (E : Engine) (p : AppendParams)
  /-- The lock is held, and `LastStreamHash` has not run. -/
  | locked (E : Engine) (p : AppendParams)
  /-- The rows inserted so far, which nobody else sees, the hash of the last one, and the events
  that are left. -/
  | inserting (E : Engine) (p : AppendParams) (own : List (EventRow κ)) (prev : Bytes)
      (todo : List EventToAppend)
  /-- Committed or rolled back, and the lock is still held. -/
  | ended

/-- A reader: the position it has seen last, and the events of its pages. -/
structure Reader where
  cursor : ℕ
  pages : List Envelope

/-- The database with its sessions and readers. -/
structure Cluster (κ : Columns) where
  /-- The committed rows of `events`, in the order they became visible. -/
  events : List (EventRow κ)
  /-- The last value of `events_global_position_seq`, which no transaction owns. -/
  seq : ℕ
  /-- The session that holds the advisory lock. -/
  lock : Option ℕ
  session : ℕ → Session κ
  reader : ℕ → Reader

/-- The steps. -/
inductive Step where
  /-- Session `i` begins a transaction. -/
  | begin (i : ℕ) (E : Engine) (p : AppendParams)
  /-- It gets the lock. -/
  | lock (i : ℕ)
  | lastStreamHash (i : ℕ)
  | insertEvent (i : ℕ)
  /-- Its rows become visible. -/
  | commit (i : ℕ)
  /-- A statement or the commit fails, or the connection is lost; the statement may have drawn a
  position before. -/
  | rollback (i : ℕ) (drawn : Bool)
  | release (i : ℕ)
  /-- Reader `j` asks for the page after the position it has seen last. -/
  | read (j : ℕ) (limit : ℤ)

/-- The database with session `i` moved on. -/
def Cluster.setSession {κ : Columns} (s : Cluster κ) (i : ℕ) (x : Session κ) : Cluster κ :=
  { s with session := Function.update s.session i x }

variable (tenant : ℕ → Option String)

/-- The state after one step; `tenant j` is the scope of reader `j`. -/
def Cluster.next (s : Cluster (columns J)) : Step → Option (Cluster (columns J))
  | .begin i E p =>
    match s.session i, p.streamID.validate, p.events with
    | .idle, .ok (), _ :: _ => some (s.setSession i (.waiting E p))
    | _, _, _ => none
  | .lock i =>
    match s.session i, s.lock with
    | .waiting E p, none => some { s.setSession i (.locked E p) with lock := some i }
    | _, _ => none
  | .lastStreamHash i =>
    match s.session i with
    | .locked E p => some
      (s.setSession i (.inserting E p [] (predecessorHash s.events p.streamID) p.events))
    | _ => none
  | .insertEvent i =>
    match s.session i with
    | .inserting E p own prev (ev :: todo) =>
      match prepareEvent (dialect L) H E p own.length prev ev with
      | .error _ => some (s.setSession i .ended)
      | .ok row =>
        let row := { row with globalPosition := s.seq + 1 }
        let s := { s with seq := s.seq + 1 }
        if ∃ a ∈ s.events ++ own, a.Clash row then some (s.setSession i .ended)
        else some (s.setSession i (.inserting E p (own ++ [row]) (row.hash.getD []) todo))
    | _ => none
  | .commit i =>
    match s.session i with
    | .inserting _ _ own _ [] => some { s.setSession i .ended with events := s.events ++ own }
    | _ => none
  | .rollback i drawn =>
    match s.session i with
    | .waiting .. => some (s.setSession i .idle)
    | .locked .. | .inserting .. => some
      { s.setSession i .ended with seq := if drawn then s.seq + 1 else s.seq }
    | _ => none
  | .release i =>
    match s.session i with
    | .ended => some { s.setSession i .idle with lock := none }
    | _ => none
  | .read j limit =>
    match readFrom L (tenant j) s.events (s.reader j).cursor limit with
    | .error _ => some s
    | .ok page => some { s with
      reader := Function.update s.reader j
        { cursor := (page.getLast?.map Envelope.globalPosition).getD (s.reader j).cursor
          pages := (s.reader j).pages ++ page } }

/-- An empty database. -/
def Cluster.empty {κ : Columns} : Cluster κ := ⟨[], 0, none, fun _ => .idle, fun _ => ⟨0, []⟩⟩

/-- Sessions and readers on one database. -/
def cluster : TS (Cluster (columns J)) Step where
  init s := s = .empty
  step s l s' := s.next L H tenant l = some s'

/-! ### The rows of a database -/

variable {L} in
/-- On the rows of a database the statement is that of `readAll`. -/
theorem readFrom_rows (db : Db (columns J)) (fromPosition : ℕ) (limit : ℤ) :
    readFrom L none db.events.rows fromPosition limit =
      (maxRows limit).bind (readAll (dialect L) db fromPosition) := rfl

variable {L} in
/-- And that of `readAllForTenant`. -/
theorem readFrom_rows_tenant (db : Db (columns J)) (t : String) (fromPosition : ℕ) (limit : ℤ) :
    readFrom L (some t) db.events.rows fromPosition limit =
      (maxRows limit).bind (readAllForTenant (dialect L) db t fromPosition) := rfl

/-- So is the predecessor's hash. -/
theorem predecessorHash_rows {κ : Columns} (db : Db κ) (sid : StreamID) :
    predecessorHash db.events.rows sid = db.predecessorHash sid := rfl

/-! ### What a step does -/

/-- The session holds the lock. -/
def Session.holds {κ : Columns} : Session κ → Bool
  | .locked .. | .inserting .. | .ended => true
  | .idle | .waiting .. => false

/-- The rows a session has inserted and not committed. -/
def Session.own {κ : Columns} : Session κ → List (EventRow κ)
  | .inserting _ _ own _ _ => own
  | _ => []

/-- The steps, case by case. -/
inductive Cluster.Moves (s : Cluster (columns J)) : Cluster (columns J) → Prop
  /-- A session begins, or gives up waiting. -/
  | begin {i : ℕ} {x : Session (columns J)} : (s.session i).holds = false → x.holds = false →
    Moves s (s.setSession i x)
  | lock {i : ℕ} {E : Engine} {p : AppendParams} : s.session i = .waiting E p → s.lock = none →
    Moves s { s.setSession i (.locked E p) with lock := some i }
  | lastStreamHash {i : ℕ} {E : Engine} {p : AppendParams} : s.session i = .locked E p →
    Moves s (s.setSession i (.inserting E p [] (predecessorHash s.events p.streamID) p.events))
  | insertEvent {i : ℕ} {E : Engine} {p : AppendParams} {own : List (EventRow (columns J))}
      {prev : Bytes} {ev : EventToAppend} {todo : List EventToAppend}
      {row : EventRow (columns J)} : s.session i = .inserting E p own prev (ev :: todo) →
    prepareEvent (dialect L) H E p own.length prev ev = .ok row →
    Moves s { s.setSession i (.inserting E p (own ++ [{ row with globalPosition := s.seq + 1 }])
      (row.hash.getD []) todo) with seq := s.seq + 1 }
  | commit {i : ℕ} {E : Engine} {p : AppendParams} {own : List (EventRow (columns J))}
      {prev : Bytes} : s.session i = .inserting E p own prev [] →
    Moves s { s.setSession i .ended with events := s.events ++ own }
  /-- A transaction rolls back, and may have drawn a position. -/
  | rollback {i n : ℕ} : (s.session i).holds = true → s.seq ≤ n →
    Moves s { s.setSession i .ended with seq := n }
  | release {i : ℕ} : s.session i = .ended →
    Moves s { s.setSession i .idle with lock := none }
  | read {j : ℕ} {limit : ℤ} {page : List Envelope} :
    readFrom L (tenant j) s.events (s.reader j).cursor limit = .ok page →
    Moves s { s with
      reader := Function.update s.reader j
        { cursor := (page.getLast?.map Envelope.globalPosition).getD (s.reader j).cursor
          pages := (s.reader j).pages ++ page } }
  | refused : Moves s s

variable {L H tenant}

theorem Cluster.moves_of_next {s s' : Cluster (columns J)} {l : Step}
    (h : s.next L H tenant l = some s') : s.Moves L H tenant s' := by
  cases l with
  | begin i E p =>
    simp only [next] at h
    split at h
    · rename_i hi _ _
      cases h
      exact .begin (by rw [hi]; rfl) rfl
    · cases h
  | lock i =>
    simp only [next] at h
    split at h
    · cases h
      exact .lock ‹_› ‹_›
    · cases h
  | lastStreamHash i =>
    simp only [next] at h
    split at h
    · cases h
      exact .lastStreamHash ‹_›
    · cases h
  | insertEvent i =>
    simp only [next] at h
    split at h
    · rename_i hi
      have hold : (s.session i).holds = true := by rw [hi]; rfl
      split at h
      · cases h
        exact .rollback hold (le_refl _)
      · split at h
        · cases h
          exact .rollback hold (Nat.le_succ _)
        · cases h
          exact .insertEvent hi ‹_›
    · cases h
  | commit i =>
    simp only [next] at h
    split at h
    · cases h
      exact .commit ‹_›
    · cases h
  | rollback i drawn =>
    have hle : s.seq ≤ if drawn then s.seq + 1 else s.seq := by
      split_ifs
      · exact Nat.le_succ _
      · exact le_refl _
    simp only [next] at h
    split at h
    · rename_i hi
      cases h
      exact .begin (by rw [hi]; rfl) rfl
    · rename_i hi
      cases h
      exact .rollback (by rw [hi]; rfl) hle
    · rename_i hi
      cases h
      exact .rollback (by rw [hi]; rfl) hle
    · cases h
  | release i =>
    simp only [next] at h
    split at h
    · cases h
      exact .release ‹_›
    · cases h
  | read j limit =>
    simp only [next] at h
    split at h
    · cases h
      exact .refused
    · cases h
      exact .read ‹_›

/-! ### The order of the log -/

/-- Positions are drawn from 1 on, increase along the rows, and do not pass the sequence. -/
def Ordered {κ : Columns} (rows : List (EventRow κ)) (seq : ℕ) : Prop :=
  (0 :: (rows.map EventRow.globalPosition ++ [seq + 1])).Pairwise (· < ·)

namespace Ordered

variable {κ : Columns} {rows rows' : List (EventRow κ)} {seq : ℕ}

theorem pairwise (h : Ordered rows seq) :
    rows.Pairwise fun a b => a.globalPosition < b.globalPosition := by
  have h' := (List.pairwise_append.1 (List.pairwise_cons.1 h).2).1
  rwa [List.pairwise_map] at h'

theorem pos (h : Ordered rows seq) {r : EventRow κ} (hr : r ∈ rows) : 0 < r.globalPosition :=
  (List.pairwise_cons.1 h).1 _ (List.mem_append_left _ (List.mem_map_of_mem hr))

theorem le_seq (h : Ordered rows seq) {r : EventRow κ} (hr : r ∈ rows) :
    r.globalPosition ≤ seq := by
  have := (List.pairwise_append.1 (List.pairwise_cons.1 h).2).2.2 _ (List.mem_map_of_mem hr) _
    List.mem_cons_self
  omega

theorem intro (h : rows.Pairwise fun a b => a.globalPosition < b.globalPosition)
    (hb : ∀ r ∈ rows, 0 < r.globalPosition ∧ r.globalPosition ≤ seq) : Ordered rows seq := by
  refine List.pairwise_cons.2 ⟨fun n hn => ?_, List.pairwise_append.2
    ⟨List.pairwise_map.2 h, List.pairwise_singleton _ _, fun n hn m hm => ?_⟩⟩
  · rcases List.mem_append.1 hn with hn | hn
    · obtain ⟨r, hr, rfl⟩ := List.mem_map.1 hn
      exact (hb r hr).1
    · rw [List.mem_singleton.1 hn]
      exact Nat.succ_pos _
  · obtain ⟨r, hr, rfl⟩ := List.mem_map.1 hn
    have := (hb r hr).2
    rw [List.mem_singleton.1 hm]
    omega

theorem mono (h : Ordered rows seq) {n : ℕ} (hn : seq ≤ n) : Ordered rows n :=
  .intro h.pairwise fun _ hr => ⟨h.pos hr, (h.le_seq hr).trans hn⟩

theorem left (h : Ordered (rows ++ rows') seq) : Ordered rows seq :=
  .intro (List.pairwise_append.1 h.pairwise).1 fun _ hr =>
    ⟨h.pos (List.mem_append_left _ hr), h.le_seq (List.mem_append_left _ hr)⟩

/-- A row that has drawn the next position comes last. -/
theorem snoc (h : Ordered rows seq) {r : EventRow κ} (hr : r.globalPosition = seq + 1) :
    Ordered (rows ++ [r]) (seq + 1) := by
  refine .intro (List.pairwise_append.2 ⟨h.pairwise, List.pairwise_singleton _ _, ?_⟩) ?_
  · intro a ha b hb
    have := h.le_seq ha
    rw [List.mem_singleton.1 hb]
    omega
  · intro a ha
    rcases List.mem_append.1 ha with ha | ha
    · exact ⟨h.pos ha, (h.le_seq ha).trans (Nat.le_succ _)⟩
    · rw [List.mem_singleton.1 ha]
      omega

end Ordered

theorem globalPosition_of_rowToEnvelope {κ : Columns} {D : Dialect κ} {r : EventRow κ}
    {e : Envelope} (h : rowToEnvelope D r = .ok e) : r.globalPosition = e.globalPosition := by
  obtain ⟨_, _, _, _, -, -, -, -, rfl⟩ := rowToEnvelope_eq_ok.1 h
  rfl

/-- What the reader has got: the pages are of the rows up to its cursor. -/
def Follows (L : Library J) (tenant : Option String) (rows : List (EventRow (columns J)))
    (x : Reader) : Prop :=
  ∃ seen rest, rows.filter (inScope tenant) = seen ++ rest ∧
    List.Forall₂ (fun r e => rowToEnvelope (dialect L) r = .ok e) seen x.pages ∧
    (∀ r ∈ seen, r.globalPosition ≤ x.cursor) ∧ (∀ r ∈ rest, x.cursor < r.globalPosition) ∧
    (x.cursor = 0 ∨ ∃ r ∈ rows, r.globalPosition = x.cursor)

namespace Follows

variable {scope : Option String} {rows : List (EventRow (columns J))} {x : Reader} {seq : ℕ}

theorem empty : Follows L scope [] ⟨0, []⟩ :=
  ⟨[], [], rfl, .nil, by simp, by simp, Or.inl rfl⟩

/-- Rows that become visible at the end are still to come. -/
theorem append (h : Follows L scope rows x) {new : List (EventRow (columns J))}
    (ho : Ordered (rows ++ new) seq) : Follows L scope (rows ++ new) x := by
  obtain ⟨seen, rest, hsplit, hpages, hseen, hrest, hcur⟩ := h
  refine ⟨seen, rest ++ new.filter (inScope scope), ?_, hpages, hseen, fun r hr => ?_, ?_⟩
  · rw [List.filter_append, hsplit, List.append_assoc]
  · rcases List.mem_append.1 hr with hr | hr
    · exact hrest r hr
    · have hnew := (List.mem_filter.1 hr).1
      rcases hcur with h0 | ⟨r₀, hr₀, hpos⟩
      · rw [h0]
        exact ho.pos (List.mem_append_right _ hnew)
      · rw [← hpos]
        exact (List.pairwise_append.1 ho.pairwise).2.2 r₀ hr₀ r hnew
  · exact hcur.imp_right fun ⟨r, hr, hpos⟩ => ⟨r, List.mem_append_left _ hr, hpos⟩

/-- A page is what comes next. -/
theorem page_eq {limit : ℤ} {page : List Envelope} (ho : Ordered rows seq)
    {seen rest : List (EventRow (columns J))} (hsplit : rows.filter (inScope scope) = seen ++ rest)
    (hseen : ∀ r ∈ seen, r.globalPosition ≤ x.cursor)
    (hrest : ∀ r ∈ rest, x.cursor < r.globalPosition)
    (hp : readFrom L scope rows x.cursor limit = .ok page) :
    ∃ n, List.Forall₂ (fun r e => rowToEnvelope (dialect L) r = .ok e) (rest.take n) page := by
  obtain ⟨n, -, hp⟩ := Except.bind_eq_ok.1 hp
  have hfil : rows.filter (fun r => inScope scope r && decide (x.cursor < r.globalPosition)) =
      rest := by
    have hcomm : (fun r : EventRow (columns J) => inScope scope r &&
        decide (x.cursor < r.globalPosition)) =
        fun r => decide (x.cursor < r.globalPosition) && inScope scope r :=
      funext fun r => Bool.and_comm ..
    rw [hcomm, ← List.filter_filter, hsplit, List.filter_append,
      List.filter_eq_nil_iff.2 fun r hr => ?_, List.filter_eq_self.2 fun r hr => ?_,
      List.nil_append]
    · exact decide_eq_true (hrest r hr)
    · have := hseen r hr
      rw [decide_eq_true_eq]
      omega
  have hsorted : rest.Pairwise fun a b => a.globalPosition ≤ b.globalPosition := by
    rw [← hfil]
    exact (ho.pairwise.filter _).imp Nat.le_of_lt
  rw [hfil, hsorted.insertionSort_eq] at hp
  exact ⟨n, collect_eq_ok.1 hp⟩

/-- Reading on. -/
theorem read (h : Follows L scope rows x) {limit : ℤ} {page : List Envelope}
    (ho : Ordered rows seq) (hp : readFrom L scope rows x.cursor limit = .ok page) :
    Follows L scope rows
      ⟨(page.getLast?.map Envelope.globalPosition).getD x.cursor, x.pages ++ page⟩ := by
  obtain ⟨seen, rest, hsplit, hpages, hseen, hrest, hcur⟩ := h
  obtain ⟨n, hpage⟩ := page_eq ho hsplit hseen hrest hp
  have hsorted : rest.Pairwise fun a b => a.globalPosition < b.globalPosition := by
    have := ho.pairwise.filter (inScope scope)
    rw [hsplit] at this
    exact (List.pairwise_append.1 this).2.1
  rw [← List.take_append_drop n rest] at hsorted
  obtain ⟨hs₁, -, hs₂⟩ := List.pairwise_append.1 hsorted
  have hpos : page.map Envelope.globalPosition = (rest.take n).map EventRow.globalPosition := by
    have heq : List.Forall₂ (· = ·) ((rest.take n).map EventRow.globalPosition)
        (page.map Envelope.globalPosition) :=
      List.forall₂_map_left_iff.2 (List.forall₂_map_right_iff.2
        (hpage.imp fun _ _ h => globalPosition_of_rowToEnvelope h))
    rw [List.forall₂_eq_eq_eq] at heq
    exact heq.symm
  have hlast : page.getLast?.map Envelope.globalPosition =
      (rest.take n).getLast?.map EventRow.globalPosition := by
    rw [← List.getLast?_map, hpos, List.getLast?_map]
  have hsplit' : rows.filter (inScope scope) = (seen ++ rest.take n) ++ rest.drop n := by
    rw [hsplit, List.append_assoc, List.take_append_drop]
  refine ⟨seen ++ rest.take n, rest.drop n, hsplit', List.rel_append hpages hpage, ?_⟩
  rw [hlast]
  cases hl : (rest.take n).getLast? with
  | none =>
    -- an empty page
    rw [List.getLast?_eq_none_iff] at hl
    rw [hl, List.append_nil]
    exact ⟨hseen, fun r hr => hrest r (List.mem_of_mem_drop hr), hcur⟩
  | some last =>
    -- the cursor moves on to the last row of the page
    obtain ⟨init, hinit⟩ := List.getLast?_eq_some_iff.1 hl
    have hmem : last ∈ rest.take n := hinit ▸ List.mem_append_right _ List.mem_cons_self
    have hrow : last ∈ rows := by
      have : last ∈ rows.filter (inScope scope) := by
        rw [hsplit]
        exact List.mem_append_right _ (List.mem_of_mem_take hmem)
      exact (List.mem_filter.1 this).1
    refine ⟨fun r hr => ?_, fun r hr => hs₂ last hmem r hr, Or.inr ⟨last, hrow, rfl⟩⟩
    rcases List.mem_append.1 hr with hr | hr
    · exact (hseen r hr).trans (hrest last (List.mem_of_mem_take hmem)).le
    · rw [hinit] at hr hs₁
      rcases List.mem_append.1 hr with hr | hr
      · exact ((List.pairwise_append.1 hs₁).2.2 r hr last List.mem_cons_self).le
      · rw [List.mem_singleton.1 hr]
        exact le_refl _

end Follows

/-! ### Steps and runs -/

variable (L tenant) in
/-- The invariant: what is visible or inserted is in order, only the holder of the lock inserts, and
every reader follows the log. -/
structure Cluster.Sound (s : Cluster (columns J)) : Prop where
  ordered : ∀ i, Ordered (s.events ++ (s.session i).own) s.seq
  holds : ∀ i, (s.session i).holds = true → s.lock = some i
  reader : ∀ j, Follows L (tenant j) s.events (s.reader j)

theorem Session.own_ended {κ : Columns} : (Session.ended : Session κ).own = [] := rfl

theorem Session.own_eq_nil {κ : Columns} {x : Session κ} (h : x.holds = false) : x.own = [] := by
  cases x with
  | inserting => cases h
  | _ => rfl

namespace Cluster.Sound

variable {s s' : Cluster (columns J)}

theorem events_ordered (h : s.Sound L tenant) : Ordered s.events s.seq := (h.ordered 0).left

/-- Nobody inserts beside the holder of the lock. -/
theorem own_of_ne (h : s.Sound L tenant) {i k : ℕ} (hi : (s.session i).holds = true) (hk : k ≠ i) :
    (s.session k).own = [] := by
  refine Session.own_eq_nil (Bool.eq_false_iff.2 fun hold => hk ?_)
  exact Option.some.inj ((h.holds k hold).symm.trans (h.holds i hi))

/-- A step of session `i`: it makes `new` visible, and only the holder of the lock does that or
draws a position. -/
theorem step {i : ℕ} {x : Session (columns J)} {new : List (EventRow (columns J))}
    (h : s.Sound L tenant) (hs : s'.session = Function.update s.session i x)
    (he : s'.events = s.events ++ new) (hr : s'.reader = s.reader)
    (hnew : (s.session i).holds = true ∨ new = [] ∧ s'.seq = s.seq)
    (hown : Ordered (s'.events ++ x.own) s'.seq) (hlock : x.holds = true → s'.lock = some i)
    (hothers : ∀ k, k ≠ i → (s.session k).holds = true → s'.lock = some k) :
    s'.Sound L tenant where
  ordered k := by
    rw [hs]
    by_cases hk : k = i
    · subst hk
      rw [Function.update_self]
      exact hown
    · rw [Function.update_of_ne hk]
      rcases hnew with hi | ⟨rfl, hseq⟩
      · rw [h.own_of_ne hi hk, List.append_nil]
        exact hown.left
      · rw [he, List.append_nil, hseq]
        exact h.ordered k
  holds k hk := by
    rw [hs] at hk
    by_cases hki : k = i
    · subst hki
      rw [Function.update_self] at hk
      exact hlock hk
    · rw [Function.update_of_ne hki] at hk
      exact hothers k hki hk
  reader j := by
    rw [hr, he]
    rw [he] at hown
    exact (h.reader j).append hown.left

/-- Every step keeps the invariant. -/
theorem moves (h : s.Sound L tenant) (hm : s.Moves L H tenant s') : s'.Sound L tenant := by
  have hevents := h.events_ordered
  have hnil : s.events = s.events ++ [] := (List.append_nil _).symm
  -- beside the holder nobody holds the lock
  have hold : ∀ {i}, (s.session i).holds = true → ∀ {lock : Option ℕ}, ∀ k, k ≠ i →
      (s.session k).holds = true → lock = some k := fun hi _ k hk hkold =>
    absurd (Option.some.inj ((h.holds k hkold).symm.trans (h.holds _ hi))) hk
  cases hm with
  | begin hi hx =>
    refine h.step rfl hnil rfl (Or.inr ⟨rfl, rfl⟩) ?_ (fun hx' => ?_) fun k _ hk => h.holds k hk
    · rw [Session.own_eq_nil hx, List.append_nil]
      exact hevents
    · rw [hx] at hx'
      cases hx'
  | lock hi hfree =>
    refine h.step rfl hnil rfl (Or.inr ⟨rfl, rfl⟩) ?_ (fun _ => rfl) fun k _ hk => ?_
    · exact hnil ▸ hevents
    · rw [h.holds k hk] at hfree
      cases hfree
  | @lastStreamHash i E p hi =>
    have hi' : (s.session i).holds = true := by rw [hi]; rfl
    exact h.step rfl hnil rfl (Or.inl hi') (hnil ▸ hevents) (fun _ => h.holds i hi') (hold hi')
  | @insertEvent i E p own prev ev todo row hi _ =>
    have hi' : (s.session i).holds = true := by rw [hi]; rfl
    have hown := h.ordered i
    rw [hi] at hown
    refine h.step rfl hnil rfl (Or.inl hi') ?_ (fun _ => h.holds i hi') (hold hi')
    rw [Session.own, ← List.append_assoc]
    exact hown.snoc rfl
  | @commit i E p own prev hi =>
    have hi' : (s.session i).holds = true := by rw [hi]; rfl
    have hown := h.ordered i
    rw [hi] at hown
    refine h.step rfl rfl rfl (Or.inl hi') ?_ (fun _ => h.holds i hi') (hold hi')
    rw [Session.own_ended, List.append_nil]
    exact hown
  | @rollback i n hi hn =>
    refine h.step rfl hnil rfl (Or.inl hi) ?_ (fun _ => h.holds i hi) (hold hi)
    rw [Session.own_ended, List.append_nil]
    exact hevents.mono hn
  | @release i hi =>
    have hi' : (s.session i).holds = true := by rw [hi]; rfl
    exact h.step rfl hnil rfl (Or.inl hi') (hnil ▸ hevents) nofun (hold hi')
  | @read j limit page hp =>
    refine ⟨h.ordered, h.holds, fun k => ?_⟩
    by_cases hk : k = j
    · subst hk
      simp only [Function.update_self]
      exact (h.reader k).read hevents hp
    · simp only [Function.update_of_ne hk]
      exact h.reader k
  | refused => exact h

end Cluster.Sound

theorem sound_of_cluster {s : Cluster (columns J)} (h : (cluster L H tenant).Reachable s) :
    s.Sound L tenant := by
  refine h.invariant (fun s hs => ?_) fun s l s' _ hsound hstep =>
    hsound.moves (Cluster.moves_of_next hstep)
  obtain rfl : s = .empty := hs
  exact ⟨fun _ => by simp [Ordered, Cluster.empty, Session.own], nofun, fun _ => .empty⟩

/-- Rows become visible at the end of the log. -/
theorem events_append {s s' : Cluster (columns J)} {ls : List Step}
    (h : (cluster L H tenant).Run s ls s') : ∃ new, s'.events = s.events ++ new := by
  refine h.invariant (I := fun s' => ∃ new, s'.events = s.events ++ new)
    ⟨[], (List.append_nil _).symm⟩ fun s₁ l s₂ ⟨new, hnew⟩ hstep => ?_
  cases Cluster.moves_of_next hstep with
  | commit hi => exact ⟨new ++ _, by rw [hnew, List.append_assoc]⟩
  | _ => exact ⟨new, hnew⟩

/-! ### What is committed is what `Append` writes -/

/-- One more event of the batch. -/
theorem written_snoc {κ : Columns} {D : Dialect κ} {E : Engine} {p : AppendParams} {i : ℕ}
    {prev : Bytes} {seq : ℕ} {evs : List EventToAppend} {rows : List (EventRow κ)}
    {ev : EventToAppend} {row : EventRow κ} (h : Written D H E p i prev seq evs rows)
    (hrow : prepareEvent D H E p (i + rows.length) (lastHash prev rows) ev = .ok row) :
    Written D H E p i prev seq (evs ++ [ev])
      (rows ++ [{ row with globalPosition := seq + rows.length + 1 }]) := by
  induction h with
  | nil => exact .cons hrow .nil
  | @cons i prev seq ev₀ evs row₀ rows hprep _ ih =>
    refine .cons hprep ?_
    rw [lastHash_cons, List.length_cons, Nat.add_comm rows.length 1, ← Nat.add_assoc] at hrow
    have hrest := ih hrow
    rw [Nat.add_right_comm seq 1] at hrest
    exact hrest

variable (H) in
/-- The rows of a session are those `Append` writes for the events it is through with. -/
def Session.Written (L : Library J) (events : List (EventRow (columns J))) (seq : ℕ) :
    Session (columns J) → Prop
  | .inserting E p own prev todo => ∃ base done, p.events = done ++ todo ∧
      EventStore.Written (dialect L) H E p 0 (predecessorHash events p.streamID) base done own ∧
      lastHash (predecessorHash events p.streamID) own = prev ∧ base + own.length = seq
  | _ => True

theorem Session.written_of_holds {L : Library J} {events : List (EventRow (columns J))} {seq : ℕ}
    {x : Session (columns J)} (h : x.holds = false) : x.Written H L events seq := by
  cases x with
  | inserting => cases h
  | _ => trivial

/-- A step keeps the rows of the sessions: those of the holder of the lock, which nobody else has
anything to do with. -/
theorem Cluster.Sound.written {s s' : Cluster (columns J)} (h : s.Sound L tenant)
    (hw : ∀ i, (s.session i).Written H L s.events s.seq) (hm : s.Moves L H tenant s') (k : ℕ) :
    (s'.session k).Written H L s'.events s'.seq := by
  -- beside the holder the sessions have inserted nothing
  have hothers : ∀ {i}, (s.session i).holds = true → ∀ {x : Session (columns J)} {events seq},
      x.Written H L events seq → (Function.update s.session i x k).Written H L events seq := by
    intro i hi x events seq hx
    by_cases hk : k = i
    · rw [hk, Function.update_self]
      exact hx
    · rw [Function.update_of_ne hk]
      refine Session.written_of_holds (Bool.eq_false_iff.2 fun hold => hk ?_)
      exact Option.some.inj ((h.holds k hold).symm.trans (h.holds i hi))
  cases hm with
  | @begin i x hi hx =>
    by_cases hk : k = i
    · simp only [hk, Cluster.setSession, Function.update_self]
      exact Session.written_of_holds hx
    · simp only [Cluster.setSession, Function.update_of_ne hk]
      exact hw k
  | @lock i E p hi hfree =>
    by_cases hk : k = i
    · simp only [hk, Cluster.setSession, Function.update_self, Session.Written]
    · simp only [Cluster.setSession, Function.update_of_ne hk]
      exact hw k
  | @lastStreamHash i E p hi =>
    exact hothers (by rw [hi]; rfl) ⟨s.seq, [], rfl, .nil, rfl, rfl⟩
  | @insertEvent i E p own prev ev todo row hi hrow =>
    have hwi := hw i
    rw [hi] at hwi
    obtain ⟨base, done, hdone, hwritten, hprev, hseq⟩ := hwi
    refine hothers (by rw [hi]; rfl) ⟨base, done ++ [ev], ?_, ?_, ?_, ?_⟩
    · rw [hdone, List.append_assoc]
      rfl
    · have := written_snoc hwritten (by rwa [Nat.zero_add, hprev])
      rwa [hseq] at this
    · simp [lastHash]
    · rw [List.length_append, List.length_singleton]
      exact congrArg (· + 1) hseq
  | @commit i E p own prev hi => exact hothers (by rw [hi]; rfl) trivial
  | rollback hi _ => exact hothers hi trivial
  | @release i hi => exact hothers (by rw [hi]; rfl) trivial
  | read _ => exact hw k
  | refused => exact hw k

/-- **A session commits the rows `Append` writes**, linked to what it found and at the positions
after the one the sequence stood at. -/
theorem committed_written {s : Cluster (columns J)} (h : (cluster L H tenant).Reachable s) {i : ℕ}
    {E : Engine} {p : AppendParams} {own : List (EventRow (columns J))} {prev : Bytes}
    (hi : s.session i = .inserting E p own prev []) :
    ∃ base, base + own.length = s.seq ∧
      Written (dialect L) H E p 0 (predecessorHash s.events p.streamID) base p.events own := by
  have hall : ∀ i, (s.session i).Written H L s.events s.seq := by
    have hinv := h.invariant (I := fun s => ∀ i, (s.session i).Written H L s.events s.seq)
      (fun s hs i => ?_) fun s l s' hr hw hst k =>
        (sound_of_cluster hr).written hw (Cluster.moves_of_next hst) k
    · exact hinv
    · obtain rfl : s = .empty := hs
      trivial
  have hwi := hall i
  rw [hi] at hwi
  obtain ⟨base, done, hdone, hwritten, -, hseq⟩ := hwi
  rw [List.append_nil] at hdone
  exact ⟨base, hseq, hdone ▸ hwritten⟩

/-- **The pages of a reader are a prefix of the log.**  In every run of append transactions and
readers, the events of the pages a reader has got are the first ones in its scope, each once; the
log is in the order of the positions, and whatever becomes visible later has a higher position than
everything that is visible now. -/
theorem pages_follow_log {s : Cluster (columns J)} (h : (cluster L H tenant).Reachable s) :
    (∀ j, ∃ k, List.Forall₂ (fun r e => rowToEnvelope (dialect L) r = .ok e)
        ((s.events.filter (inScope (tenant j))).take k) (s.reader j).pages) ∧
      (s.events.Pairwise fun a b => a.globalPosition < b.globalPosition) ∧
      ∀ ls s', (cluster L H tenant).Run s ls s' → ∃ new, s'.events = s.events ++ new ∧
        ∀ r ∈ s.events, ∀ r' ∈ new, r.globalPosition < r'.globalPosition := by
  have hsound := sound_of_cluster h
  refine ⟨fun j => ?_, hsound.events_ordered.pairwise, fun ls s' hrun => ?_⟩
  · obtain ⟨seen, rest, hsplit, hpages, -⟩ := hsound.reader j
    refine ⟨seen.length, ?_⟩
    rw [hsplit, List.take_left]
    exact hpages
  · obtain ⟨new, hnew⟩ := events_append hrun
    have ho := (sound_of_cluster (hrun.reachable h)).events_ordered.pairwise
    rw [hnew] at ho
    exact ⟨new, hnew, (List.pairwise_append.1 ho).2.2⟩

/-- A transaction rolls back after it has drawn position 1, and leaves a hole; the next two commit
at positions 2 and 3, and a reader that asks in between gets both. -/
theorem pages_follow_log_hole :
    ∃ s : Cluster (columns Bytes), (cluster .small .small fun _ => none).Reachable s ∧
      s.events.map EventRow.globalPosition = [2, 3] ∧
      (s.reader 0).pages.map Envelope.globalPosition = [2, 3] ∧
      ∃ k, List.Forall₂ (fun r e => rowToEnvelope (dialect .small) r = .ok e)
        ((s.events.filter (inScope none)).take k) (s.reader 0).pages := by
  let run : List Step :=
    [.begin 0 .calm (.bare 0 "a"), .lock 0, .begin 1 .calm (.bare 0 "b"), .lastStreamHash 0,
      .insertEvent 0, .rollback 0 false, .release 0, .lock 1, .lastStreamHash 1, .insertEvent 1,
      .read 0 10, .commit 1, .read 0 1, .release 1, .begin 0 .calm (.bare 1 "c"), .lock 0,
      .lastStreamHash 0, .insertEvent 0, .commit 0, .read 0 (-1), .read 0 10]
  have hexec : (TS.exec (Cluster.next .small .small fun _ => none) .empty run).map (fun s =>
      (s.events.map EventRow.globalPosition,
        (s.reader 0).pages.map Envelope.globalPosition)) = some ([2, 3], [2, 3]) := by
    decide +kernel
  obtain ⟨s, hs, hobs⟩ := Option.map_eq_some_iff.1 hexec
  have hr : (cluster .small .small fun _ => none).Reachable s :=
    TS.Reachable.exec (.init rfl) (fun _ _ _ _ hf => hf) hs
  exact ⟨s, hr, (Prod.mk.inj hobs).1, (Prod.mk.inj hobs).2, (pages_follow_log hr).1 0⟩

end Postgres

end EventStore
