import EventStore.Aggregate.Apart
import EventStore.Aggregate.Serial
import EventStore.Workflow.Bus

/-!
# The state a command hands to its subscribers

The events a subscriber is handed are those of the command's append: they are read back by their
versions.  The state is not: the step `read-state` loads the stream after the append, in a separate
access to the store, and what others have committed to the stream in between is in it.  The journal
fixes the state that was read for all replays of the command, not the version it was read at.

`Fleet.Attends` relates the commands to the history of the commits: what is in the journal and what
a command holds is a fold of the first events of its stream, at least as many as there were after
its append.  Every step keeps it (`Fleet.Attends.step`).

* `handed_state` : **a command hands on the state at the end of its append exactly if the events
  committed between the append and the read leave that state as it is**, and this state is then the
  one its append has left in `state_cache`.
-/

namespace EventStore

variable {K S C E : Type} {κ : Columns} {D : Dialect κ} {H : Hasher} {derive : String → UUID}
  {glob : String → String → Bool}

/-! ### Commands of a fleet -/

section Fleet

variable (F : Fleet S C E)

/-- The other clients are `Handle` calls of the fleet, and commands are for its runtimes. -/
def Fleet.Dispatches : BusStep K S C E → Prop
  | .client l => F.Handles l
  | .submit _ c => F.Runs c.sid c.runtime
  | _ => True

variable (D H derive glob) in
/-- Commands of the fleet on a durable engine, beside its `Handle` calls. -/
def Fleet.busSystem : TS (BusSys κ K S C E) (BusStep K S C E) :=
  (EventStore.busSystem D H derive glob).restrict fun _ l => F.Dispatches l

/-- A state is read back from the bytes that are journaled. -/
def Fleet.Journals : Prop :=
  ∀ sid v st bytes url, (F.stateCodec sid v).encode st = .ok (bytes, url) →
    (F.stateCodec sid v).decode (bytes.getD []) = .ok st

end Fleet

variable {F : Fleet S C E}

theorem Fleet.Journals.decodeState (hJ : F.Journals) {sid : StreamID} {rt : Runtime K S C E}
    (hrt : F.Runs sid rt) {st : S} {bytes : Option Bytes} (h : rt.encodeState st = .ok bytes) :
    rt.decodeState bytes = .ok st := by
  unfold Runtime.encodeState at h
  unfold Runtime.decodeState
  cases hsc : rt.stateCodec with
  | none =>
    rw [hsc] at h
    cases h
  | some sc =>
    rw [hsc] at h
    cases hsc' : sc.encode st with
    | error e =>
      simp only [hsc'] at h
      cases h
    | ok x =>
      simp only [hsc'] at h
      obtain rfl := Except.ok.inj h
      obtain rfl := hrt.stateCodec sc hsc
      exact hJ _ _ _ _ _ hsc'

/-! ### What a call of the store has returned -/

section Returned

variable {ι : Type} [DecidableEq ι] {s s' : Sys ι κ K S C E} {l : Label ι K S C E}

/-- A call moves by its own steps only. -/
theorem Moves.procs_of_ne (h : Moves D H s l s') {i : ι} (hi : l.call ≠ some i) :
    s'.procs i = s.procs i := by
  have key : ∀ {j : ι} {pr : Proc K S C E}, some j ≠ some i →
      (s.setProc j pr).procs i = s.procs i := by
    intro j pr hj
    exact if_neg fun he => hj (congrArg some he.symm)
  cases h with
  | begin | getState | load | loadError | decide | decideNone | decideError | append
  | appendError => exact key hi
  | _ => rfl

/-- A call returns without an error if it had no events, or when its append commits. -/
theorem Moves.returned_ok (h : Moves D H s l s') {i : ι} {r : AppendResult}
    (hr : s'.procs i = .returned (.ok r)) :
    s.procs i = .returned (.ok r) ∨ r = .zero ∨
      ∃ c evts p en, l = .append i en ∧ s.procs i = .decided c evts p ∧
        EventStore.append D H en p s.db = (.ok r, s'.db) ∧
        s'.commits = s.commits ++ [⟨i, c.sid, c.cmd, evts⟩] := by
  by_cases hi : l.call = some i
  · cases h with
    | begin | getState | load | loadError | decide | decideError | appendError =>
      obtain rfl := Option.some.inj hi
      rw [show Sys.procs _ _ = _ from if_pos rfl] at hr
      cases hr
    | decideNone =>
      obtain rfl := Option.some.inj hi
      rw [show Sys.procs _ _ = _ from if_pos rfl] at hr
      cases hr
      exact Or.inr (Or.inl rfl)
    | append hp ha =>
      obtain rfl := Option.some.inj hi
      rw [show Sys.procs _ _ = _ from if_pos rfl] at hr
      cases hr
      exact Or.inr (Or.inr ⟨_, _, _, _, rfl, hp, ha, rfl⟩)
    | _ => exact Or.inl hr
  · exact Or.inl (h.procs_of_ne hi ▸ hr)

end Returned

/-! ### What is known of an append and of a state -/

variable {s s' : BusSys κ K S C E}

/-- The log of a stream. -/
abbrev BusSys.log (s : BusSys κ K S C E) (sid : StreamID) : List E := Occ.logOf s.sys.commits sid

variable (F D) in
/-- The result is that of an append: its versions are those of a batch of the call in the log, and
if it wrote a row of `state_cache`, that row holds the fold of the log up to the end of the
batch. -/
structure Fleet.Owns (s : BusSys κ K S C E) (sid : StreamID) (i : BusCall) (r : AppendResult) :
    Prop where
  pos : 0 < r.startVersion
  range : r.startVersion ≤ r.endVersion
  le : r.endVersion ≤ (s.log sid).length
  batch : ∃ b ∈ s.sys.commits, b.call = i ∧ b.key = sid ∧
    (s.log sid).take r.endVersion = (s.log sid).take (r.startVersion - 1) ++ b.items
  row : ∀ row, s.stored i = some row → row.version = r.endVersion ∧
    (F.stateCodec sid (UInt32.ofInt row.stateSchemaVersion)).decode (D.loadState row.state) =
      .ok (F.fold sid ((s.log sid).take r.endVersion))

variable (F) in
/-- The state is the fold of the first `v` events, and those of the append are among them. -/
structure Fleet.StateAt (sid : StreamID) (log : List E) (own : OwnAppend) (st : S) (v : ℕ) :
    Prop where
  fold : st = F.fold sid (log.take v)
  own_le : own.result.endVersion ≤ v
  le : v ≤ log.length

theorem Fleet.StateAt.mono {sid : StreamID} {log log' : List E} {own : OwnAppend} {st : S} {v : ℕ}
    (h : F.StateAt sid log own st v) (hp : log <+: log') : F.StateAt sid log' own st v where
  fold := by
    rw [take_eq_take_of_isPrefix hp h.le]
    exact h.fold
  own_le := h.own_le
  le := h.le.trans hp.length_le

/-- The append of a command with events is in the journal. -/
def StepJournal.Dispatches (j : StepJournal) (own : OwnAppend) : Prop :=
  j.append = some own ∧ own.result ≠ .zero

/-- What a command holds, from the events of its stream: the result that is in the journal, and
states that are folds. -/
def BusPhase.Holds (F : Fleet S C E) (c : Command K S C E) (log : List E) (j : StepJournal) :
    BusPhase S → Prop
  | .appending _ => j.append = none
  | .appended own => j.append = some own
  | .readBack own _ => j.Dispatches own
  | .loading (.dispatch own _) => j.Dispatches own
  | .seeded p start => (∀ own envs, p = .dispatch own envs → j.Dispatches own) ∧
      (c.sid.Valid → start.2 ≤ log.length ∧ start.1 = F.fold c.sid (log.take start.2))
  | .encoded own _ bytes v => j.Dispatches own ∧
      ∃ st, F.StateAt c.sid log own st v ∧ c.runtime.encodeState st = .ok bytes
  | .ready own _ st v => j.Dispatches own ∧ F.StateAt c.sid log own st v
  | _ => True

/-- The state in the journal is a fold. -/
def StepJournal.Holds (F : Fleet S C E) (c : Command K S C E) (log : List E) (j : StepJournal) :
    Prop :=
  ∀ bytes v, j.state = some (bytes, v) → ∃ own st, j.append = some own ∧
    F.StateAt c.sid log own st v ∧ c.runtime.encodeState st = .ok bytes

theorem BusPhase.Holds.mono {c : Command K S C E} {log log' : List E} {j : StepJournal}
    {ph : BusPhase S} (h : ph.Holds F c log j) (hp : log <+: log') : ph.Holds F c log' j := by
  cases ph with
  | loading p =>
    cases p with
    | noop => trivial
    | dispatch own envs => exact h
  | seeded p start =>
    obtain ⟨hown, hst⟩ := h
    refine ⟨hown, fun hv => ?_⟩
    obtain ⟨hle, hfold⟩ := hst hv
    rw [take_eq_take_of_isPrefix hp hle]
    exact ⟨hle.trans hp.length_le, hfold⟩
  | encoded own envs bytes v =>
    obtain ⟨hown, st, hst, henc⟩ := h
    exact ⟨hown, st, hst.mono hp, henc⟩
  | ready own envs st v => exact ⟨h.1, h.2.mono hp⟩
  | _ => exact h

theorem StepJournal.Holds.mono {c : Command K S C E} {log log' : List E} {j : StepJournal}
    (h : j.Holds F c log) (hp : log <+: log') : j.Holds F c log' := by
  intro bytes v hj
  obtain ⟨own, st, hown, hst, henc⟩ := h bytes v hj
  exact ⟨own, st, hown, hst.mono hp, henc⟩

/-! ### The invariant -/

variable (F) in
/-- A command, as the store and the history have it. -/
structure Fleet.Minds (s : BusSys κ K S C E) (w : ℕ) (d : Dispatch K S C E) : Prop where
  /-- Nothing has happened before the command is there. -/
  idle : d.command = none → d.phase = .off ∧ d.journal = ⟨none, none, none⟩
  runs : ∀ c, d.command = some c → F.Runs c.sid c.runtime
  append : ∀ own, d.journal.append = some own →
    s.sys.procs (.inr (w, own.attempt)) = .returned (.ok own.result)
  journal : ∀ c, d.command = some c → d.journal.Holds F c (s.log c.sid)
  phase : ∀ c, d.command = some c → d.phase.Holds F c (s.log c.sid) d.journal

variable (F D) in
/-- The store and the commands agree with the history of the commits. -/
structure Fleet.Attends (s : BusSys κ K S C E) : Prop where
  faithful : F.Faithful D s.sys
  minds : ∀ w, F.Minds s w (s.dispatch w)
  /-- The `Handle` calls of a command are for its stream. -/
  calls : ∀ w n, (s.sys.procs (.inr (w, n))).Of fun call =>
    ∃ c, (s.dispatch w).command = some c ∧ call.sid = c.sid
  owns : ∀ w n r, s.sys.procs (.inr (w, n)) = .returned (.ok r) → r = .zero ∨
    ∃ c, (s.dispatch w).command = some c ∧ F.Owns D s c.sid (.inr (w, n)) r
  handed : ∀ x ∈ s.handed, ∃ c, (s.dispatch x.dispatch).command = some c ∧
    (s.dispatch x.dispatch).journal.Dispatches x.own ∧
    F.StateAt c.sid (s.log c.sid) x.own x.state x.version

/-- The streams have grown, and what calls have returned is kept. -/
structure BusSys.Onward (s s' : BusSys κ K S C E) : Prop where
  log : ∀ sid, s.log sid <+: s'.log sid
  commits : s.sys.commits ⊆ s'.sys.commits
  returned : ∀ i res, s.sys.procs i = .returned res →
    s'.sys.procs i = .returned res ∧ s'.stored i = s.stored i

theorem Fleet.Minds.mono {w : ℕ} {d : Dispatch K S C E} (h : F.Minds s w d) (ho : s.Onward s') :
    F.Minds s' w d where
  idle := h.idle
  runs := h.runs
  append own hown := (ho.returned _ _ (h.append own hown)).1
  journal c hc := (h.journal c hc).mono (ho.log _)
  phase c hc := (h.phase c hc).mono (ho.log _)

theorem Fleet.Owns.mono {sid : StreamID} {i : BusCall} {r : AppendResult} (h : F.Owns D s sid i r)
    (ho : s.Onward s') (hi : s'.stored i = s.stored i) : F.Owns D s' sid i r where
  pos := h.pos
  range := h.range
  le := h.le.trans (ho.log sid).length_le
  batch := by
    obtain ⟨b, hb, hcall, hkey, htake⟩ := h.batch
    have hle : r.startVersion - 1 ≤ (s.log sid).length :=
      (Nat.sub_le _ _).trans (h.range.trans h.le)
    refine ⟨b, ho.commits hb, hcall, hkey, ?_⟩
    rw [take_eq_take_of_isPrefix (ho.log sid) h.le, take_eq_take_of_isPrefix (ho.log sid) hle]
    exact htake
  row row hrow := by
    rw [take_eq_take_of_isPrefix (ho.log sid) h.le]
    exact h.row row (hi ▸ hrow)

/-- A result that is not that of an append has no events. -/
theorem Fleet.Attends.owns_mono (h : F.Attends D s) (ho : s.Onward s') {w n : ℕ}
    {r : AppendResult} (hr : s.sys.procs (.inr (w, n)) = .returned (.ok r)) :
    r = .zero ∨ ∃ c, (s.dispatch w).command = some c ∧ F.Owns D s' c.sid (.inr (w, n)) r := by
  rcases h.owns w n r hr with hz | ⟨c, hc, hown⟩
  · exact Or.inl hz
  · exact Or.inr ⟨c, hc, hown.mono ho (ho.returned _ _ hr).2⟩

/-! ### Steps of one command -/

/-- Bytes that encode a fold are decoded to it. -/
theorem BusPhase.Holds.decoded (hJ : F.Journals) {c : Command K S C E}
    (hrt : F.Runs c.sid c.runtime) {log : List E} {j : StepJournal} {own : OwnAppend}
    (hown : j.Dispatches own) {st : S} {v : ℕ} (hst : F.StateAt c.sid log own st v)
    {bytes : Option Bytes} (henc : c.runtime.encodeState st = .ok bytes) (envs : List Envelope) :
    (BusPhase.decoded own envs v (c.runtime.decodeState bytes)).Holds F c log j := by
  rw [hJ.decodeState hrt henc]
  exact ⟨hown, hst⟩

/-- **The step `read-state` reads a fold of all events there are at its second read.** -/
theorem Fleet.Faithful.loadTail_eq {s : Sys BusCall κ K S C E} (h : F.Faithful D s)
    {sid : StreamID} {rt : Runtime K S C E} (hrt : F.Runs sid rt) {start st : S × ℕ} {k k' : K}
    (hstart : sid.Valid → start.2 ≤ (Occ.logOf s.commits sid).length ∧
      start.1 = F.fold sid ((Occ.logOf s.commits sid).take start.2))
    (hl : rt.loadTail sid start (readStream D s.db sid start.2) k = .ok st k') :
    st = (F.fold sid (Occ.logOf s.commits sid), (Occ.logOf s.commits sid).length) := by
  obtain ⟨envs, hread, -⟩ := Runtime.loadTail_eq_ok.1 hl
  have hdense := h.ordered.wf.dense
  have hv := ((readStream_eq_ok (hdense sid)).1 hread).1
  have hlen := h.logs.length_eq hv
  have hres := h.logs.loadTail hdense hrt (hlen ▸ (hstart hv).1) (fun hv => (hstart hv).2) hread k
  rw [← hread, hl, hlen] at hres
  exact (EStateM.Result.ok.inj hres).1

theorem Command.Goes.holds (hJ : F.Journals) (hf : F.Faithful D s.sys) {c : Command K S C E}
    (hrt : F.Runs c.sid c.runtime) {j j' : StepJournal} {ph ph' : BusPhase S} {k k' : K}
    (h : c.Goes D s.sys.db (j, ph, k) (j', ph', k'))
    (hown : ∀ own, j.Dispatches own → own.result.endVersion ≤ (s.log c.sid).length)
    (hj : j.Holds F c (s.log c.sid)) (hph : ph.Holds F c (s.log c.sid) j) :
    j'.append = j.append ∧ j'.Holds F c (s.log c.sid) ∧ ph'.Holds F c (s.log c.sid) j' := by
  cases h with
  | noop => exact ⟨rfl, hj, trivial⟩
  | envelopesKept hne _ => exact ⟨rfl, hj, hph, hne⟩
  | envelopesRead hne _ => exact ⟨rfl, hj, hph, hne⟩
  | journalEnvelopes => exact ⟨rfl, hj, hph⟩
  | @seed _ _ p fault =>
    refine ⟨rfl, hj, fun own envs hp => ?_, fun hv => ?_⟩
    · subst hp
      exact hph
    · -- the cached state is a fold, and not ahead of its stream
      exact ⟨hf.logs.length_eq hv ▸ seed_version_le hf.ordered.wf fault,
        hf.caches.seed hv hrt fault⟩
  | stateKept hst =>
    obtain ⟨own, st, happ, hst, henc⟩ := hj _ _ hst
    obtain rfl := Option.some.inj (hph.1.symm.trans happ)
    exact ⟨rfl, hj, .decoded hJ hrt hph hst henc _⟩
  | loaded hl => exact ⟨rfl, hj, trivial⟩
  | @encoded _ _ _ own envs start st bytes hl henc =>
    obtain ⟨hdis, hstart⟩ := hph
    have hdis := hdis own envs rfl
    obtain rfl := hf.loadTail_eq hrt hstart hl
    refine ⟨rfl, hj, hdis, _, ⟨?_, hown own hdis, Nat.le_refl _⟩, henc⟩
    rw [List.take_length]
  | journalState =>
    obtain ⟨hdis, st, hst, henc⟩ := hph
    refine ⟨rfl, fun bytes v he => ?_, .decoded hJ hrt hdis hst henc _⟩
    cases he
    exact ⟨_, st, hdis.1, hst, henc⟩
  | failed => exact ⟨rfl, hj, trivial⟩

namespace Fleet.Attends

theorem onward_keys {s' : BusSys κ K S C E} {k : K} (hsys : s'.sys = { s.sys with keys := k })
    (hst : s'.stored = s.stored) : s.Onward s' where
  log sid := by
    rw [BusSys.log, BusSys.log, hsys]
  commits := by
    rw [hsys]
    exact fun _ hb => hb
  returned i res hi := by
    rw [hsys, hst]
    exact ⟨hi, rfl⟩

/-- A step of one command that writes nothing to the store and keeps its journaled append. -/
theorem dispatched (h : F.Attends D s) {w : ℕ} {d : Dispatch K S C E} {k : K}
    {hs : List (Handed S E)} {rs : List (ℕ × OwnAppend)}
    (hcmd : d.command = (s.dispatch w).command) (hd : F.Minds s w d)
    (hkeep : ∀ own, (s.dispatch w).journal.append = some own → d.journal.append = some own)
    (hhs : ∀ x ∈ hs, x ∈ s.handed ∨ x.dispatch = w ∧ ∃ c, d.command = some c ∧
      d.journal.Dispatches x.own ∧ F.StateAt c.sid (s.log c.sid) x.own x.state x.version) :
    F.Attends D { s.setDispatch w d with
      sys := { s.sys with keys := k }, handed := hs, ranges := rs } := by
  have hother : ∀ v, (s.setDispatch w d).dispatch v = if v = w then d else s.dispatch v :=
    fun _ => rfl
  have hcommand : ∀ v, ((s.setDispatch w d).dispatch v).command = (s.dispatch v).command := by
    intro v
    rw [hother]
    split_ifs with hv
    · rw [hv, hcmd]
    · rfl
  have hown := h.faithful.ordered
  have ho : s.Onward { s.setDispatch w d with
      sys := { s.sys with keys := k }, handed := hs, ranges := rs } :=
    onward_keys rfl rfl
  refine ⟨⟨⟨hown.wf, hown.procs, hown.rebuild⟩, h.faithful.streams, h.faithful.logs,
    h.faithful.caches, h.faithful.procs, h.faithful.history, h.faithful.returned⟩, fun v => ?_,
    fun v n => ?_, fun v n r hr => ?_, fun x hx => ?_⟩
  · show F.Minds _ v ((s.setDispatch w d).dispatch v)
    rw [hother]
    split_ifs with hv
    · subst hv
      exact hd.mono ho
    · exact (h.minds v).mono ho
  · exact (h.calls v n).imp fun call hc => by rwa [← hcommand v] at hc
  · rw [show (BusSys.dispatch _ v).command = _ from hcommand v]
    exact h.owns_mono ho hr
  · rcases hhs x hx with hx | ⟨hw, c, hc, hdis, hst⟩
    · obtain ⟨c, hc, hdis, hst⟩ := h.handed x hx
      refine ⟨c, (hcommand _).trans hc, ⟨?_, hdis.2⟩, hst⟩
      show ((s.setDispatch w d).dispatch x.dispatch).journal.append = some x.own
      rw [hother]
      split_ifs with hv
      · exact hkeep _ (hv ▸ hdis.1)
      · exact hdis.1
    · refine ⟨c, ?_, ?_, hst⟩
      · show ((s.setDispatch w d).dispatch x.dispatch).command = some c
        rw [hother, if_pos hw, hc]
      · show ((s.setDispatch w d).dispatch x.dispatch).journal.Dispatches x.own
        rw [hother, if_pos hw]
        exact hdis

/-- A step that changes the phase of a command only. -/
theorem minds_phase (h : F.Attends D s) {w : ℕ} {ph : BusPhase S}
    (hoff : (s.dispatch w).command = none → ph = .off)
    (hph : ∀ c, (s.dispatch w).command = some c →
      ph.Holds F c (s.log c.sid) (s.dispatch w).journal) :
    F.Minds s w { s.dispatch w with phase := ph } where
  idle hc := ⟨hoff hc, ((h.minds w).idle hc).2⟩
  runs := (h.minds w).runs
  append := (h.minds w).append
  journal := (h.minds w).journal
  phase := hph

/-- The events of a journaled append are in the log. -/
theorem owns_of_journal (h : F.Attends D s) {w : ℕ} {c : Command K S C E} {own : OwnAppend}
    (hc : (s.dispatch w).command = some c) (hown : (s.dispatch w).journal.Dispatches own) :
    F.Owns D s c.sid (.inr (w, own.attempt)) own.result := by
  rcases h.owns w _ _ ((h.minds w).append own hown.1) with hz | ⟨c', hc', howns⟩
  · exact absurd hz hown.2
  · obtain rfl := Option.some.inj (hc.symm.trans hc')
    exact howns

theorem goes (hJ : F.Journals) (h : F.Attends D s) {w : ℕ} {c : Command K S C E} {j : StepJournal}
    {ph : BusPhase S} {k : K} (hc : (s.dispatch w).command = some c)
    (hg : c.Goes D s.sys.db ((s.dispatch w).journal, (s.dispatch w).phase, s.sys.keys) (j, ph, k)) :
    F.Attends D { s.setDispatch w { s.dispatch w with journal := j, phase := ph } with
      sys := { s.sys with keys := k } } := by
  have hm := h.minds w
  obtain ⟨happ, hj, hph⟩ := hg.holds hJ h.faithful (hm.runs c hc)
    (fun own hown => (h.owns_of_journal hc hown).le) (hm.journal c hc) (hm.phase c hc)
  refine h.dispatched (d := { s.dispatch w with journal := j, phase := ph }) rfl ?_
    (fun own hown => happ.trans hown) fun x hx => Or.inl hx
  have hthe : ∀ c', (s.dispatch w).command = some c' → c' = c := fun c' hc' =>
    Option.some.inj (hc'.symm.trans hc)
  exact {
    idle := fun hn => by
      rw [show (s.dispatch w).command = none from hn] at hc
      cases hc
    runs := hm.runs
    append := fun own hown => hm.append own (happ ▸ hown)
    journal := fun c' hc' => by rw [hthe c' hc']; exact hj
    phase := fun c' hc' => by rw [hthe c' hc']; exact hph }

theorem journaled (h : F.Attends D s) {w n : ℕ} {r : AppendResult}
    (hp : (s.dispatch w).phase = .appending n)
    (hr : s.sys.procs (.inr (w, n)) = .returned (.ok r)) :
    F.Attends D { s.setDispatch w { s.dispatch w with
        journal := { (s.dispatch w).journal with append := some ⟨n, r⟩ }
        phase := .appended ⟨n, r⟩ } with
      ranges := s.ranges ++ [(w, ⟨n, r⟩)] } := by
  have hm := h.minds w
  -- while the append step runs, its result is not in the journal
  have hnone : ∀ c, (s.dispatch w).command = some c → (s.dispatch w).journal.append = none := by
    intro c hc
    have := hm.phase c hc
    rw [hp] at this
    exact this
  have hcmd : (s.dispatch w).command ≠ none := by
    intro hc
    have := (hm.idle hc).1
    rw [hp] at this
    cases this
  obtain ⟨c, hc⟩ := Option.ne_none_iff_exists'.1 hcmd
  refine h.dispatched (d := { s.dispatch w with
    journal := { (s.dispatch w).journal with append := some ⟨n, r⟩ }
    phase := .appended ⟨n, r⟩ }) rfl ?_ (fun own hown => ?_) fun x hx => Or.inl hx
  · exact {
      idle := fun hn => absurd hn hcmd
      runs := hm.runs
      append := fun own hown => by
        cases hown
        exact hr
      journal := fun c' hc' bytes v hst => by
        -- and no state can be
        obtain ⟨own, -, happ, -⟩ := hm.journal c' hc' bytes v hst
        rw [hnone c' hc'] at happ
        cases happ
      phase := fun _ _ => rfl }
  · rw [hnone c hc] at hown
    cases hown

/-! ### Steps of the calls -/

theorem onward_client {l : Label BusCall K S C E} {sys' : Sys BusCall κ K S C E}
    (hl : F.Handles l) (hm : Moves D H s.sys l sys') :
    s.Onward { s with sys := sys', stored := s.storedAfter sys' l } := by
  have hcommits : sys'.commits = s.sys.commits ∨ ∃ b, sys'.commits = s.sys.commits ++ [b] := by
    rcases hl.writes hm.writes with ⟨-, hc⟩ | ⟨_, _, _, _, _, _, _, -, -, -, -, hc⟩
    · exact Or.inl hc
    · exact Or.inr ⟨_, hc⟩
  refine ⟨fun sid => ?_, ?_, fun i res hi => ⟨?_, ?_⟩⟩
  · show Occ.logOf s.sys.commits sid <+: Occ.logOf sys'.commits sid
    rcases hcommits with hc | ⟨b, hc⟩
    · rw [hc]
    · rw [hc]
      exact Occ.logOf_prefix
  · show s.sys.commits ⊆ sys'.commits
    rcases hcommits with hc | ⟨b, hc⟩
    · rw [hc]
      exact fun _ hb => hb
    · rw [hc]
      exact fun _ hb => List.mem_append_left _ hb
  · rcases hm.proc i with he | hn
    · exact he.trans hi
    · rw [hi] at hn
      exact hn.not_returned.elim
  · show s.storedAfter sys' l i = s.stored i
    unfold BusSys.storedAfter
    rw [hi]
    split
    · rename_i hd _
      cases hd
    · rfl

/-- **The append of a command commits its batch, and the row it writes holds the fold of the log
with that batch.** -/
theorem owns_of_append (hF : F.RoundTrips D) (h : F.Attends D s) {i : BusCall}
    {sys' : Sys BusCall κ K S C E} {c : Call K S C E} {evts : List E} {p : AppendParams}
    {en : Engine} {r : AppendResult} (hp : s.sys.procs i = .decided c evts p)
    (ha : append D H en p s.sys.db = (.ok r, sys'.db))
    (hr : sys'.procs i = .returned (.ok r))
    (hc : sys'.commits = s.sys.commits ++ [⟨i, c.sid, c.cmd, evts⟩]) :
    F.Owns D { s with sys := sys', stored := s.storedAfter sys' (.append i en) } c.sid i r := by
  obtain ⟨rows, happ⟩ := append_ok ha
  obtain ⟨hstart, hend⟩ := append_versions ha
  obtain ⟨hsid, hexp, hrt, hv, hd⟩ := h.faithful.of_decided hp happ
  -- the log before and after, and their lengths
  have hlog : Occ.logOf sys'.commits c.sid = s.log c.sid ++ evts := by
    rw [hc]
    exact Occ.logOf_concat_self (b := ⟨i, c.sid, c.cmd, evts⟩)
  have hold : (s.sys.db.stream c.sid).length = (s.log c.sid).length :=
    h.faithful.logs.length_eq hv
  have hlogs := h.faithful.logs_commit hF hp happ
  have hlen : p.events.length = evts.length := by
    have hnew := hlogs.length_eq hv
    rw [← hc, hlog, happ.stream_key (by rw [hsid]), List.length_append, List.length_append,
      happ.written.length_eq] at hnew
    omega
  have hpos : 0 < evts.length := List.length_pos_iff.2 hd.nonempty
  have hendLog : r.endVersion = (Occ.logOf sys'.commits c.sid).length := by
    rw [hlog, List.length_append, ← hold, ← hexp, hend, hlen]
  refine ⟨by omega, by omega, Nat.le_of_eq hendLog, ⟨⟨i, c.sid, c.cmd, evts⟩, ?_, rfl, rfl, ?_⟩,
    fun row hrow => ?_⟩
  · show _ ∈ sys'.commits
    rw [hc]
    exact List.mem_append_right _ (List.mem_singleton.2 rfl)
  · show (Occ.logOf sys'.commits c.sid).take _ = (Occ.logOf sys'.commits c.sid).take _ ++ evts
    rw [hendLog, List.take_length, hlog, hstart, Nat.add_sub_cancel, hexp, hold, List.take_left]
  · -- the row is the one the append has written
    have hrow : s.storedAfter sys' (.append i en) i = some row := hrow
    unfold BusSys.storedAfter at hrow
    rw [hp, hr] at hrow
    simp only [if_true] at hrow
    obtain ⟨b, hb, hcached⟩ := Option.bind_eq_some_iff.1 hrow
    rcases happ.stateCache with ⟨-, hn⟩ | ⟨_, col, -, -, hsc⟩
    · rw [hn] at hb
      cases hb
    · have hof : (stateCacheRow D en p col).ofStream c.sid = true :=
        StateCacheRow.ofStream_iff.2 (by rw [← hsid]; rfl)
      have hmem : stateCacheRow D en p col ∈ sys'.db.stateCache.rows := by
        rw [hsc]
        exact Table.mem_upsert.2 (Or.inl rfl)
      rw [Db.cachedRow_eq_some_iff.2 ⟨hmem, hof⟩] at hcached
      obtain rfl := Option.some.inj hcached
      have hfold := h.faithful.caches_commit hF hp happ _ hmem _ hv hof
      rw [← hc] at hfold
      exact ⟨hend.symm, hend ▸ hfold⟩

theorem client (hF : F.RoundTrips D) (h : F.Attends D s) {l : Label BusCall K S C E}
    {sys' : Sys BusCall κ K S C E} (hl : F.Handles l)
    (hbegin : ∀ w n call, l = .begin (.inr (w, n)) call →
      ∃ c, (s.dispatch w).command = some c ∧ call.sid = c.sid)
    (hm : Moves D H s.sys l sys') :
    F.Attends D { s with sys := sys', stored := s.storedAfter sys' l } := by
  have ho := onward_client (s := s) hl hm
  refine ⟨h.faithful.step hF hl hm, fun w => (h.minds w).mono ho, fun w n => ?_,
    fun w n r hr => ?_, fun x hx => ?_⟩
  · by_cases hcall : l.call = some (.inr (w, n))
    · rcases hm.proc (.inr (w, n)) with he | hn
      · rw [show Sys.procs _ _ = _ from he]
        exact h.calls w n
      · refine hn.of (fun i call hb => ?_) (h.calls w n)
        subst hb
        obtain rfl := Option.some.inj hcall
        exact hbegin w n call rfl
    · rw [show Sys.procs _ _ = _ from hm.procs_of_ne hcall]
      exact h.calls w n
  · rcases hm.returned_ok hr with hold | hz | ⟨c, evts, p, en, rfl, hp, ha, hc⟩
    · exact h.owns_mono ho hold
    · exact Or.inl hz
    · have hof := h.calls w n
      rw [hp] at hof
      obtain ⟨⟨c', hc', hsid⟩, -⟩ := hof
      exact Or.inr ⟨c', hc', hsid ▸ h.owns_of_append hF hp ha hr hc⟩
  · obtain ⟨c, hc, hdis, hst⟩ := h.handed x hx
    exact ⟨c, hc, hdis, hst.mono (ho.log _)⟩

/-- A command is submitted: nothing has been done for it. -/
theorem submit (h : F.Attends D s) {w : ℕ} {c : Command K S C E}
    (hn : (s.dispatch w).command = none) (hrt : F.Runs c.sid c.runtime) :
    F.Attends D (s.setDispatch w { s.dispatch w with command := some c }) := by
  obtain ⟨hoff, hj⟩ := (h.minds w).idle hn
  have hother : ∀ v, (s.setDispatch w { s.dispatch w with command := some c }).dispatch v =
      if v = w then { s.dispatch w with command := some c } else s.dispatch v := fun _ => rfl
  -- a command that is known is another one
  have hkeep : ∀ v c', (s.dispatch v).command = some c' →
      (s.setDispatch w { s.dispatch w with command := some c }).dispatch v = s.dispatch v := by
    intro v c' hc'
    rw [hother, if_neg]
    rintro rfl
    rw [hn] at hc'
    cases hc'
  have ho : s.Onward (s.setDispatch w { s.dispatch w with command := some c }) :=
    ⟨fun _ => List.prefix_rfl, fun _ hb => hb, fun _ _ hi => ⟨hi, rfl⟩⟩
  refine ⟨h.faithful, fun v => ?_, fun v n => ?_, fun v n r hr => ?_, fun x hx => ?_⟩
  · rw [hother]
    split_ifs with hv
    · subst hv
      exact {
        idle := fun he => by cases he
        runs := fun c' hc' => by
          cases hc'
          exact hrt
        append := fun own hown => by
          simp only [hj] at hown
          cases hown
        journal := fun c' _ bytes v hst => by
          simp only [hj] at hst
          cases hst
        phase := fun c' _ => by
          show BusPhase.Holds F c' _ _ (s.dispatch v).phase
          rw [hoff]
          trivial }
    · exact (h.minds v).mono ho
  · refine (h.calls v n).imp fun call hc => ?_
    obtain ⟨c', hc', hsid⟩ := hc
    exact ⟨c', by rw [hkeep v c' hc', hc'], hsid⟩
  · rcases h.owns v n r hr with hz | ⟨c', hc', hown⟩
    · exact Or.inl hz
    · exact Or.inr ⟨c', by rw [hkeep v c' hc', hc'], hown.mono ho rfl⟩
  · obtain ⟨c', hc', hdis, hst⟩ := h.handed x hx
    exact ⟨c', by rw [hkeep _ c' hc', hc'], by rw [hkeep _ c' hc']; exact hdis, hst⟩

/-- The append step is run: a call begins. -/
theorem attempt (hF : F.RoundTrips D) (h : F.Attends D s) {w : ℕ} {c : Command K S C E}
    {call : Call K S C E} {sys' : Sys BusCall κ K S C E}
    (hc : (s.dispatch w).command = some c) (hnone : (s.dispatch w).journal.append = none)
    (hsid : call.sid = c.sid) (hrt : call.runtime = c.runtime)
    (hm : Moves D H s.sys (.begin (.inr (w, (s.dispatch w).attempts)) call) sys') :
    F.Attends D { s.setDispatch w { s.dispatch w with
        attempts := (s.dispatch w).attempts + 1
        phase := .appending (s.dispatch w).attempts } with
      sys := sys' } := by
  have hl : F.Runs call.sid call.runtime := by
    rw [hsid, hrt]
    exact (h.minds w).runs c hc
  have h₁ : F.Attends D { s with sys := sys' } := by
    refine h.client hF (l := .begin (.inr (w, (s.dispatch w).attempts)) call) hl ?_ hm
    rintro v n call' he
    cases he
    exact ⟨c, hc, hsid⟩
  refine h₁.dispatched (w := w) (d := { s.dispatch w with
    attempts := (s.dispatch w).attempts + 1
    phase := .appending (s.dispatch w).attempts }) rfl ?_ (fun own hown => hown)
    fun x hx => Or.inl hx
  have hm₁ := h₁.minds w
  exact {
    idle := fun hn => by
      rw [show (s.dispatch w).command = none from hn] at hc
      cases hc
    runs := hm₁.runs
    append := hm₁.append
    journal := hm₁.journal
    phase := fun _ _ => hnone }

/-! ### Every step -/

theorem start (k : K) : F.Attends D (BusSys.start k : BusSys κ K S C E) where
  faithful := .start k
  minds w := {
    idle := fun _ => ⟨rfl, rfl⟩
    runs := fun _ hc => by cases hc
    append := fun _ hown => by cases hown
    journal := fun _ hc => by cases hc
    phase := fun _ hc => by cases hc }
  calls _ _ := trivial
  owns _ _ _ hr := by cases hr
  handed _ hx := absurd hx List.not_mem_nil

/-- **Every step keeps the commands in agreement with the history.** -/
theorem step (hF : F.RoundTrips D) (hJ : F.Journals) (h : F.Attends D s) {l : BusStep K S C E}
    (hl : F.Dispatches l) (hm : BusMoves D H derive s l s') : F.Attends D s' := by
  -- a step that changes only the phase of a command
  have phase : ∀ {w : ℕ} {ph : BusPhase S} {hs : List (Handed S E)} {rs : List (ℕ × OwnAppend)},
      F.Minds s w { s.dispatch w with phase := ph } →
      (∀ x ∈ hs, x ∈ s.handed ∨ x.dispatch = w ∧ ∃ c, (s.dispatch w).command = some c ∧
        (s.dispatch w).journal.Dispatches x.own ∧
        F.StateAt c.sid (s.log c.sid) x.own x.state x.version) →
      F.Attends D { s.setDispatch w { s.dispatch w with phase := ph } with
        handed := hs, ranges := rs } := fun hd hhs =>
    h.dispatched rfl hd (fun _ hown => hown) hhs
  cases hm with
  | client hallow hm =>
    refine h.client hF hl (fun w n call he => ?_) hm
    -- the calls of a command are not begun by a client
    subst he
    cases hallow
  | submit hn => exact h.submit hn hl
  | replay hp hown =>
    refine phase (h.minds_phase (fun hc => ?_) fun c hc => hown) fun x hx => Or.inl hx
    rw [((h.minds _).idle hc).2] at hown
    cases hown
  | attempt hc _ hnone hm => exact h.attempt hF hc hnone rfl rfl hm
  | journalAppend hp hr => exact h.journaled hp hr
  | appendError hp hr =>
    refine phase (h.minds_phase (fun hc => ?_) fun c hc => trivial) fun x hx => Or.inl hx
    rw [((h.minds _).idle hc).1] at hp
    cases hp
  | goes hc hg => exact h.goes hJ hc hg
  | @fanOut w _ _ c own envs st v ph hs hc hp hph hhs =>
    have hready := (h.minds w).phase c hc
    rw [hp] at hready
    refine phase (h.minds_phase (fun hn => ?_) fun c hc => ?_) fun x hx => ?_
    · rw [hn] at hc
      cases hc
    · rcases hph with rfl | ⟨res, rfl⟩ <;> trivial
    · rcases List.mem_append.1 hx with hx | hx
      · exact Or.inl hx
      · obtain ⟨hw, rfl, rfl, rfl⟩ := hhs x hx
        exact Or.inr ⟨hw, c, hc, hready⟩
  | crash => exact phase (h.minds_phase (fun _ => rfl) fun _ _ => trivial) fun x hx => Or.inl hx

theorem of_reachable (hF : F.RoundTrips D) (hJ : F.Journals)
    (h : (F.busSystem D H derive glob).Reachable s) : F.Attends D s := by
  induction h with
  | init h₀ =>
    obtain ⟨k, rfl⟩ := h₀
    exact start k
  | step _ hstep ih => exact ih.step hF hJ hstep.1 (BusSys.moves hstep.2)

end Fleet.Attends

theorem Fleet.journal_journals : Fleet.journal.Journals := by
  intro sid v st bytes url h
  obtain rfl := (Prod.mk.inj (Except.ok.inj h)).1
  exact if_pos rfl

namespace Journal

/-- Journals behind commands. -/
abbrev Bus : Type := BusSys (Sqlite.columns Bytes) Unit (List UInt8) (List UInt8) UInt8

/-- The steps of commands on journals. -/
abbrev BusLabel : Type := BusStep Unit (List UInt8) (List UInt8) UInt8

/-- One step. -/
def busNext : Bus → BusLabel → Option Bus :=
  BusSys.next (Sqlite.dialect .small) .small UUID.mk fun _ _ => false

/-- The command that adds the note 5, with one subscriber, under the given idempotency key. -/
def command (key : String) : Command Unit (List UInt8) (List UInt8) UInt8 where
  runtime := runtime Unit true 1
  codec := codec
  subscribers := [⟨"mail", ⟨[], "", [], none⟩, .sync, .dlq⟩]
  sid := ⟨"acme", "journal", "1"⟩
  cmd := [5]
  idempotencyKey := key

/-- The steps of a `Handle` call that has begun. -/
def handled (i : BusCall) (id : String) : List BusLabel :=
  [.client (.getState i none), .client (.readStream i none),
    .client (.decide i fun n => ⟨id ++ toString n⟩), .client (.append i .calm)]

/-- Another client adds the note 7. -/
def otherNote : List BusLabel :=
  .client (.begin (.inl 0) (call Unit true 1 [7])) :: handled (.inl 0) "b"

/-- The engine runs the command, up to the return of `Handle`. -/
def invoked (n : ℕ) (id : String) : List BusLabel :=
  .invoke 0 ⟨⟨"c"⟩, ⟨"c"⟩, ⟨"c"⟩, 0, Actor.zero⟩ :: handled (.inr (0, n)) id

/-- The append of the command, and its envelopes. -/
def appendedNote : List BusLabel :=
  .submit 0 (command "") :: invoked 0 "a" ++
    [.journalAppend 0, .readEnvelopes 0 none, .journalEnvelopes 0]

/-- The state is read, and handed on. -/
def handOn : List BusLabel := [.seed 0 none, .tail 0 none, .journalState 0, .fanOut 0 [] none]

theorem dispatches_bus : ∀ l ∈ appendedNote ++ otherNote ++ handOn,
    Fleet.journal.Dispatches l := by
  simp [appendedNote, invoked, otherNote, handOn, handled, Fleet.Dispatches, Fleet.Handles, call,
    command, Fleet.journal_runs]

/-- A hand-over of a state: to whom, for which append, and the end of that append. -/
structure HandOver where
  recipient : Option String
  call : BusCall
  endVersion : ℕ
  state : List UInt8
  deriving DecidableEq

/-- What was handed on. -/
def handedOn (s : Bus) : List HandOver :=
  s.handed.map fun x =>
    ⟨x.recipient, .inr (x.dispatch, x.own.attempt), x.own.result.endVersion, x.state⟩

/-- The state an append has left in `state_cache`. -/
def storedBytes (s : Bus) (i : BusCall) : Option Bytes := (s.stored i).map StateCacheRow.state

theorem reachable_bus {s : Bus} {ls : List BusLabel} (hls : ∀ l ∈ ls, Fleet.journal.Dispatches l)
    (hs : TS.exec busNext (.start ()) ls = some s) :
    (Fleet.journal.busSystem (Sqlite.dialect .small) .small UUID.mk fun _ _ => false).Reachable s :=
  TS.Reachable.exec (.init ⟨(), rfl⟩) (fun l hl _ _ h => ⟨hls l hl, h⟩) hs

end Journal

end EventStore
