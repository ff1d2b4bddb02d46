import EventStore.Workflow.State

/-!
# Replays of the append step

The result of the append step is journaled after `Handle` has returned, and with it after the
commit; the store and the journal are two systems.  A command that is run again after a crash does
not append again if the result is in the journal.  If the crash has come between the commit and the
journal write, the append step is run again, as a new `Handle` call on the stream with the events of
the first; nothing relates the two, the `command_id` derived from the idempotency key is not
unique.

* `replayed_once` : **in a run without a crash in that window, a command commits at most one batch,
  and all its runs are given one version range.**
-/

namespace EventStore

variable {K S C E : Type} {κ : Columns} {D : Dialect κ} {H : Hasher} {derive : String → UUID}
  {glob : String → String → Bool} {s s' : BusSys κ K S C E}

/-- The batch is one of the command's. -/
def Occ.Batch.isOf (w : ℕ) (b : Occ.Batch BusCall StreamID C E) : Bool :=
  match b.call with
  | .inr (v, _) => v == w
  | .inl _ => false

/-- The batches a command has committed. -/
def BusSys.batchesOf (s : BusSys κ K S C E) (w : ℕ) : List (Occ.Batch BusCall StreamID C E) :=
  s.sys.commits.filter (Occ.Batch.isOf w)

/-- The append step has committed, and its result is not in the journal. -/
def BusSys.Unrecorded (s : BusSys κ K S C E) (w : ℕ) : Prop :=
  ∃ n, (s.dispatch w).phase = .appending n ∧ ∃ b ∈ s.sys.commits, b.call = .inr (w, n)

instance (s : BusSys κ K S C E) (w : ℕ) : Decidable (s.Unrecorded w) :=
  match hp : (s.dispatch w).phase with
  | .appending n =>
    decidable_of_iff (∃ b ∈ s.sys.commits, b.call = .inr (w, n))
      ⟨fun h => ⟨n, hp, h⟩, fun ⟨m, hm, h⟩ => by
        rw [hp] at hm
        cases hm
        exact h⟩
  | .off | .appended .. | .readBack .. | .loading .. | .seeded .. | .encoded .. | .ready ..
  | .compensating | .returned .. => isFalse fun ⟨m, hm, _⟩ => by simp [hp] at hm

/-- The step is no crash between a commit and its journal write. -/
def BusSys.Recorded (s : BusSys κ K S C E) : BusStep K S C E → Prop
  | .crash w => ¬ s.Unrecorded w
  | _ => True

instance (s : BusSys κ K S C E) (l : BusStep K S C E) : Decidable (s.Recorded l) :=
  match l with
  | .crash w => inferInstanceAs (Decidable (¬ s.Unrecorded w))
  | .client _ | .submit .. | .invoke .. | .journalAppend _ | .readEnvelopes .. | .journalEnvelopes _
  | .seed .. | .tail .. | .journalState _ | .fanOut .. => isTrue trivial

variable (D H derive glob) in
/-- Commands on a durable engine that does not crash between a commit and its journal write. -/
def recordedSystem : TS (BusSys κ K S C E) (BusStep K S C E) :=
  (busSystem D H derive glob).restrict BusSys.Recorded

/-! ### The phases of a command by itself -/

theorem BusPhase.decoded_ne_appending {own : OwnAppend} {envs : List Envelope} {v n : ℕ}
    {res : Except Err S} : BusPhase.decoded own envs v res ≠ .appending n := by
  cases res <;> simp [BusPhase.decoded]

/-- Such a step neither begins nor ends a run of the append step. -/
theorem Command.Goes.apart {c : Command K S C E} {db : Db κ} {j j' : StepJournal}
    {ph ph' : BusPhase S} {k k' : K} (h : c.Goes D db (j, ph, k) (j', ph', k')) :
    j'.append = j.append ∧ (∀ n, ph ≠ .appending n) ∧ ∀ n, ph' ≠ .appending n := by
  cases h with
  | stateKept => exact ⟨rfl, by simp, fun _ => BusPhase.decoded_ne_appending⟩
  | journalState => exact ⟨rfl, by simp, fun _ => BusPhase.decoded_ne_appending⟩
  | failed hne => exact ⟨rfl, hne, by simp⟩
  | _ => exact ⟨rfl, by simp, by simp⟩

/-! ### The invariant -/

/-- Who has committed has returned, and commits once; a batch of a command is that of the run in
the journal, or of the one that is going on. -/
structure BusSys.Once (s : BusSys κ K S C E) : Prop where
  returned : ∀ b ∈ s.sys.commits, ∃ r, s.sys.procs b.call = .returned (.ok r)
  nodup : (s.sys.commits.map Occ.Batch.call).Nodup
  fresh : ∀ w n, (s.dispatch w).attempts ≤ n → s.sys.procs (.inr (w, n)) = .idle
  appending : ∀ w n, (s.dispatch w).phase = .appending n →
    (s.dispatch w).journal.append = none ∧ n < (s.dispatch w).attempts
  committed : ∀ b ∈ s.sys.commits, ∀ w n, b.call = .inr (w, n) →
    (∃ r, (s.dispatch w).journal.append = some ⟨n, r⟩) ∨ (s.dispatch w).phase = .appending n
  ranges : ∀ x ∈ s.ranges, (s.dispatch x.1).journal.append = some x.2

namespace BusSys.Once

theorem start (k : K) : (BusSys.start k : BusSys κ K S C E).Once where
  returned _ hb := absurd hb List.not_mem_nil
  nodup := .nil
  fresh _ _ _ := rfl
  appending _ _ hp := by cases hp
  committed _ hb := absurd hb List.not_mem_nil
  ranges _ hx := absurd hx List.not_mem_nil

/-- A command that neither has its append in the journal nor runs the step has no batch. -/
theorem not_committed (h : s.Once) {w n : ℕ} (hj : (s.dispatch w).journal.append = none)
    (hp : ∀ n, (s.dispatch w).phase ≠ .appending n) {b : Occ.Batch BusCall StreamID C E}
    (hb : b ∈ s.sys.commits) : b.call ≠ .inr (w, n) := by
  intro hcall
  rcases h.committed b hb w n hcall with ⟨r, hr⟩ | happ
  · rw [hj] at hr
    cases hr
  · exact hp n happ

/-- A step of one command that neither calls the store nor begins a run of the append step. -/
theorem dispatched (h : s.Once) {w : ℕ} {d : Dispatch K S C E} {k : K} {hs : List (Handed S E)}
    {rs : List (ℕ × OwnAppend)} (hatt : d.attempts = (s.dispatch w).attempts)
    (hph : ∀ n, d.phase ≠ .appending n)
    (hkeep : ∀ own, (s.dispatch w).journal.append = some own → d.journal.append = some own)
    (hcom : ∀ b ∈ s.sys.commits, ∀ n, b.call = .inr (w, n) → (s.dispatch w).phase = .appending n →
      ∃ r, d.journal.append = some ⟨n, r⟩)
    (hrs : ∀ x ∈ rs, x ∈ s.ranges ∨ x.1 = w ∧ d.journal.append = some x.2) :
    BusSys.Once { s.setDispatch w d with
      sys := { s.sys with keys := k }, handed := hs, ranges := rs } := by
  have hother : ∀ v, (s.setDispatch w d).dispatch v = if v = w then d else s.dispatch v :=
    fun _ => rfl
  refine ⟨h.returned, h.nodup, fun v n hn => h.fresh v n ?_, fun v n hp => ?_,
    fun b hb v n hcall => ?_, fun x hx => ?_⟩
  · have hn : ((s.setDispatch w d).dispatch v).attempts ≤ n := hn
    rw [hother] at hn
    split_ifs at hn with hv
    · rw [hv, ← hatt]
      exact hn
    · exact hn
  · have hp : ((s.setDispatch w d).dispatch v).phase = .appending n := hp
    show ((s.setDispatch w d).dispatch v).journal.append = none ∧ _ <
      ((s.setDispatch w d).dispatch v).attempts
    rw [hother] at hp ⊢
    split_ifs at hp ⊢ with hv
    · exact absurd hp (hph n)
    · exact h.appending v n hp
  · show (∃ r, ((s.setDispatch w d).dispatch v).journal.append = some ⟨n, r⟩) ∨
      ((s.setDispatch w d).dispatch v).phase = .appending n
    rw [hother]
    split_ifs with hv
    · subst hv
      refine Or.inl ?_
      rcases h.committed b hb v n hcall with ⟨r, hr⟩ | happ
      · exact ⟨r, hkeep _ hr⟩
      · exact hcom b hb n hcall happ
    · exact h.committed b hb v n hcall
  · show ((s.setDispatch w d).dispatch x.1).journal.append = some x.2
    rw [hother]
    rcases hrs x hx with hx | ⟨hw, hj⟩
    · split_ifs with hv
      · exact hkeep _ (hv ▸ h.ranges x hx)
      · exact h.ranges x hx
    · rw [if_pos hw]
      exact hj

/-- A call of a command moves only in the run of the append step that is going on. -/
theorem allows_runs {l : Label BusCall K S C E} {w n : ℕ} (h : s.allows l = true)
    (hcall : l.call = some (.inr (w, n))) : (s.dispatch w).phase = .appending n := by
  have hruns : (s.dispatch w).phase.runs n = true := by
    cases l with
    | begin i c =>
      obtain rfl := Option.some.inj hcall
      cases h
    | getState i _ | readStream i _ | decide i _ | append i _ =>
      obtain rfl := Option.some.inj hcall
      exact h
    | _ => cases hcall
  unfold BusPhase.runs at hruns
  split at hruns
  · rename_i m hm
    rw [hm, eq_of_beq hruns]
  · cases hruns

/-- Only an append adds a batch, for a call that had decided. -/
theorem commits_cases {s s' : Sys BusCall κ K S C E} {l : Label BusCall K S C E}
    (h : s.Writes D H l s') : s'.commits = s.commits ∨
      ∃ b c evts p en r, l = .append b.call en ∧ s.procs b.call = .decided c evts p ∧
        s'.procs b.call = .returned (.ok r) ∧ s'.commits = s.commits ++ [b] := by
  cases h with
  | append he hp hr _ hc => exact Or.inr ⟨⟨_, _, _, _⟩, _, _, _, _, _, he, hp, hr, hc⟩
  | quiet _ _ hc => exact Or.inl hc
  | direct _ _ hc => exact Or.inl hc
  | wipe _ _ _ hc => exact Or.inl hc
  | upsert _ _ _ _ hc => exact Or.inl hc

theorem stays_returned (h : s.Once) {l : Label BusCall K S C E} {sys' : Sys BusCall κ K S C E}
    (hm : Moves D H s.sys l sys') {b : Occ.Batch BusCall StreamID C E} (hb : b ∈ s.sys.commits) :
    ∃ r, sys'.procs b.call = .returned (.ok r) := by
  obtain ⟨r, hr⟩ := h.returned b hb
  rcases hm.proc b.call with he | hn
  · exact ⟨r, he.trans hr⟩
  · rw [hr] at hn
    exact hn.not_returned.elim

theorem client (h : s.Once) {l : Label BusCall K S C E} {sys' : Sys BusCall κ K S C E}
    (hallow : s.allows l = true) (hm : Moves D H s.sys l sys') :
    BusSys.Once { s with sys := sys', stored := s.storedAfter sys' l } := by
  refine ⟨fun b hb => ?_, ?_, fun w n hn => ?_, h.appending, fun b hb w n hcall => ?_, h.ranges⟩
  · rcases commits_cases hm.writes with hc | ⟨b', _, _, _, _, r, -, -, hr, hc⟩
    · exact h.stays_returned hm (hc ▸ hb)
    · rcases List.mem_append.1 (hc ▸ hb) with hb | hb
      · exact h.stays_returned hm hb
      · obtain rfl := List.mem_singleton.1 hb
        exact ⟨r, hr⟩
  · rcases commits_cases hm.writes with hc | ⟨b', _, _, _, _, r, -, hd, -, hc⟩
    · rw [show Sys.commits _ = _ from hc]
      exact h.nodup
    · rw [show Sys.commits _ = _ from hc, List.map_append, List.map_singleton,
        List.nodup_append_comm, List.singleton_append, List.nodup_cons]
      -- a call that has committed has returned, so it is not the one that appends
      refine ⟨fun hmem => ?_, h.nodup⟩
      obtain ⟨b, hb, he⟩ := List.mem_map.1 hmem
      obtain ⟨r', hr'⟩ := h.returned b hb
      rw [he, hd] at hr'
      cases hr'
  · rw [show Sys.procs _ _ = _ from hm.procs_of_ne fun hcall => ?_]
    · exact h.fresh w n hn
    · have hruns := allows_runs hallow hcall
      exact absurd (h.appending w n hruns).2 (Nat.not_lt.2 hn)
  · rcases commits_cases hm.writes with hc | ⟨b', _, _, _, _, r, hl, -, -, hc⟩
    · exact h.committed b (hc ▸ hb) w n hcall
    · rcases List.mem_append.1 (hc ▸ hb) with hb | hb
      · exact h.committed b hb w n hcall
      · obtain rfl := List.mem_singleton.1 hb
        exact Or.inr (allows_runs hallow (by rw [hl]; exact congrArg some hcall))

/-- A command is submitted. -/
theorem submit (h : s.Once) {w : ℕ} {c : Command K S C E} :
    (s.setDispatch w { s.dispatch w with command := some c }).Once := by
  -- the invariant is not about the command itself
  have hsame : ∀ v, let d := (s.setDispatch w { s.dispatch w with command := some c }).dispatch v
      d.attempts = (s.dispatch v).attempts ∧ d.journal = (s.dispatch v).journal ∧
        d.phase = (s.dispatch v).phase := by
    intro v
    simp only [BusSys.setDispatch]
    split_ifs with hv
    · rw [hv]
      exact ⟨rfl, rfl, rfl⟩
    · exact ⟨rfl, rfl, rfl⟩
  refine ⟨h.returned, h.nodup, fun v n hn => ?_, fun v n hp => ?_, fun b hb v n hcall => ?_,
    fun x hx => ?_⟩
  · rw [(hsame v).1] at hn
    exact h.fresh v n hn
  · rw [(hsame v).2.2] at hp
    rw [(hsame v).1, (hsame v).2.1]
    exact h.appending v n hp
  · rw [(hsame v).2.1, (hsame v).2.2]
    exact h.committed b hb v n hcall
  · rw [(hsame x.1).2.1]
    exact h.ranges x hx

/-- The append step is run: the command has committed nothing. -/
theorem attempt (h : s.Once) {w : ℕ} {call : Call K S C E} {sys' : Sys BusCall κ K S C E}
    (hp : (s.dispatch w).phase = .off) (hnone : (s.dispatch w).journal.append = none)
    (hm : Moves D H s.sys (.begin (.inr (w, (s.dispatch w).attempts)) call) sys') :
    BusSys.Once { s.setDispatch w { s.dispatch w with
        attempts := (s.dispatch w).attempts + 1
        phase := .appending (s.dispatch w).attempts } with
      sys := sys' } := by
  have hnot : ∀ {n : ℕ} {b : Occ.Batch BusCall StreamID C E}, b ∈ s.sys.commits →
      b.call ≠ .inr (w, n) := fun hb => h.not_committed hnone (by simp [hp]) hb
  have hcommits : sys'.commits = s.sys.commits := by
    rcases commits_cases hm.writes with hc | ⟨_, _, _, _, _, _, hl, -⟩
    · exact hc
    · cases hl
  refine ⟨fun b hb => h.stays_returned hm (hcommits ▸ hb), ?_, fun v n hn => ?_, fun v n hv => ?_,
    fun b hb v n hcall => ?_, fun x hx => ?_⟩
  · rw [show Sys.commits _ = _ from hcommits]
    exact h.nodup
  · -- the run that begins is the last of the command
    have hne : v = w → n ≠ (s.dispatch w).attempts := by
      rintro rfl rfl
      simp only [BusSys.setDispatch, if_true] at hn
      exact absurd hn (Nat.not_succ_le_self _)
    rw [show Sys.procs _ _ = _ from hm.procs_of_ne fun he => ?_]
    · refine h.fresh v n ?_
      simp only [BusSys.setDispatch] at hn
      split_ifs at hn with hv
      · rw [hv]
        exact Nat.le_of_succ_le hn
      · exact hn
    · cases he
      exact hne rfl rfl
  · simp only [BusSys.setDispatch] at hv ⊢
    split_ifs at hv ⊢ with hw
    · cases hv
      exact ⟨hnone, Nat.lt_succ_self _⟩
    · exact h.appending v n hv
  · have hb : b ∈ s.sys.commits := hcommits ▸ hb
    simp only [BusSys.setDispatch]
    split_ifs with hw
    · exact absurd (hw ▸ hcall) (hnot hb)
    · exact h.committed b hb v n hcall
  · have hj := h.ranges x hx
    simp only [BusSys.setDispatch]
    split_ifs with hw
    · rw [hw, hnone] at hj
      cases hj
    · exact hj

/-- **Every step without a crash between a commit and its journal write keeps the invariant.** -/
theorem step (h : s.Once) {l : BusStep K S C E} (hl : s.Recorded l)
    (hm : BusMoves D H derive s l s') : s'.Once := by
  cases hm with
  | client hallow hm => exact h.client hallow hm
  | submit hn => exact h.submit
  | @replay w _ own hp hown =>
    refine h.dispatched (d := { s.dispatch w with phase := .appended own }) rfl (by simp)
      (fun _ hj => hj) (fun b hb n hcall happ => ?_) fun x hx => ?_
    · rw [hp] at happ
      cases happ
    · rcases List.mem_append.1 hx with hx | hx
      · exact Or.inl hx
      · obtain rfl := List.mem_singleton.1 hx
        exact Or.inr ⟨rfl, hown⟩
  | attempt _ hp hnone hm => exact h.attempt hp hnone hm
  | @journalAppend w n r hp hr =>
    obtain ⟨hnone, -⟩ := h.appending w n hp
    refine h.dispatched (d := { s.dispatch w with
      journal := { (s.dispatch w).journal with append := some ⟨n, r⟩ }
      phase := .appended ⟨n, r⟩ }) rfl (by simp) (fun own hj => ?_)
      (fun b hb m hcall happ => ?_) fun x hx => ?_
    · rw [hnone] at hj
      cases hj
    · rw [hp] at happ
      cases happ
      exact ⟨r, rfl⟩
    · rcases List.mem_append.1 hx with hx | hx
      · exact Or.inl hx
      · obtain rfl := List.mem_singleton.1 hx
        exact Or.inr ⟨rfl, rfl⟩
  | @appendError w n e hp hr =>
    refine h.dispatched (d := { s.dispatch w with phase := .returned (.error e) }) rfl (by simp)
      (fun _ hj => hj) (fun b hb m hcall happ => ?_) fun x hx => Or.inl hx
    -- a call that has returned an error has committed nothing
    rw [hp] at happ
    cases happ
    obtain ⟨r, hr'⟩ := h.returned b hb
    rw [hcall, hr] at hr'
    cases hr'
  | @goes _ w c j ph k hc hg =>
    obtain ⟨hj, hph, hph'⟩ := hg.apart
    exact h.dispatched (d := { s.dispatch w with journal := j, phase := ph }) rfl hph'
      (fun _ hown => hj.trans hown) (fun b hb n hcall happ => absurd happ (hph n))
      fun x hx => Or.inl hx
  | @fanOut w _ _ c own envs st v ph hs hc hp hph _ =>
    refine h.dispatched (d := { s.dispatch w with phase := ph }) rfl (fun n => ?_)
      (fun _ hj => hj) (fun b hb n hcall happ => ?_) fun x hx => Or.inl hx
    · rcases hph with rfl | ⟨res, rfl⟩ <;> simp
    · rw [hp] at happ
      cases happ
  | @crash w =>
    refine h.dispatched (d := { s.dispatch w with phase := .off }) rfl (by simp)
      (fun _ hj => hj) (fun b hb n hcall happ => ?_) fun x hx => Or.inl hx
    exact absurd ⟨n, happ, b, hb, hcall⟩ hl

theorem of_reachable (h : (recordedSystem D H derive glob).Reachable s) : s.Once := by
  induction h with
  | init h₀ =>
    obtain ⟨k, rfl⟩ := h₀
    exact start k
  | step _ hstep ih => exact ih.step hstep.1 (BusSys.moves hstep.2)

/-- All batches of a command are of one run of the append step. -/
theorem attempt_eq (h : s.Once) {w n n' : ℕ} {b b' : Occ.Batch BusCall StreamID C E}
    (hb : b ∈ s.sys.commits) (hb' : b' ∈ s.sys.commits) (hcall : b.call = .inr (w, n))
    (hcall' : b'.call = .inr (w, n')) : n = n' := by
  rcases h.committed b hb w n hcall with ⟨r, hr⟩ | hp
  · rcases h.committed b' hb' w n' hcall' with ⟨r', hr'⟩ | hp'
    · rw [hr] at hr'
      cases hr'
      rfl
    · rw [(h.appending w n' hp').1] at hr
      cases hr
  · rcases h.committed b' hb' w n' hcall' with ⟨r', hr'⟩ | hp'
    · rw [(h.appending w n hp).1] at hr'
      cases hr'
    · rw [hp] at hp'
      cases hp'
      rfl

end BusSys.Once

theorem Occ.Batch.isOf_iff {w : ℕ} {b : Occ.Batch BusCall StreamID C E} :
    b.isOf w = true ↔ ∃ n, b.call = .inr (w, n) := by
  unfold Occ.Batch.isOf
  split
  · rename_i v n hcall
    rw [beq_iff_eq, hcall]
    constructor
    · rintro rfl
      exact ⟨n, rfl⟩
    · rintro ⟨m, hm⟩
      cases hm
      rfl
  · rename_i i hcall
    rw [hcall]
    simp

/-- **A command commits at most once, and all its runs are given one version range**, in every run
in which no crash comes between the commit of its append step and the write of the result to the
journal. -/
theorem replayed_once (h : (recordedSystem D H derive glob).Reachable s) (w : ℕ) :
    (s.batchesOf w).length ≤ 1 ∧
      ∀ own own', (w, own) ∈ s.ranges → (w, own') ∈ s.ranges → own.result = own'.result := by
  have ho := BusSys.Once.of_reachable h
  constructor
  · -- the calls of the batches are distinct, and there is only one
    have hnodup : ((s.batchesOf w).map Occ.Batch.call).Nodup :=
      ho.nodup.sublist (List.filter_sublist.map _)
    cases hbs : s.batchesOf w with
    | nil => exact Nat.zero_le _
    | cons b bs =>
      cases bs with
      | nil => exact Nat.le_refl _
      | cons b' bs =>
        have hmem : ∀ x ∈ b :: b' :: bs, x ∈ s.sys.commits ∧ ∃ n, x.call = .inr (w, n) := by
          intro x hx
          obtain ⟨hx, hof⟩ := List.mem_filter.1 (hbs ▸ hx)
          exact ⟨hx, Occ.Batch.isOf_iff.1 hof⟩
        obtain ⟨hb, n, hcall⟩ := hmem b (by simp)
        obtain ⟨hb', n', hcall'⟩ := hmem b' (by simp)
        rw [hbs] at hnodup
        obtain rfl := ho.attempt_eq hb hb' hcall hcall'
        simp [hcall, hcall'] at hnodup
  · intro own own' hown hown'
    have hj : (s.dispatch w).journal.append = some own := ho.ranges _ hown
    have hj' : (s.dispatch w).journal.append = some own' := ho.ranges _ hown'
    rw [hj] at hj'
    rw [Option.some.inj hj']

/-- The engine crashes after the append step has committed and before its result is journaled.  The
step is run again and commits the note a second time, with the same `command_id`. -/
theorem replayed_once_lost : ∃ s,
    (busSystem (Sqlite.dialect .small) .small UUID.mk fun _ _ => false).Reachable
      (s : Journal.Bus) ∧
      (s.batchesOf 0).map Occ.Batch.items = [[5], [5]] ∧
      s.sys.db.events.rows.map (fun r => (r.version, r.commandID)) = [(1, ⟨"k"⟩), (2, ⟨"k"⟩)] ∧
      s.ranges.map (fun x => x.2.result.endVersion) = [2] := by
  let s? := TS.exec Journal.busNext (.start ())
    (.submit 0 (Journal.command "k") :: Journal.invoked 0 "a" ++ [.crash 0] ++
      Journal.invoked 1 "b" ++ [.journalAppend 0])
  have hend : s?.map (fun s => ((s.batchesOf 0).map Occ.Batch.items,
      s.sys.db.events.rows.map (fun r => (r.version, r.commandID)),
      s.ranges.map (fun x => x.2.result.endVersion))) =
        some ([[5], [5]], [(1, ⟨"k"⟩), (2, ⟨"k"⟩)], [2]) := by decide +kernel
  obtain ⟨s, hs, he⟩ := Option.map_eq_some_iff.1 hend
  obtain ⟨hbatches, he⟩ := Prod.mk.inj he
  exact ⟨s, TS.Reachable.exec (.init ⟨(), rfl⟩) (fun _ _ _ _ h => h) hs, hbatches,
    Prod.mk.inj he⟩

/-- One crash comes before the append and one after its result was journaled; the third run of the
command is given the range of the second. -/
theorem replayed_once_journaled : ∃ s,
    (recordedSystem (Sqlite.dialect .small) .small UUID.mk fun _ _ => false).Reachable
      (s : Journal.Bus) ∧
      s.ranges.length = 2 ∧ (s.batchesOf 0).length ≤ 1 ∧
      ∀ own own', (0, own) ∈ s.ranges → (0, own') ∈ s.ranges → own.result = own'.result := by
  let s? := TS.exec (fun s l => if s.Recorded l then Journal.busNext s l else none) (.start ())
    (.submit 0 (Journal.command "k") :: (Journal.invoked 0 "a").take 3 ++ [.crash 0] ++
      Journal.invoked 1 "b" ++
      [.journalAppend 0, .crash 0, .invoke 0 ⟨⟨"c"⟩, ⟨"c"⟩, ⟨"c"⟩, 0, Actor.zero⟩])
  have hend : s?.map (fun s => s.ranges.length) = some 2 := by decide +kernel
  obtain ⟨s, hs, hranges⟩ := Option.map_eq_some_iff.1 hend
  have hr : (recordedSystem (Sqlite.dialect .small) .small UUID.mk
      fun _ _ => false).Reachable s := by
    refine TS.Reachable.exec (.init ⟨(), rfl⟩) (fun l _ s s' h => ?_) hs
    split_ifs at h with hl
    exact ⟨hl, h⟩
  exact ⟨s, hr, hranges, replayed_once hr 0⟩

end EventStore
