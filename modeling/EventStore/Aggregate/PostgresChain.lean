import EventStore.Aggregate.Apart
import EventStore.Aggregate.Serial
import EventStore.Storage.Integrity

/-!
# The chain of a stream on Postgres

The digest of an event covers its time with nanoseconds and the text of its key references.  A
`TIMESTAMPTZ` column keeps microseconds, and a `JSONB` column keeps a JSON value and not its text.
So the digest that is stored and the one that verification computes from the row read back differ
as soon as either is lost (`chain_breaks`): after any `Handle` whose clock reads a fraction of a
microsecond, and after a direct append with key references that are not written as Postgres writes
them.

* `KeepsHashed` : what a step hands to the store survives its columns: times in whole microseconds,
  key references in the text `JSONB` gives back, actors that survive JSON; and a direct append is
  not ahead of its stream.
* `chain_verifies_normal` : **in every run of such steps the chain of every stream verifies**,
  whatever `Handle` calls, direct appends and rebuilds interleave.
-/

namespace EventStore

namespace Postgres

variable {ι K S C E J : Type} {H : Hasher}

/-- A time of whole microseconds, which a `TIMESTAMPTZ` keeps. -/
def WholeMicros (t : Time) : Prop := (1000 : ℤ) ∣ t

instance (t : Time) : Decidable (WholeMicros t) := inferInstanceAs (Decidable ((1000 : ℤ) ∣ t))

variable (L : Library J)

/-- The actor is read back from its `JSONB` column as it was written. -/
def KeepsActor (a : Actor) : Prop := ∀ j, encodeActor L a = .ok j → decodeActor L j = .ok a

/-- No text, or a text that `JSONB` gives back as it is. -/
def NormalJSON (b : Option Bytes) : Prop :=
  ∀ bs j, b = some bs → L.parse bs = .ok j → L.render j = bs

/-- A call of `Handle` whose clock and actor survive their columns. -/
def KeepsConfig (c : EventStore.Call K S C E) : Prop :=
  WholeMicros c.cfg.occurredAt ∧ KeepsActor L c.cfg.actor

/-- What the step hands to the store survives its columns, and a direct append is not ahead of its
stream. -/
def KeepsHashed (s : Sys ι (columns J) K S C E) : Label ι K S C E → Prop
  | .begin _ c => KeepsConfig L c
  | .direct _ p => p.expectedVersion ≤ s.db.currentStreamVersion p.streamID ∧
      ∀ ev ∈ p.events, WholeMicros ev.occurredAt ∧ KeepsActor L ev.actor ∧ NormalJSON L ev.keyRefs
  | _ => True

variable {L}

/-! ### What survives -/

theorem WholeMicros.fromMicros_micros {t : Time} (h : WholeMicros t) : fromMicros (micros t) = t :=
  Int.ediv_mul_cancel h

theorem NormalJSON.loadJSON {b : Option Bytes} (h : NormalJSON L b) {j : Option J}
    (hj : storeJSON L b = .ok j) : (j.map L.render).getD [] = b.getD [] := by
  cases b with
  | none =>
    obtain rfl := Except.ok.inj hj
    rfl
  | some bs =>
    simp only [storeJSON] at hj
    cases hv : L.parse bs with
    | error e => rw [hv] at hj; cases hj
    | ok v =>
      rw [hv] at hj
      obtain rfl := Except.ok.inj hj
      exact h bs v rfl hv

theorem readsBack {en : Engine} {i : ℕ} {ev : EventToAppend} (ht : WholeMicros ev.occurredAt)
    (ha : KeepsActor L ev.actor) (hk : NormalJSON L ev.keyRefs) :
    ReadsBack (dialect L) en i ev where
  actor := ha
  occurredAt := congrArg Except.ok ht.fromMicros_micros
  recordedAt := ⟨_, rfl⟩
  keyRefs _ hj := hk.loadJSON hj

/-- `Handle` appends events at the time of its clock, with its actor and no key references. -/
theorem readBack_of_decided {c : EventStore.Call K S C E} (hc : KeepsConfig L c) {loaded : S × ℕ}
    {evts : List E} {p : AppendParams}
    (hd : c.runtime.Decided c.sid c.cmd c.cfg loaded evts p) (en : Engine) :
    p.ReadBack (dialect L) en := by
  intro ev hev i
  obtain ⟨ids, k, k', henc⟩ := hd.encoded
  obtain ⟨_, _, _, -, rfl⟩ := Runtime.encodeEvents_mem henc ev hev
  exact readsBack hc.1 hc.2 (fun _ _ hn => by cases hn)

/-! ### The invariant -/

variable {s s' : Sys ι (columns J) K S C E} {l : Label ι K S C E}

variable (L H) in
/-- Every chain verifies, and the calls under way keep what is hashed. -/
structure Verifiable (s : Sys ι (columns J) K S C E) : Prop where
  ordered : Ordered s
  chained : s.db.Chained (dialect L) H
  procs : ∀ i, (s.procs i).Of (KeepsConfig L)

namespace Verifiable

theorem start (k : K) : Verifiable H L (Sys.start k : Sys ι (columns J) K S C E) :=
  ⟨.start k, Db.chained_empty, fun _ => trivial⟩

theorem chained_writes (h : Verifiable H L s) (hl : KeepsHashed L s l)
    (hw : s.Writes (dialect L) H l s') : s'.db.Chained (dialect L) H := by
  cases hw with
  | quiet hs => exact h.chained.of_events_eq hs.1
  | append _ hp _ ha =>
    obtain ⟨-, -, hc, _, hd⟩ := h.ordered.of_decided h.procs hp ha
    exact h.chained.appended h.ordered.wf ha (readBack_of_decided hc hd _)
  | direct he ha =>
    subst he
    refine h.chained.appended h.ordered.wf ha fun ev hev _ => ?_
    obtain ⟨ht, hact, hkey⟩ := hl.2 ev hev
    exact readsBack ht hact hkey
  | wipe _ _ hdb => exact h.chained.of_events_eq (hdb ▸ rfl)
  | upsert _ _ _ hu =>
    obtain ⟨_, _, _, _, -, -, -, hdb⟩ := rebuildStream_ok hu
    exact h.chained.of_events_eq (hdb ▸ rfl)

variable [DecidableEq ι]

/-- **Every step that keeps what is hashed keeps the chains.** -/
theorem step (h : Verifiable H L s) (hl : KeepsHashed L s l) (hm : Moves (dialect L) H s l s') :
    Verifiable H L s' where
  ordered := h.ordered.step (fun en p he => by subst he; exact hl.1) hm
  chained := h.chained_writes hl hm.writes
  procs i := by
    rcases hm.proc i with he | hn
    · exact he ▸ h.procs i
    · exact hn.of (fun j c he => by subst he; exact hl) (h.procs i)

end Verifiable

variable [DecidableEq ι]

/-- **On Postgres the chain of every stream verifies**, in every run of `Handle` calls, direct
appends and rebuilds that keep what is hashed. -/
theorem chain_verifies_normal
    (h : ((system (dialect L) H).restrict (KeepsHashed L)).Reachable s) {sid : StreamID}
    (hsid : sid.Valid) :
    verifyStreamChain H (readStream (dialect L) s.db) sid = .ok () := by
  have hinv : Verifiable H L s := by
    refine h.invariant (fun s₀ h₀ => ?_) fun _ _ _ _ ih hstep => ih.step hstep.1 (Sys.moves hstep.2)
    obtain ⟨k, rfl⟩ := h₀
    exact .start k
  exact hinv.chained.verifyStreamChain hinv.ordered.wf hsid

/-! ### Journals on Postgres -/

/-- A call that adds notes to the journal `acme/journal:1`, at the given time. -/
def noteAt (t : Time) (notes : List UInt8) : EventStore.Call Unit (List UInt8) (List UInt8) UInt8 :=
  let c := Journal.call Unit false 0 notes
  { c with cfg := { c.cfg with occurredAt := t } }

/-- A direct append to the journal with the given key references. -/
def withKeyRefs (expectedVersion : ℕ) (refs : Bytes) : AppendParams :=
  { AppendParams.bare expectedVersion "k" with
    streamID := ⟨"acme", "journal", "1"⟩
    events := [{ EventToAppend.bare "k" with keyRefs := some refs }] }

/-- Journals in a Postgres store. -/
abbrev Journals : Type := Sys ℕ (columns Bytes) Unit (List UInt8) (List UInt8) UInt8

theorem keepsActor_small (a : Actor) : KeepsActor Library.small a := by
  intro j hj
  by_cases ha : a = Actor.zero
  · subst ha
    obtain rfl := Except.ok.inj hj
    rfl
  · simp [encodeActor, Library.small, ha, Except.mapError, Bind.bind, Except.bind] at hj

/-- A clock of whole microseconds, and key references without blanks. -/
theorem chain_verifies_normal_two : ∃ s : Journals,
    ((system (dialect .small) .small).restrict (KeepsHashed .small)).Reachable s ∧
      (s.db.streamRows ⟨"acme", "journal", "1"⟩).map EventRow.encryptionKeyRefs =
        [none, none, some [91, 93]] ∧
      verifyStreamChain .small (readStream (dialect .small) s.db) ⟨"acme", "journal", "1"⟩ =
        .ok () := by
  let D := dialect .small
  let sid : StreamID := ⟨"acme", "journal", "1"⟩
  let ls := Journal.handle 0 (noteAt 1000 [5, 6]) "a"
  let s? := TS.exec (Sys.step D .small) (Sys.start () : Journals) ls
  have hend : (s?.bind fun s => (s.step D .small (.direct .calm (withKeyRefs 2 [91, 93]))).map
      fun s₁ => (s.db.currentStreamVersion sid,
        (s₁.db.streamRows sid).map EventRow.encryptionKeyRefs)) =
      some (2, [none, none, some [91, 93]]) := by decide +kernel
  obtain ⟨s, hs, hend⟩ := Option.bind_eq_some_iff.1 hend
  obtain ⟨s₁, hs₁, hend⟩ := Option.map_eq_some_iff.1 hend
  obtain ⟨hversion, hrefs⟩ := Prod.mk.inj hend
  have hls : ∀ l ∈ ls, ∀ s : Journals, KeepsHashed .small s l := by
    simp [ls, Journal.handle, Journal.upToAppend, KeepsHashed, KeepsConfig, keepsActor_small,
      noteAt, WholeMicros]
  have hdirect : KeepsHashed .small s (.direct .calm (withKeyRefs 2 [91, 93])) := by
    refine ⟨(Nat.le_of_eq hversion.symm), fun ev hev => ?_⟩
    obtain rfl := List.mem_singleton.1 hev
    refine ⟨by decide, keepsActor_small _, fun bs j hbs hj => ?_⟩
    obtain rfl := Option.some.inj hbs
    obtain rfl := Except.ok.inj hj
    decide
  have hr : ((system D .small).restrict (KeepsHashed .small)).Reachable s₁ :=
    .step (TS.Reachable.exec (.init ⟨(), rfl⟩) (fun l hl s _ h => ⟨hls l hl s, h⟩) hs)
      ⟨hdirect, hs₁⟩
  exact ⟨s₁, hr, hrefs, chain_verifies_normal hr (by decide)⟩

/-- The time of a `Handle` call with a fraction of a microsecond, and key references with a blank:
both appends commit, and neither chain verifies. -/
theorem chain_breaks :
    (∃ s : Journals, (system (dialect .small) .small).Reachable s ∧
      s.commits.map (fun b => b.items) = [[5]] ∧
      verifyStreamChain .small (readStream (dialect .small) s.db) ⟨"acme", "journal", "1"⟩ ≠
        .ok ()) ∧
    ∃ s : Journals, (system (dialect .small) .small).Reachable s ∧
      s.db.events.rows.map EventRow.encryptionKeyRefs = [some [91, 93]] ∧
      verifyStreamChain .small (readStream (dialect .small) s.db) ⟨"acme", "journal", "1"⟩ ≠
        .ok () := by
  let D := dialect .small
  let verify (s : Journals) := verifyStreamChain .small (readStream D s.db) ⟨"acme", "journal", "1"⟩
  let exec := TS.exec (Sys.step D .small) (Sys.start () : Journals)
  have hclock : (exec (Journal.handle 0 (noteAt 1001 [5]) "a")).map (fun s =>
      (s.commits.map fun b => b.items, decide (verify s = .ok ()))) = some ([[5]], false) := by
    decide +kernel
  have hrefs : (exec [.direct .calm (withKeyRefs 0 [91, 32, 93])]).map (fun s =>
      (s.db.events.rows.map EventRow.encryptionKeyRefs, decide (verify s = .ok ()))) =
      some ([some [91, 93]], false) := by decide +kernel
  constructor
  · obtain ⟨s, hs, he⟩ := Option.map_eq_some_iff.1 hclock
    obtain ⟨hitems, hver⟩ := Prod.mk.inj he
    exact ⟨s, TS.Reachable.exec (.init ⟨(), rfl⟩) (fun _ _ _ _ h => h) hs, hitems,
      of_decide_eq_false hver⟩
  · obtain ⟨s, hs, he⟩ := Option.map_eq_some_iff.1 hrefs
    obtain ⟨hrows, hver⟩ := Prod.mk.inj he
    exact ⟨s, TS.Reachable.exec (.init ⟨(), rfl⟩) (fun _ _ _ _ h => h) hs, hrows,
      of_decide_eq_false hver⟩

end Postgres

end EventStore
