import EventStore.Aggregate.System

/-!
# The command workflow

`cmdworkflow.Workflow`: `HandleCmd` runs a command through `Handle` of the aggregate's runtime and
hands its events, with the state after them, to the subscribers.  It runs on a durable workflow
engine, as a sequence of steps the results of which are journaled: `append`, `read-envelopes`,
`read-state`.  A step that is in the journal is not run again; one that is not is run, and its
result is written to the journal after it has returned.

A `HandleCmd` can crash between any two accesses to the outside, and is then run again from the
start (`invoke`).  Each run of the append step is a `Handle` call of its own on the store
(`BusCall`), beside the calls of other clients.  What a subscriber's `Handle` does is left open, and
so is what comes after a compensation: both are recorded and nothing more.

## Main definitions

* `Command` : a call of `HandleCmd`; `Subscriber`, `EventFilter.matches`.
* `StepJournal`, `BusPhase`, `Dispatch` : the journal, and where a call is.
* `BusSys.next`, `busSystem` : the steps of commands and of the other clients of the store.
-/

namespace EventStore

/-! ### Subscribers -/

/-- `DeliveryMode`. -/
inductive DeliveryMode where
  | sync
  | async
  deriving DecidableEq

/-- `ExhaustedPolicy`. -/
inductive ExhaustedPolicy where
  | dlq
  | compensate
  | drop
  deriving DecidableEq

/-- `EventFilter`; a nil predicate is `none`. -/
structure EventFilter where
  typeURLs : List String
  streamGlob : String
  tenants : List String
  custom : Option (Envelope → Bool)

/-- `Matches`; `glob` is `path.Match`, false for a malformed pattern. -/
def EventFilter.matches (glob : String → String → Bool) (f : EventFilter) (env : Envelope) : Bool :=
  (f.typeURLs.isEmpty || f.typeURLs.contains env.typeURL) &&
    (f.tenants.isEmpty || f.tenants.contains env.tenantID) &&
    (f.streamGlob == "" || glob f.streamGlob env.streamID.canonical) &&
    f.custom.all (· env)

/-- `Subscriber`, without what it does and how often it is tried. -/
structure Subscriber where
  name : String
  filter : EventFilter
  mode : DeliveryMode
  onExhausted : ExhaustedPolicy

/-! ### The steps of `HandleCmd` -/

/-- `EncodeState`. -/
def Runtime.encodeState {K S C E : Type} (rt : Runtime K S C E) (st : S) :
    Except Err (Option Bytes) :=
  match rt.stateCodec with
  | none => .error (.text "aggregate: EncodeState requires a StateCodec to be wired on the runtime")
  | some sc => (sc.encode st).map Prod.fst

/-- `DecodeState`. -/
def Runtime.decodeState {K S C E : Type} (rt : Runtime K S C E) (data : Option Bytes) :
    Except Err S :=
  match rt.stateCodec with
  | none => .error (.text "aggregate: DecodeState requires a StateCodec to be wired on the runtime")
  | some sc => sc.decode (data.getD [])

/-- A call of `HandleCmd`, with the workflow it is made on. -/
structure Command (K S C E : Type) where
  runtime : Runtime K S C E
  codec : Codec E
  subscribers : List Subscriber
  sid : StreamID
  cmd : C
  idempotencyKey : String

/-- The metadata of a run of the append step; `derive` is `deriveCommandIDFromKey`. -/
def Command.config {K S C E : Type} (c : Command K S C E) (derive : String → UUID)
    (cfg : HandleConfig) : HandleConfig :=
  if c.idempotencyKey = "" then cfg else { cfg with commandID := derive c.idempotencyKey }

/-- An envelope as it comes back from the journal: the hashes are not kept, and an empty slice is
nil. -/
def Envelope.journaled (env : Envelope) : Envelope :=
  { env with
    payloadJSON := env.payloadJSON.filter (· ≠ [])
    keyRefs := env.keyRefs.filter (· ≠ [])
    hash := []
    prevHash := [] }

/-- `decodeEvents`. -/
def decodeEvents {E : Type} (codec : Codec E) : ℕ → List Envelope → Except Err (List E)
  | _, [] => .ok []
  | i, env :: envs => do
    let typeURL := env.typeURL
    let evt ← (codec.decode env.typeURL env.schemaVersion env.payload).mapError
      (.wrap s!"decode event {i} ({typeURL})")
    let rest ← decodeEvents codec (i + 1) envs
    return evt :: rest

/-! ### Where a call is -/

/-- What the append step returned, and the run of it that did. -/
structure OwnAppend where
  attempt : ℕ
  result : AppendResult
  deriving DecidableEq

/-- The journal of a call.  The version is that of the state, which the code does not keep. -/
structure StepJournal where
  append : Option OwnAppend
  envelopes : Option (List Envelope)
  state : Option (Option Bytes × ℕ)

/-- What `Load` is called for. -/
inductive LoadPurpose where
  /-- To return the state after a command without events. -/
  | noop
  /-- The step `read-state`. -/
  | dispatch (own : OwnAppend) (envs : List Envelope)

/-- Where a call of `HandleCmd` is. -/
inductive BusPhase (S : Type) where
  /-- Not running: not started, or crashed. -/
  | off
  /-- In the append step, in its `n`-th run. -/
  | appending (n : ℕ)
  | appended (own : OwnAppend)
  /-- The envelopes are read, and not yet in the journal. -/
  | readBack (own : OwnAppend) (envs : List Envelope)
  /-- Before the first read of `Load`. -/
  | loading (p : LoadPurpose)
  /-- Between the two reads of `Load`. -/
  | seeded (p : LoadPurpose) (start : S × ℕ)
  /-- The state is encoded, and not yet in the journal. -/
  | encoded (own : OwnAppend) (envs : List Envelope) (bytes : Option Bytes) (version : ℕ)
  /-- Before the fan-out. -/
  | ready (own : OwnAppend) (envs : List Envelope) (st : S) (version : ℕ)
  | compensating
  | returned (res : Except Err S)

/-- The append step is in the run `n`. -/
def BusPhase.runs {S : Type} (n : ℕ) : BusPhase S → Bool
  | .appending m => m == n
  | _ => false

/-- A call, its journal, and the number of times its append step was run. -/
structure Dispatch (K S C E : Type) where
  command : Option (Command K S C E)
  attempts : ℕ
  journal : StepJournal
  phase : BusPhase S

/-- What a call has handed to a subscriber, or returned to its caller. -/
structure Handed (S E : Type) where
  dispatch : ℕ
  /-- `none` is the caller. -/
  recipient : Option String
  envs : List Envelope
  state : S
  events : List E
  own : OwnAppend
  /-- The number of events in the stream when the state was read. -/
  version : ℕ

/-- The `Handle` calls on the store: those of other clients, and the runs of the append step of a
command. -/
abbrev BusCall := ℕ ⊕ (ℕ × ℕ)

/-- The store and its clients, and the commands. -/
structure BusSys (κ : Columns) (K S C E : Type) where
  sys : Sys BusCall κ K S C E
  dispatch : ℕ → Dispatch K S C E
  /-- The row of `state_cache` an append has left, if it wrote one. -/
  stored : BusCall → Option (StateCacheRow κ)
  handed : List (Handed S E)
  /-- What the append step has returned to the runs of a command. -/
  ranges : List (ℕ × OwnAppend)

/-- The steps. -/
inductive BusStep (K S C E : Type) where
  /-- A step of a client of the store, or of a `Handle` call of a command. -/
  | client (l : Label BusCall K S C E)
  | submit (w : ℕ) (c : Command K S C E)
  /-- The engine runs the command, for the first time or again. -/
  | invoke (w : ℕ) (cfg : HandleConfig)
  | journalAppend (w : ℕ)
  | readEnvelopes (w : ℕ) (fault : Option Err)
  | journalEnvelopes (w : ℕ)
  /-- The two reads of `Load`. -/
  | seed (w : ℕ) (fault : Option Err)
  | tail (w : ℕ) (fault : Option Err)
  | journalState (w : ℕ)
  /-- The subscribers are called; `exhausted` are those that used up their attempts, and `failed` is
  an error of a policy or of the engine. -/
  | fanOut (w : ℕ) (exhausted : List String) (failed : Option Err)
  | crash (w : ℕ)

/-! ### The steps -/

variable {κ : Columns} {K S C E : Type}

/-- The call a step of the store's clients is about. -/
def Label.call {ι : Type} : Label ι K S C E → Option ι
  | .begin i _ | .getState i _ | .readStream i _ | .decide i _ | .append i _ => some i
  | _ => none

/-- The phase after the bytes of a state were decoded. -/
def BusPhase.decoded (own : OwnAppend) (envs : List Envelope) (version : ℕ) :
    Except Err S → BusPhase S
  | .ok st => .ready own envs st version
  | .error e => .returned (.error e)

/-- What the subscribers are called with: the envelopes that pass the filter, with their events.  A
subscriber without any is skipped, and one in `Async` mode is not called here. -/
def Command.batches (glob : String → String → Bool) (c : Command K S C E) (envs : List Envelope)
    (events : List E) : List (Subscriber × List (Envelope × E)) :=
  (c.subscribers.map fun sub =>
    (sub, (envs.zip events).filter fun x => sub.filter.matches glob x.1)).filter
      fun x => x.2 ≠ [] && x.1.mode = .sync

namespace BusSys

/-- The state with one command moved on. -/
def setDispatch (s : BusSys κ K S C E) (w : ℕ) (d : Dispatch K S C E) : BusSys κ K S C E :=
  { s with dispatch := fun v => if v = w then d else s.dispatch v }

/-- The `Handle` calls of a command move only while its append step runs, and are begun by it. -/
def allows (s : BusSys κ K S C E) : Label BusCall K S C E → Bool
  | .begin (.inr _) _ => false
  | l =>
    match l.call with
    | some (.inr (w, n)) => (s.dispatch w).phase.runs n
    | _ => true

/-- The rows the appends have left, after a step of the store's clients. -/
def storedAfter (s : BusSys κ K S C E) (sys' : Sys BusCall κ K S C E) (l : Label BusCall K S C E)
    (i : BusCall) : Option (StateCacheRow κ) :=
  match l, s.sys.procs i, sys'.procs i with
  | .append j _, .decided c _ p, .returned (.ok _) =>
    if j = i then p.newStateBytes.bind fun _ => sys'.db.cachedRow c.sid else s.stored i
  | _, _, _ => s.stored i

section Step

variable (D : Dialect κ) (H : Hasher) (derive : String → UUID) (glob : String → String → Bool)

/-- The engine runs a command. -/
def invoke (s : BusSys κ K S C E) (w : ℕ) (cfg : HandleConfig) : Option (BusSys κ K S C E) :=
  let d := s.dispatch w
  match d.command, d.phase with
  | some c, .off =>
    match d.journal.append with
    | some own =>
      some { s.setDispatch w { d with phase := .appended own } with
        ranges := s.ranges ++ [(w, own)] }
    | none =>
      let call : Call K S C E := ⟨c.runtime, c.sid, c.cmd, c.config derive cfg⟩
      (s.sys.step D H (.begin (.inr (w, d.attempts)) call)).map fun sys' =>
        { s.setDispatch w { d with attempts := d.attempts + 1, phase := .appending d.attempts } with
          sys := sys' }
  | _, _ => none

/-- `Handle` has returned to the append step, and its result is journaled. -/
def journalAppend (s : BusSys κ K S C E) (w : ℕ) : Option (BusSys κ K S C E) :=
  let d := s.dispatch w
  match d.phase with
  | .appending n =>
    match s.sys.procs (.inr (w, n)) with
    | .returned (.ok r) =>
      some { s.setDispatch w { d with
          journal := { d.journal with append := some ⟨n, r⟩ }
          phase := .appended ⟨n, r⟩ } with
        ranges := s.ranges ++ [(w, ⟨n, r⟩)] }
    | .returned (.error e) => some (s.setDispatch w { d with phase := .returned (.error e) })
    | _ => none
  | _ => none

/-- The step `read-envelopes`, if it is not in the journal; nothing is read after a command without
events. -/
def readEnvelopes (s : BusSys κ K S C E) (w : ℕ) (fault : Option Err) :
    Option (BusSys κ K S C E) :=
  let d := s.dispatch w
  match d.command, d.phase with
  | some c, .appended own =>
    let r := own.result
    if r.startVersion = 0 ∧ r.endVersion = 0 then
      some (s.setDispatch w { d with phase := .loading .noop })
    else
      match d.journal.envelopes with
      | some envs => some (s.setDispatch w { d with phase := .loading (.dispatch own envs) })
      | none =>
        match orFault fault (readStream D s.sys.db c.sid (r.startVersion - 1)) with
        | .error e => some (s.setDispatch w { d with phase := .returned (.error e) })
        | .ok envs =>
          -- only the envelopes of the append, also if there are more by now
          let own' := envs.take (r.endVersion - r.startVersion + 1)
          some (s.setDispatch w { d with phase := .readBack own own' })
  | _, _ => none

/-- The envelopes are journaled. -/
def journalEnvelopes (s : BusSys κ K S C E) (w : ℕ) : Option (BusSys κ K S C E) :=
  let d := s.dispatch w
  match d.command, d.phase with
  | some _, .readBack own envs =>
    let envs' := envs.map Envelope.journaled
    some (s.setDispatch w { d with
      journal := { d.journal with envelopes := some envs' }
      phase := .loading (.dispatch own envs') })
  | _, _ => none

/-- `Load` reads the cache, if the state is not in the journal. -/
def seed (s : BusSys κ K S C E) (w : ℕ) (fault : Option Err) : Option (BusSys κ K S C E) :=
  let d := s.dispatch w
  match d.command, d.phase with
  | some c, .loading p =>
    match p, d.journal.state with
    | .dispatch own envs, some (bytes, v) =>
      some (s.setDispatch w { d with phase := .decoded own envs v (c.runtime.decodeState bytes) })
    | p, _ =>
      let got := orFault fault (getState D s.sys.db c.sid)
      some (s.setDispatch w { d with phase := .seeded p (c.runtime.seed got) })
  | _, _ => none

/-- `Load` reads the events after the cached state.  For the step `read-state` the result is
encoded. -/
def tail (s : BusSys κ K S C E) (w : ℕ) (fault : Option Err) : Option (BusSys κ K S C E) :=
  let d := s.dispatch w
  match d.command, d.phase with
  | some c, .seeded p start =>
    match c.runtime.loadTail c.sid start
        (orFault fault (readStream D s.sys.db c.sid start.2)) s.sys.keys with
    | .error e k => some { s.setDispatch w { d with phase := .returned (.error e) } with
        sys := { s.sys with keys := k } }
    | .ok st k =>
      let phase : BusPhase S := match p with
        | .noop => .returned (.ok st.1)
        | .dispatch own envs =>
          match c.runtime.encodeState st.1 with
          | .error e => .returned (.error e)
          | .ok bytes => .encoded own envs bytes st.2
      some { s.setDispatch w { d with phase := phase } with sys := { s.sys with keys := k } }
  | _, _ => none

/-- The state is journaled, and decoded from the journal. -/
def journalState (s : BusSys κ K S C E) (w : ℕ) : Option (BusSys κ K S C E) :=
  let d := s.dispatch w
  match d.command, d.phase with
  | some c, .encoded own envs bytes v =>
    some (s.setDispatch w { d with
      journal := { d.journal with state := some (bytes, v) }
      phase := .decoded own envs v (c.runtime.decodeState bytes) })
  | _, _ => none

/-- The fan-out, up to the return or to a compensation. -/
def fanOut (s : BusSys κ K S C E) (w : ℕ) (exhausted : List String) (failed : Option Err) :
    Option (BusSys κ K S C E) :=
  let d := s.dispatch w
  match d.command, d.phase with
  | some c, .ready own envs st v =>
    match decodeEvents c.codec 0 envs with
    | .error e => some (s.setDispatch w { d with
        phase := .returned (.error (.wrap "cmdworkflow: decode events" e)) })
    | .ok events =>
      let batches := c.batches glob envs events
      let called : List (Handed S E) := batches.map fun x =>
        ⟨w, some x.1.name, x.2.map Prod.fst, st, x.2.map Prod.snd, own, v⟩
      match failed with
      | some e => some { s.setDispatch w { d with phase := .returned (.error e) } with
          handed := s.handed ++ called }
      | none =>
        if batches.any fun x => x.1.onExhausted = .compensate && exhausted.contains x.1.name then
          some { s.setDispatch w { d with phase := .compensating } with
            handed := s.handed ++ called }
        else
          some { s.setDispatch w { d with phase := .returned (.ok st) } with
            handed := s.handed ++ called ++ [⟨w, none, envs, st, events, own, v⟩] }
  | _, _ => none

/-- One step. -/
def next (s : BusSys κ K S C E) : BusStep K S C E → Option (BusSys κ K S C E)
  | .client l =>
    if s.allows l then
      (s.sys.step D H l).map fun sys' => { s with sys := sys', stored := s.storedAfter sys' l }
    else none
  | .submit w c =>
    match (s.dispatch w).command with
    | none => some (s.setDispatch w { s.dispatch w with command := some c })
    | some _ => none
  | .invoke w cfg => s.invoke D H derive w cfg
  | .journalAppend w => s.journalAppend w
  | .readEnvelopes w fault => s.readEnvelopes D w fault
  | .journalEnvelopes w => s.journalEnvelopes w
  | .seed w fault => s.seed D w fault
  | .tail w fault => s.tail D w fault
  | .journalState w => s.journalState w
  | .fanOut w exhausted failed => s.fanOut glob w exhausted failed
  | .crash w => some (s.setDispatch w { s.dispatch w with phase := .off })

end Step

/-- An empty store, and no command. -/
def start (k : K) : BusSys κ K S C E :=
  ⟨.start k, fun _ => ⟨none, 0, ⟨none, none, none⟩, .off⟩, fun _ => none, [], []⟩

end BusSys

/-- Commands on a durable engine, and the other clients of their store. -/
def busSystem (D : Dialect κ) (H : Hasher) (derive : String → UUID)
    (glob : String → String → Bool) : TS (BusSys κ K S C E) (BusStep K S C E) where
  init s := ∃ k, s = .start k
  step s l s' := s.next D H derive glob l = some s'

/-! ### What a step can do -/

/-- The steps of a command by itself, which write nothing to the store: from the journal, the phase
and the keys to those after it. -/
inductive Command.Goes (c : Command K S C E) (D : Dialect κ) (db : Db κ) :
    StepJournal × BusPhase S × K → StepJournal × BusPhase S × K → Prop
  | noop {j : StepJournal} {k : K} {own : OwnAppend} :
      Goes c D db (j, .appended own, k) (j, .loading .noop, k)
  | envelopesKept {j : StepJournal} {k : K} {own : OwnAppend} {envs : List Envelope} :
      own.result ≠ .zero → j.envelopes = some envs →
      Goes c D db (j, .appended own, k) (j, .loading (.dispatch own envs), k)
  | envelopesRead {j : StepJournal} {k : K} {own : OwnAppend} {envs : List Envelope} :
      own.result ≠ .zero →
      readStream D db c.sid (own.result.startVersion - 1) = .ok envs →
      Goes c D db (j, .appended own, k)
        (j, .readBack own
          (envs.take (own.result.endVersion - own.result.startVersion + 1)), k)
  | journalEnvelopes {j : StepJournal} {k : K} {own : OwnAppend} {envs : List Envelope} :
      Goes c D db (j, .readBack own envs, k)
        ({ j with envelopes := some (envs.map Envelope.journaled) },
          .loading (.dispatch own (envs.map Envelope.journaled)), k)
  | seed {j : StepJournal} {k : K} {p : LoadPurpose} {fault : Option Err} :
      Goes c D db (j, .loading p, k)
        (j, .seeded p (c.runtime.seed (orFault fault (getState D db c.sid))), k)
  | stateKept {j : StepJournal} {k : K} {own : OwnAppend} {envs : List Envelope}
      {bytes : Option Bytes} {v : ℕ} : j.state = some (bytes, v) →
      Goes c D db (j, .loading (.dispatch own envs), k)
        (j, .decoded own envs v (c.runtime.decodeState bytes), k)
  | loaded {j : StepJournal} {k k' : K} {start st : S × ℕ} :
      c.runtime.loadTail c.sid start (readStream D db c.sid start.2) k = .ok st k' →
      Goes c D db (j, .seeded .noop start, k) (j, .returned (.ok st.1), k')
  | encoded {j : StepJournal} {k k' : K} {own : OwnAppend} {envs : List Envelope}
      {start st : S × ℕ} {bytes : Option Bytes} :
      c.runtime.loadTail c.sid start (readStream D db c.sid start.2) k = .ok st k' →
      c.runtime.encodeState st.1 = .ok bytes →
      Goes c D db (j, .seeded (.dispatch own envs) start, k)
        (j, .encoded own envs bytes st.2, k')
  | journalState {j : StepJournal} {k : K} {own : OwnAppend} {envs : List Envelope}
      {bytes : Option Bytes} {v : ℕ} :
      Goes c D db (j, .encoded own envs bytes v, k)
        ({ j with state := some (bytes, v) },
          .decoded own envs v (c.runtime.decodeState bytes), k)
  | failed {j : StepJournal} {ph : BusPhase S} {k k' : K} {e : Err} : (∀ n, ph ≠ .appending n) →
      Goes c D db (j, ph, k) (j, .returned (.error e), k')

/-- The steps, one constructor for each outcome. -/
inductive BusMoves (D : Dialect κ) (H : Hasher) (derive : String → UUID)
    (s : BusSys κ K S C E) : BusStep K S C E → BusSys κ K S C E → Prop
  | client {l : Label BusCall K S C E} {sys' : Sys BusCall κ K S C E} : s.allows l = true →
      Moves D H s.sys l sys' →
      BusMoves D H derive s (.client l) { s with sys := sys', stored := s.storedAfter sys' l }
  | submit {w : ℕ} {c : Command K S C E} : (s.dispatch w).command = none →
      BusMoves D H derive s (.submit w c)
        (s.setDispatch w { s.dispatch w with command := some c })
  | replay {w : ℕ} {cfg : HandleConfig} {own : OwnAppend} : (s.dispatch w).phase = .off →
      (s.dispatch w).journal.append = some own →
      BusMoves D H derive s (.invoke w cfg)
        { s.setDispatch w { s.dispatch w with phase := .appended own } with
          ranges := s.ranges ++ [(w, own)] }
  | attempt {w : ℕ} {cfg : HandleConfig} {c : Command K S C E} {sys' : Sys BusCall κ K S C E} :
      (s.dispatch w).command = some c → (s.dispatch w).phase = .off →
      (s.dispatch w).journal.append = none →
      Moves D H s.sys (.begin (.inr (w, (s.dispatch w).attempts))
        ⟨c.runtime, c.sid, c.cmd, c.config derive cfg⟩) sys' →
      BusMoves D H derive s (.invoke w cfg)
        { s.setDispatch w { s.dispatch w with
            attempts := (s.dispatch w).attempts + 1
            phase := .appending (s.dispatch w).attempts } with
          sys := sys' }
  | journalAppend {w n : ℕ} {r : AppendResult} : (s.dispatch w).phase = .appending n →
      s.sys.procs (.inr (w, n)) = .returned (.ok r) →
      BusMoves D H derive s (.journalAppend w)
        { s.setDispatch w { s.dispatch w with
            journal := { (s.dispatch w).journal with append := some ⟨n, r⟩ }
            phase := .appended ⟨n, r⟩ } with
          ranges := s.ranges ++ [(w, ⟨n, r⟩)] }
  | appendError {w n : ℕ} {e : Err} : (s.dispatch w).phase = .appending n →
      s.sys.procs (.inr (w, n)) = .returned (.error e) →
      BusMoves D H derive s (.journalAppend w)
        (s.setDispatch w { s.dispatch w with phase := .returned (.error e) })
  | goes {l : BusStep K S C E} {w : ℕ} {c : Command K S C E} {j : StepJournal} {ph : BusPhase S}
      {k : K} : (s.dispatch w).command = some c →
      c.Goes D s.sys.db ((s.dispatch w).journal, (s.dispatch w).phase, s.sys.keys) (j, ph, k) →
      BusMoves D H derive s l
        { s.setDispatch w { s.dispatch w with journal := j, phase := ph } with
          sys := { s.sys with keys := k } }
  | fanOut {w : ℕ} {exhausted : List String} {failed : Option Err} {c : Command K S C E}
      {own : OwnAppend} {envs : List Envelope} {st : S} {v : ℕ} {ph : BusPhase S}
      {hs : List (Handed S E)} : (s.dispatch w).command = some c →
      (s.dispatch w).phase = .ready own envs st v →
      ph = .compensating ∨ (∃ res, ph = .returned res) →
      (∀ x ∈ hs, x.dispatch = w ∧ x.state = st ∧ x.own = own ∧ x.version = v) →
      BusMoves D H derive s (.fanOut w exhausted failed)
        { s.setDispatch w { s.dispatch w with phase := ph } with handed := s.handed ++ hs }
  | crash {w : ℕ} : BusMoves D H derive s (.crash w)
      (s.setDispatch w { s.dispatch w with phase := .off })

section Moves

variable {D : Dialect κ} {H : Hasher} {derive : String → UUID} {glob : String → String → Bool}
  {s s' : BusSys κ K S C E} {w : ℕ} {fault : Option Err}

/-- A step of a command by itself that leaves the keys alone. -/
theorem BusMoves.goes_keys {l : BusStep K S C E} {c : Command K S C E} {j : StepJournal}
    {ph ph' : BusPhase S} (hc : (s.dispatch w).command = some c) (hp : (s.dispatch w).phase = ph)
    (h : c.Goes D s.sys.db ((s.dispatch w).journal, ph, s.sys.keys) (j, ph', s.sys.keys)) :
    BusMoves D H derive s l (s.setDispatch w { s.dispatch w with journal := j, phase := ph' }) :=
  .goes hc (hp ▸ h)

theorem BusSys.moves_invoke {cfg : HandleConfig} (h : s.invoke D H derive w cfg = some s') :
    BusMoves D H derive s (.invoke w cfg) s' := by
  simp only [BusSys.invoke] at h
  split at h
  · rename_i c hc hp
    split at h
    · cases h
      exact .replay hp ‹_›
    · obtain ⟨sys', hsys, rfl⟩ := Option.map_eq_some_iff.1 h
      exact .attempt hc hp ‹_› (Sys.moves hsys)
  · cases h

theorem BusSys.moves_journalAppend (h : s.journalAppend w = some s') :
    BusMoves D H derive s (.journalAppend w) s' := by
  simp only [BusSys.journalAppend] at h
  split at h
  · split at h
    · cases h
      exact .journalAppend ‹_› ‹_›
    · cases h
      exact .appendError ‹_› ‹_›
    · cases h
  · cases h

theorem BusSys.moves_readEnvelopes (h : s.readEnvelopes D w fault = some s') :
    BusMoves D H derive s (.readEnvelopes w fault) s' := by
  simp only [BusSys.readEnvelopes] at h
  split at h
  · rename_i c own hc hp
    split_ifs at h with hz
    · cases h
      exact .goes_keys hc hp .noop
    · have hne : own.result ≠ .zero := by
        intro he
        exact hz (by rw [he]; exact ⟨rfl, rfl⟩)
      split at h
      · cases h
        exact .goes_keys hc hp (.envelopesKept hne ‹_›)
      · split at h
        · cases h
          exact .goes_keys hc hp (.failed (by simp))
        · rename_i envs hread
          cases h
          cases fault with
          | some e => cases hread
          | none => exact .goes_keys hc hp (.envelopesRead hne hread)
  · cases h

theorem BusSys.moves_seed (h : s.seed D w fault = some s') :
    BusMoves D H derive s (.seed w fault) s' := by
  simp only [BusSys.seed] at h
  split at h
  · rename_i c p hc hp
    split at h
    · cases h
      exact .goes_keys hc hp (.stateKept ‹_›)
    · cases h
      exact .goes_keys hc hp .seed
  · cases h

theorem BusSys.moves_tail (h : s.tail D w fault = some s') :
    BusMoves D H derive s (.tail w fault) s' := by
  simp only [BusSys.tail] at h
  split at h
  · rename_i c p start hc hp
    split at h
    · cases h
      exact .goes hc (hp ▸ .failed (by simp))
    · rename_i st k hload
      cases h
      cases fault with
      | some e =>
        obtain ⟨envs, hread, -⟩ := Runtime.loadTail_eq_ok.1 hload
        cases hread
      | none =>
        cases p with
        | noop => exact .goes hc (hp ▸ .loaded hload)
        | dispatch own envs =>
          dsimp only
          split
          · exact .goes hc (hp ▸ .failed (by simp))
          · exact .goes hc (hp ▸ .encoded hload ‹_›)
  · cases h

theorem BusSys.moves_fanOut {exhausted : List String} {failed : Option Err}
    (h : s.fanOut glob w exhausted failed = some s') :
    BusMoves D H derive s (.fanOut w exhausted failed) s' := by
  simp only [BusSys.fanOut] at h
  split at h
  · rename_i c own envs st v hc hp
    -- all are handed the same state
    have hcalled : ∀ batches : List (Subscriber × List (Envelope × E)),
        ∀ x ∈ batches.map fun x =>
          (⟨w, some x.1.name, x.2.map Prod.fst, st, x.2.map Prod.snd, own, v⟩ : Handed S E),
        x.dispatch = w ∧ x.state = st ∧ x.own = own ∧ x.version = v := by
      intro batches x hx
      obtain ⟨y, -, rfl⟩ := List.mem_map.1 hx
      exact ⟨rfl, rfl, rfl, rfl⟩
    split at h
    · cases h
      exact .goes_keys hc hp (.failed (by simp))
    · split at h
      · cases h
        exact .fanOut hc hp (Or.inr ⟨_, rfl⟩) (hcalled _)
      · split_ifs at h
        · cases h
          exact .fanOut hc hp (Or.inl rfl) (hcalled _)
        · cases h
          rw [List.append_assoc]
          refine .fanOut hc hp (Or.inr ⟨_, rfl⟩) fun x hx => ?_
          rcases List.mem_append.1 hx with hx | hx
          · exact hcalled _ x hx
          · obtain rfl := List.mem_singleton.1 hx
            exact ⟨rfl, rfl, rfl, rfl⟩
  · cases h

/-- Every step is one of the moves. -/
theorem BusSys.moves {l : BusStep K S C E} (h : s.next D H derive glob l = some s') :
    BusMoves D H derive s l s' := by
  cases l with
  | client l =>
    simp only [BusSys.next] at h
    split_ifs at h with hl
    obtain ⟨sys', hsys, rfl⟩ := Option.map_eq_some_iff.1 h
    exact .client hl (Sys.moves hsys)
  | submit w c =>
    simp only [BusSys.next] at h
    split at h
    · cases h
      exact .submit ‹_›
    · cases h
  | invoke w cfg => exact moves_invoke h
  | journalAppend w => exact moves_journalAppend h
  | readEnvelopes w fault => exact moves_readEnvelopes h
  | journalEnvelopes w =>
    simp only [BusSys.next, BusSys.journalEnvelopes] at h
    split at h
    · cases h
      exact .goes_keys ‹_› ‹_› .journalEnvelopes
    · cases h
  | seed w fault => exact moves_seed h
  | tail w fault => exact moves_tail h
  | journalState w =>
    simp only [BusSys.next, BusSys.journalState] at h
    split at h
    · cases h
      exact .goes_keys ‹_› ‹_› .journalState
    · cases h
  | fanOut w exhausted failed => exact moves_fanOut h
  | crash w =>
    cases h
    exact .crash

end Moves

end EventStore
