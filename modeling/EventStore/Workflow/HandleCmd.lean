import EventStore.Prog.Basic
import EventStore.Workflow.Bus

/-!
# `HandleCmd` as a program

`cmdworkflow.Workflow` with everything it asks the workflow engine for: the steps `append`,
`read-envelopes` and `read-state`, one step for each `Sync` subscriber and one for each row of the
dead letter queue, the child workflows of `Async` subscribers, and the `HandleCmd` of a compensating
command, in which all this happens again under longer step names.  `Workflow.Bus` has the first
three steps with the accesses to the store they consist of; here a step is one access, answered by
the engine, and what is done between the steps is written out.

A command is a `Prog` over `BusOp`.  Compensations may nest without end, so `handleCmd` has a bound
on the depth; a call beyond it fails with `tooDeep`.  The bytes of a step are kept as the values
they encode.

## Main definitions

* `Consumer`, `Workflow` : a subscriber, and the subscribers that `register` has accepted.
* `Parcel`, `Handoff` : the envelopes for one subscriber, and with the state and the events.
* `BusOp`, `BusOp.Answer` : what the engine is asked for.
* `Workflow.handleCmd`, `Workflow.child` : `HandleCmd`, and what `spawnAsync` starts.
-/

namespace EventStore

/-! ### Subscribers -/

/-- `Subscriber` with its budget and `Compensate`, which may be nil.  What `Handle` returns is an
answer of the engine. -/
structure Consumer (S C E : Type) extends Subscriber where
  maxRetries : Int64
  compensate : Option (List Envelope → S → List E → Except Err C)

/-- What `Register` asks of a subscriber. -/
structure Consumer.Accepted {S C E : Type} (s : Consumer S C E) : Prop where
  named : s.name ≠ ""
  compensates : s.onExhausted = .compensate → s.compensate.isSome
  waits : s.onExhausted = .compensate → s.mode = .sync

/-- `Workflow`.  The subscribers have been accepted one by one. -/
structure Workflow (K S C E : Type) where
  runtime : Runtime K S C E
  codec : Codec E
  /-- `path.Match`. -/
  glob : String → String → Bool
  /-- A writer of the dead letter queue is wired. -/
  dlq : Bool
  /-- `asyncSend` is set: child workflows are durable. -/
  asyncSend : Bool
  subscribers : List (Consumer S C E)
  accepted : ∀ s ∈ subscribers, s.Accepted
  distinct : (subscribers.map fun s => s.name).Nodup

variable {K S C E : Type}

/-- `New`. -/
def Workflow.new (runtime : Runtime K S C E) (codec : Codec E) (glob : String → String → Bool)
    (dlq asyncSend : Bool) : Workflow K S C E where
  runtime := runtime
  codec := codec
  glob := glob
  dlq := dlq
  asyncSend := asyncSend
  subscribers := []
  accepted _ hs := absurd hs List.not_mem_nil
  distinct := .nil

/-- `Register`; the errors are the texts it panics with. -/
def Workflow.register (W : Workflow K S C E) (s : Consumer S C E) :
    Except String (Workflow K S C E) :=
  if hname : s.name = "" then .error "cmdworkflow: Subscriber.Name is required"
  else if hcomp : s.onExhausted = .compensate ∧ s.compensate.isNone then
    .error ("cmdworkflow: Subscriber " ++ s.name ++
      ": OnExhausted=Compensate requires Compensate fn")
  else if hmode : s.mode = .async ∧ s.onExhausted = .compensate then
    .error ("cmdworkflow: Subscriber " ++ s.name ++
      ": Async + Compensate is disallowed (saga compensation requires Sync)")
  else if hdup : s.name ∈ W.subscribers.map fun s => s.name then
    .error ("cmdworkflow: duplicate Subscriber.Name: " ++ s.name)
  else .ok { W with
    subscribers := W.subscribers ++ [s]
    accepted := by
      intro x hx
      rcases List.mem_append.1 hx with hx | hx
      · exact W.accepted x hx
      · obtain rfl := List.mem_singleton.1 hx
        refine ⟨hname, fun h => ?_, fun h => ?_⟩
        · by_contra hc
          exact hcomp ⟨h, by simpa using hc⟩
        · cases hm : x.mode with
          | sync => rfl
          | async => exact absurd ⟨hm, h⟩ hmode
    distinct := by
      rw [List.map_append, List.map_singleton, List.nodup_append_comm, List.singleton_append]
      exact List.nodup_cons.2 ⟨hdup, W.distinct⟩ }

/-! ### What a subscriber is handed -/

/-- The compensations a call of `HandleCmd` is part of, outermost first: the subscriber and the
first event of its batch.  It is what the prefix in the context consists of. -/
abbrev Level := List (String × UUID)

/-- The envelopes for a subscriber. -/
structure Parcel (S C E : Type) where
  level : Level
  sub : Consumer S C E
  envs : List Envelope
  nonempty : envs ≠ []

/-- `envs[0].EventID`. -/
def Parcel.firstID (p : Parcel S C E) : UUID := (p.envs.head p.nonempty).eventID

/-- The arguments of a subscriber's `Handle`. -/
structure Handoff (S C E : Type) extends Parcel S C E where
  state : S
  events : List E

/-- The loop over the envelopes for one subscriber: those that match, with their events. -/
def Subscriber.select (glob : String → String → Bool) (s : Subscriber) :
    List Envelope → List E → List Envelope × List E
  | env :: envs, evt :: events =>
    let rest := s.select glob envs events
    if s.filter.matches glob env then (env :: rest.1, evt :: rest.2) else rest
  | _, _ => ([], [])

/-- `SubscriberDLQRow`, without the time it is enqueued at. -/
structure SubscriberDLQRow where
  subscriberName : String
  tenantID : String
  streamID : String
  eventIDs : List String
  typeURLs : List String
  lastError : String
  attempts : Int64
  deriving DecidableEq

/-- The row for a delivery. -/
def Handoff.row (d : Handoff S C E) (sid : StreamID) (lastErr : String) : SubscriberDLQRow where
  subscriberName := d.sub.name
  tenantID := (d.envs.head d.nonempty).tenantID
  streamID := sid.canonical
  eventIDs := d.envs.map fun env => env.eventID.string
  typeURLs := d.envs.map Envelope.typeURL
  lastError := lastErr
  attempts := d.sub.maxRetries + 1

/-! ### What the engine is asked for -/

/-- The requests of a command. -/
inductive BusOp (S C E : Type) where
  /-- `Run` of the step `append`. -/
  | append (level : Level) (sid : StreamID) (cmd : C) (idempotencyKey : String)
  | readEnvelopes (level : Level) (sid : StreamID) (result : AppendResult)
  | readState (level : Level) (sid : StreamID)
  /-- `RunAsync` of the step of a `Sync` subscriber. -/
  | runSync (d : Handoff S C E)
  /-- `Wait` of the future of this step. -/
  | wait (d : Handoff S C E)
  /-- `Spawn`, or `asyncSend`. -/
  | spawn (p : Parcel S C E)
  /-- `runRetries` in a child workflow, which is not a step. -/
  | attempts (d : Handoff S C E)
  /-- `onExhausted` is called; nothing is asked for. -/
  | policy (d : Handoff S C E) (lastErr : String)
  /-- `Run` of the step that inserts a row in the dead letter queue. -/
  | insertDLQ (level : Level) (d : Handoff S C E) (row : SubscriberDLQRow)
  /-- `Load` outside of a step. -/
  | load (sid : StreamID)

namespace BusOp

/-- What the engine answers.  `Wait` gives the message of the last error, empty after a success. -/
def Answer : BusOp S C E → Type
  | append .. => Except Err AppendResult
  | readEnvelopes .. => Except Err (List Envelope)
  | readState .. => Except Err (Option Bytes)
  | runSync _ => Unit
  | wait _ => Except Err String
  | spawn _ => Except Err Unit
  | attempts _ => Option String
  | policy .. => Unit
  | insertDLQ .. => Except Err Unit
  | load _ => Except Err S

end BusOp

/-- A program on the engine. -/
abbrev BusProg (S C E α : Type) := Prog (BusOp S C E) BusOp.Answer Err α

/-! ### The program -/

namespace Workflow

variable (W : Workflow K S C E)

/-- `appendStep`. -/
def appendStep (level : Level) (sid : StreamID) (cmd : C) (key : String) :
    BusProg S C E AppendResult :=
  .access (.append level sid cmd key) Prog.ofExcept

/-- `readEnvelopesStep`. -/
def readEnvelopesStep (level : Level) (sid : StreamID) (result : AppendResult) :
    BusProg S C E (List Envelope) :=
  .access (.readEnvelopes level sid result) Prog.ofExcept

/-- `readStateStep`. -/
def readStateStep (level : Level) (sid : StreamID) : BusProg S C E S :=
  .access (.readState level sid) fun raw =>
    .ofExcept (Except.bind raw W.runtime.decodeState)

/-- The loop over the subscribers: `Async` ones are spawned, the steps of `Sync` ones are started
and returned. -/
def dispatch (level : Level) (envs : List Envelope) (state : S) (events : List E) :
    List (Consumer S C E) → BusProg S C E (List (Handoff S C E))
  | [] => return []
  | sub :: subs =>
    let batch := sub.select W.glob envs events
    if hne : batch.1 = [] then
      -- no matching envelopes: no journal entry
      dispatch level envs state events subs
    else
      let p : Parcel S C E := ⟨level, sub, batch.1, hne⟩
      if sub.mode = .async then
        .access (.spawn p) fun r => do
          .ofExcept (r : Except Err Unit)
          dispatch level envs state events subs
      else
        let d : Handoff S C E := ⟨p, state, batch.2⟩
        .access (.runSync d) fun _ => do
          let ds ← dispatch level envs state events subs
          return d :: ds

/-- The loop over the futures: the deliveries that used up their budget, with the last error. -/
def waitAll : List (Handoff S C E) → BusProg S C E (List (Handoff S C E × String))
  | [] => return []
  | d :: ds =>
    .access (.wait d) fun r => do
      let raw ← .ofExcept ((r : Except Err String).mapError
        (.wrap ("cmdworkflow: subscriber " ++ d.sub.name)))
      let rest ← waitAll ds
      return if raw = "" then rest else (d, raw) :: rest

/-- `onExhausted`; `level` is the prefix in the context, and `nested` is `HandleCmd`. -/
def onExhausted (nested : Level → StreamID → C → BusProg S C E S) (level : Level) (sid : StreamID)
    (d : Handoff S C E) (lastErr : String) : BusProg S C E Unit :=
  .access (.policy d lastErr) fun _ =>
    match d.sub.onExhausted with
    | .drop => return ()
    | .dlq =>
      if W.dlq then .access (.insertDLQ level d (d.row sid lastErr)) Prog.ofExcept
      else .fail (.wrap ("cmdworkflow: subscriber " ++ d.sub.name ++ " exhausted (no DLQ wired)")
        (.text lastErr))
    | .compensate =>
      match d.sub.compensate with
      | none => .fail (.text ("cmdworkflow: OnExhausted=Compensate but Compensate fn is nil " ++
          "(should have been caught at Register)"))
      | some compensate => do
        let cmd ← .ofExcept ((compensate d.envs d.state d.events).mapError
          (.wrap ("cmdworkflow: subscriber " ++ d.sub.name ++ " compensate fn")))
        let _ ← nested (level ++ [(d.sub.name, d.firstID)]) sid cmd
        return ()

/-- The loop over the exhausted deliveries. -/
def applyAll (nested : Level → StreamID → C → BusProg S C E S) (level : Level) (sid : StreamID) :
    List (Handoff S C E × String) → BusProg S C E Unit
  | [] => return ()
  | x :: xs => do
    W.onExhausted nested level sid x.1 x.2
    applyAll nested level sid xs

/-- `Load` outside of a step. -/
def loadState (sid : StreamID) (f : Err → Err) : BusProg S C E S :=
  .access (.load sid) fun r => .ofExcept (Except.mapError f r)

/-- `HandleCmd` after the append: the deliveries are made, and the exhausted ones returned. -/
def deliver (level : Level) (sid : StreamID) (result : AppendResult) :
    BusProg S C E (S × List (Handoff S C E × String)) := do
  let envs ← readEnvelopesStep level sid result
  let state ← W.readStateStep level sid
  let events ← .ofExcept ((decodeEvents W.codec 0 envs).mapError
    (.wrap "cmdworkflow: decode events"))
  let syncs ← W.dispatch level envs state events W.subscribers
  let toApply ← waitAll syncs
  return (state, toApply)

/-- `HandleCmd` after the deliveries. -/
def settle (nested : Level → StreamID → C → BusProg S C E S) (level : Level) (sid : StreamID)
    (x : S × List (Handoff S C E × String)) : BusProg S C E S := do
  W.applyAll nested level sid x.2
  -- a compensation has moved the state on
  if x.2.any fun e => e.1.sub.onExhausted = .compensate then loadState sid id else return x.1

/-- The error of a call that is nested deeper than the bound. -/
def tooDeep : Err := .text "compensations are nested deeper than the bound"

/-- `HandleCmd`, with compensations nested at most `depth` deep. -/
def handleCmd : (depth : ℕ) → Level → StreamID → C → String → BusProg S C E S
  | 0, _, _, _, _ => .fail tooDeep
  | depth + 1, level, sid, cmd, key => do
    let result ← appendStep level sid cmd key
    if result.startVersion = 0 ∧ result.endVersion = 0 then loadState sid id
    else do
      let x ← W.deliver level sid result
      W.settle (fun level sid cmd => handleCmd depth level sid cmd "") level sid x

/-! ### Child workflows -/

/-- The retries of a child workflow, and its policy. -/
def runChild (depth : ℕ) (level : Level) (sid : StreamID) (d : Handoff S C E) :
    BusProg S C E Unit :=
  .access (.attempts d) fun r =>
    match (r : Option String) with
    | none => return ()
    | some lastErr =>
      W.onExhausted (fun level sid cmd => W.handleCmd depth level sid cmd "") level sid d lastErr

/-- `DispatchAsync`, in a workflow of its own: nothing is left of the prefix in the context.  The
level of the delivery is that of the command it is for. -/
def dispatchAsync (depth : ℕ) (level : Level) (name : String) (envs : List Envelope) :
    BusProg S C E Unit :=
  match W.subscribers.find? fun s => s.name = name with
  | none => .fail (.text ("cmdworkflow: DispatchAsync: subscriber \"" ++ name ++
      "\" not registered"))
  | some sub =>
    if hne : envs = [] then .fail (.text "cmdworkflow: DispatchAsync: empty envelope batch")
    else do
      let events ← .ofExcept ((decodeEvents W.codec 0 envs).mapError
        (.wrap "cmdworkflow: DispatchAsync: decode events"))
      let sid := (envs.head hne).streamID
      let state ← loadState sid (.wrap "cmdworkflow: DispatchAsync: load state")
      W.runChild depth [] sid ⟨⟨level, sub, envs, hne⟩, state, events⟩

/-- What `spawnAsync` starts: `DispatchAsync` with the envelopes as they come out of the payload, or
the function it gives to `Spawn`, which keeps the context. -/
def child (depth : ℕ) (sid : StreamID) (p : Parcel S C E) : BusProg S C E Unit :=
  if W.asyncSend then
    W.dispatchAsync depth p.level p.sub.name (p.envs.map Envelope.journaled)
  else do
    let events ← .ofExcept (decodeEvents W.codec 0 p.envs)
    let state ← loadState sid id
    W.runChild depth p.level sid ⟨p, state, events⟩

end Workflow

end EventStore
