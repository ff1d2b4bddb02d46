import EventStore.Storage.Read

/-!
# The aggregate runtime

`aggregate.Runtime`: a decider run against the store.  `Load` replays a stream, from the cached
state when there is a usable one; `Handle` loads, decides and appends.

The two reads of `Load` and the append of `Handle` are separate calls of the store, and other
clients may write in between.  So `Handle` is cut at those calls: `seed` is what `Load` makes of
the cache, `loadTail` what it makes of the events after it, and `decideAppend` what `Handle` makes
of the loaded state.  `Runtime.load` puts the first two together for a store nobody writes to.

A runtime may have a shredder, which keeps keys in a place of its own: the state `K` of the
computations below.  Without a shredder they leave it alone.
-/

namespace EventStore

/-- `es.Decider`: states `S`, commands `C`, events `E`. -/
structure Decider (S C E : Type) where
  initial : S
  /-- The events a command leads to, with the constraint operations that go with them. -/
  decide : S → C → Except Err (List E × List ConstraintOp)
  evolve : S → E → S
  /-- nil means "never terminal". -/
  isTerminal : Option (S → Bool)

/-- `aggregate.EncodedEvent`. -/
structure EncodedEvent where
  payload : Bytes
  typeURL : String
  schemaVersion : UInt32

/-- `aggregate.Codec`. -/
structure Codec (E : Type) where
  encode : E → Except Err EncodedEvent
  decode : String → UInt32 → Bytes → Except Err E

/-- `aggregate.StateCodec`: the state as bytes (nil or not) and the name of its type. -/
structure StateCodec (S : Type) where
  encode : S → Except Err (Option Bytes × String)
  decode : Bytes → Except Err S

/-- What a runtime uses of `shred.Shredder` and of the generated `shred.PIIEncoder` methods. -/
structure Shredder (K E : Type) where
  /-- `Subject()`, for an event that is a `PIIEncoder`. -/
  subject : E → Option String
  /-- `EncryptPII`, for a tenant and a default subject, on a copy of the event. -/
  encryptPII : String → String → E → EStateM Err K E
  /-- `DecryptPII`; fields of a shredded subject come back as their zero values. -/
  decryptPII : String → String → E → EStateM Err K E

namespace Shredder

variable {K E : Type} (sh : Shredder K E)

/-- The event, encrypted if it is a `PIIEncoder`; the stream stands in for a missing subject. -/
def encrypt (sid : StreamID) (evt : E) : EStateM Err K E :=
  match sh.subject evt with
  | none => pure evt
  | some subject => sh.encryptPII sid.tenant (if subject = "" then sid.id else subject) evt

/-- The event, decrypted if it is a `PIIEncoder`. -/
def decrypt (sid : StreamID) (evt : E) : EStateM Err K E :=
  match sh.subject evt with
  | none => pure evt
  | some subject => sh.decryptPII sid.tenant (if subject = "" then sid.id else subject) evt

end Shredder

/-- `aggregate.Runtime`. -/
structure Runtime (K S C E : Type) where
  decider : Decider S C E
  codec : Codec E
  stateCodec : Option (StateCodec S)
  stateSchemaVersion : UInt32
  shredder : Option (Shredder K E)

/-- `handleConfig`: the metadata of the events of one call. -/
structure HandleConfig where
  commandID : UUID
  correlationID : UUID
  causationID : UUID
  occurredAt : Time
  actor : Actor

namespace Decider

variable {S C E : Type} (d : Decider S C E)

/-- The state after a list of events. -/
def fold (s : S) (es : List E) : S := es.foldl d.evolve s

/-- `IsTerminal != nil && IsTerminal(state)`. -/
def terminal (s : S) : Bool :=
  match d.isTerminal with
  | some f => f s
  | none => false

end Decider

namespace Runtime

variable {K S C E : Type} (rt : Runtime K S C E)

/-- `stateSchemaVersion`. -/
def schema : UInt32 := defaultSchema rt.stateSchemaVersion

/-! ### Load -/

/-- What `Load` starts from: the cached state and its version if the row can be used, otherwise
the initial state and version 0.  No failure of the cache is an error. -/
def seed (got : Except Err CachedState) : S × ℕ :=
  match rt.stateCodec, got with
  | some sc, .ok row =>
    -- a row of another schema version is not decoded
    if 0 < row.version ∧ row.stateSchemaVersion = rt.schema then
      match sc.decode (row.state.getD []) with
      | .ok s => (s, row.version)
      | .error _ => (rt.decider.initial, 0)
    else (rt.decider.initial, 0)
  | _, _ => (rt.decider.initial, 0)

/-- The name of an event in the errors of `Load`. -/
def eventName (env : Envelope) : String :=
  let typeURL := env.typeURL
  let v := env.schemaVersion
  s!"{typeURL} v{v}"

/-- An envelope as an event: decoded and, with a shredder, decrypted. -/
def openEvent (sid : StreamID) (env : Envelope) : EStateM Err K E := do
  let name := eventName env
  let evt ← EStateM.ofExcept
    ((rt.codec.decode env.typeURL env.schemaVersion env.payload).mapError
      (.wrap s!"aggregate: decode event {name}"))
  match rt.shredder with
  | none => pure evt
  | some sh => EStateM.adaptExcept (.wrap s!"aggregate: decrypt {name}") (sh.decrypt sid evt)

/-- The loop of `Load`. -/
def replay (sid : StreamID) : List Envelope → S × ℕ → EStateM Err K (S × ℕ)
  | [], acc => pure acc
  | env :: envs, acc => do
    let evt ← rt.openEvent sid env
    replay sid envs (rt.decider.evolve acc.1 evt, env.version)

/-- `Load` from what it starts from and what `ReadStream` returns. -/
def loadTail (sid : StreamID) (start : S × ℕ) (read : Except Err (List Envelope)) :
    EStateM Err K (S × ℕ) := do
  let envs ← EStateM.ofExcept (read.mapError (.wrap "aggregate: load"))
  rt.replay sid envs start

/-- `Runtime.Load`, both reads on the same database. -/
def load {κ : Columns} (D : Dialect κ) (db : Db κ) (sid : StreamID) : EStateM Err K (S × ℕ) :=
  let start := rt.seed (getState D db sid)
  rt.loadTail sid start (readStream D db sid start.2)

/-! ### Handle -/

/-- An event as it is handed to `Codec.Encode`. -/
def sealEvent (sid : StreamID) (i : ℕ) (evt : E) : EStateM Err K E :=
  match rt.shredder with
  | none => pure evt
  | some sh => EStateM.adaptExcept (.wrap s!"aggregate: encrypt event {i}") (sh.encrypt sid evt)

/-- One event as an `EventToAppend`. -/
def toAppend (cfg : HandleConfig) (id : UUID) (enc : EncodedEvent) : EventToAppend where
  eventID := id
  typeURL := enc.typeURL
  schemaVersion := enc.schemaVersion
  occurredAt := cfg.occurredAt
  correlationID := cfg.correlationID
  causationID := cfg.causationID
  commandID := cfg.commandID
  actor := cfg.actor
  payload := enc.payload
  payloadJSON := none
  keyRefs := none

/-- The loop of `Handle` over the decided events; `ids` are the ids it generates. -/
def encodeEvents (sid : StreamID) (cfg : HandleConfig) (ids : ℕ → UUID) :
    ℕ → List E → EStateM Err K (List EventToAppend)
  | _, [] => pure []
  | i, evt :: evts => do
    let sealed ← rt.sealEvent sid i evt
    let enc ← EStateM.ofExcept
      ((rt.codec.encode sealed).mapError (.wrap s!"aggregate: encode event {i}"))
    let rest ← encodeEvents sid cfg ids (i + 1) evts
    return toAppend cfg (ids i) enc :: rest

/-- The parameters of the append, with the state to cache if a `StateCodec` is wired.  The state
is the fold of the events as they were decided. -/
def appendParams (sid : StreamID) (version : ℕ) (toAppend : List EventToAppend)
    (constraints : List ConstraintOp) (newState : S) : Except Err AppendParams :=
  match rt.stateCodec with
  | none => .ok ⟨sid, version, toAppend, constraints, none, "", 0, false⟩
  | some sc => do
    let (bytes, typeURL) ← (sc.encode newState).mapError (.wrap "aggregate: encode state")
    return ⟨sid, version, toAppend, constraints, bytes, typeURL, rt.schema,
      rt.decider.terminal newState⟩

/-- `Handle` between its reads and its append: the events decided and the parameters of the
append, or nothing for a command that leads to no events. -/
def decideAppend (sid : StreamID) (cmd : C) (cfg : HandleConfig) (ids : ℕ → UUID)
    (loaded : S × ℕ) : EStateM Err K (Option (List E × AppendParams)) :=
  if rt.decider.terminal loaded.1 then throw (.sentinel .terminal)
  else do
    let (events, constraints) ← EStateM.ofExcept
      ((rt.decider.decide loaded.1 cmd).mapError (.wrap "aggregate: decide"))
    if events.isEmpty then pure none
    else do
      let toAppend ← rt.encodeEvents sid cfg ids 0 events
      -- the state to cache is folded from the events before encryption
      let p ← EStateM.ofExcept
        (rt.appendParams sid loaded.2 toAppend constraints (rt.decider.fold loaded.1 events))
      pure (some (events, p))

/-- `Handle` with nothing in between: what it returns, with the keys and the database it leaves. -/
def handle {κ : Columns} (D : Dialect κ) (H : Hasher) (en : Engine) (sid : StreamID) (cmd : C)
    (cfg : HandleConfig) (ids : ℕ → UUID) (k : K) (db : Db κ) :
    Except Err AppendResult × K × Db κ :=
  match rt.load D db sid k with
  | .error e k' => (.error e, k', db)
  | .ok loaded k₁ =>
    match rt.decideAppend sid cmd cfg ids loaded k₁ with
    | .error e k' => (.error e, k', db)
    | .ok none k' => (.ok .zero, k', db)
    | .ok (some (_, p)) k' => ((append D H en p db).1, k', (append D H en p db).2)

/-! ### What the parts return -/

variable {rt}

/-- `Load` starts from a row of the right schema version that decodes, or from nothing. -/
theorem seed_cases (got : Except Err CachedState) :
    rt.seed got = (rt.decider.initial, 0) ∨
      ∃ sc row s, rt.stateCodec = some sc ∧ got = .ok row ∧ 0 < row.version ∧
        row.stateSchemaVersion = rt.schema ∧ sc.decode (row.state.getD []) = .ok s ∧
        rt.seed got = (s, row.version) := by
  unfold seed
  split
  · rename_i sc row hsc
    split_ifs with hrow
    · split
      · rename_i s hs
        exact Or.inr ⟨sc, row, s, hsc, rfl, hrow.1, hrow.2, hs, rfl⟩
      · exact Or.inl rfl
    · exact Or.inl rfl
  · exact Or.inl rfl

theorem replay_cons_eq_ok {sid : StreamID} {env : Envelope} {envs : List Envelope} {acc st : S × ℕ}
    {k k' : K} : rt.replay sid (env :: envs) acc k = .ok st k' ↔ ∃ evt k₁,
      rt.openEvent sid env k = .ok evt k₁ ∧
        rt.replay sid envs (rt.decider.evolve acc.1 evt, env.version) k₁ = .ok st k' := by
  rw [replay, EStateM.bind_eq_ok]

theorem loadTail_eq_ok {sid : StreamID} {start st : S × ℕ} {read : Except Err (List Envelope)}
    {k k' : K} : rt.loadTail sid start read k = .ok st k' ↔
      ∃ envs, read = .ok envs ∧ rt.replay sid envs start k = .ok st k' := by
  simp only [loadTail, EStateM.bind_eq_ok, EStateM.ofExcept_eq_ok, Except.mapError_eq_ok]
  constructor
  · rintro ⟨envs, _, ⟨hr, rfl⟩, h⟩
    exact ⟨envs, hr, h⟩
  · rintro ⟨envs, hr, h⟩
    exact ⟨envs, k, ⟨hr, rfl⟩, h⟩

theorem getLast_version {env : Envelope} {envs : List Envelope} {v : ℕ} :
    ((env :: envs).getLast?.map Envelope.version).getD v =
      (envs.getLast?.map Envelope.version).getD env.version := by
  cases envs with
  | nil => rfl
  | cons a as => rw [List.getLast?_cons_cons, List.getLast?_cons]; rfl

/-- The version `Load` returns is that of the last event, or the one it started from. -/
theorem replay_version {sid : StreamID} {envs : List Envelope} {acc st : S × ℕ} {k k' : K}
    (h : rt.replay sid envs acc k = .ok st k') :
    st.2 = (envs.getLast?.map Envelope.version).getD acc.2 := by
  induction envs generalizing acc k with
  | nil =>
    rw [replay, EStateM.pure_eq_ok] at h
    rw [← h.1]
    rfl
  | cons env envs ih =>
    obtain ⟨evt, k₁, -, h⟩ := replay_cons_eq_ok.1 h
    rw [ih h, getLast_version]

/-! ### Properties of the keys -/

section Keys

variable {I : K → Prop} {sid : StreamID} {k k' : K}

variable (rt I sid) in
/-- Encrypting and decrypting the events of a stream keeps a property of the keys. -/
def KeepsKeys : Prop :=
  ∀ sh, rt.shredder = some sh → ∀ evt, EStateM.Keeps I (sh.encrypt sid evt) ∧
    EStateM.Keeps I (sh.decrypt sid evt)

theorem KeepsKeys.sealEvent (hI : rt.KeepsKeys I sid) (i : ℕ) (evt : E) :
    EStateM.Keeps I (rt.sealEvent sid i evt) := by
  unfold Runtime.sealEvent
  split
  · exact EStateM.keeps_pure evt
  · exact EStateM.keeps_adaptExcept (hI _ ‹_› evt).1

/-- Every event `Handle` appends was sealed under keys that have the property, and encoded. -/
theorem encodeEvents_ok (hI : rt.KeepsKeys I sid) {cfg : HandleConfig} {ids : ℕ → UUID} {i : ℕ}
    {evts : List E} {out : List EventToAppend} (hk : I k)
    (h : rt.encodeEvents sid cfg ids i evts k = .ok out k') :
    List.Forall₂ (fun evt ev => ∃ n k₁ k₂ sealed enc id, I k₁ ∧
      rt.sealEvent sid n evt k₁ = .ok sealed k₂ ∧ rt.codec.encode sealed = .ok enc ∧
      ev = toAppend cfg id enc) evts out := by
  induction evts generalizing i k out with
  | nil =>
    rw [Runtime.encodeEvents, EStateM.pure_eq_ok] at h
    exact h.1 ▸ .nil
  | cons evt evts ih =>
    simp only [Runtime.encodeEvents, EStateM.bind_eq_ok, EStateM.ofExcept_eq_ok,
      Except.mapError_eq_ok, EStateM.pure_eq_ok] at h
    obtain ⟨sealed, k₁, hseal, enc, _, ⟨henc, rfl⟩, rest, _, hrest, rfl, rfl⟩ := h
    exact .cons ⟨i, k, _, sealed, enc, ids i, hk, hseal, henc, rfl⟩
      (ih ((hI.sealEvent i evt).of_ok hk hseal) hrest)

theorem keepsKeys_true : rt.KeepsKeys (fun _ => True) sid := fun _ _ _ =>
  ⟨fun _ _ => trivial, fun _ _ => trivial⟩

/-- Every event `Handle` appends was encoded by its codec. -/
theorem encodeEvents_mem {cfg : HandleConfig} {ids : ℕ → UUID} {i : ℕ} {evts : List E}
    {out : List EventToAppend} (h : rt.encodeEvents sid cfg ids i evts k = .ok out k') :
    ∀ ev ∈ out, ∃ evt enc id, rt.codec.encode evt = .ok enc ∧ ev = toAppend cfg id enc := by
  intro ev hev
  obtain ⟨_, -, -, -, -, sealed, enc, id, -, -, henc, rfl⟩ :=
    exists_of_forall₂_right (encodeEvents_ok keepsKeys_true trivial h) hev
  exact ⟨sealed, enc, id, henc, rfl⟩

end Keys

/-! ### Without a shredder -/

section Plain

variable (hsh : rt.shredder = none)

variable (rt) in
/-- The codec reads the event from the envelope. -/
def Decodes (env : Envelope) (evt : E) : Prop :=
  rt.codec.decode env.typeURL env.schemaVersion env.payload = .ok evt

include hsh

theorem openEvent_eq_ok {sid : StreamID} {env : Envelope} {evt : E} {k k' : K} :
    rt.openEvent sid env k = .ok evt k' ↔ rt.Decodes env evt ∧ k' = k := by
  simp only [openEvent, hsh, EStateM.bind_eq_ok, EStateM.ofExcept_eq_ok, Except.mapError_eq_ok,
    EStateM.pure_eq_ok, Decodes]
  constructor
  · rintro ⟨_, _, ⟨hd, rfl⟩, rfl, rfl⟩
    exact ⟨hd, rfl⟩
  · rintro ⟨hd, rfl⟩
    exact ⟨_, _, ⟨hd, rfl⟩, rfl, rfl⟩

/-- `Load` folds the events it decodes. -/
theorem replay_of_decodes {sid : StreamID} {envs : List Envelope} {evts : List E}
    (h : List.Forall₂ rt.Decodes envs evts) (acc : S × ℕ) (k : K) :
    rt.replay sid envs acc k =
      .ok (rt.decider.fold acc.1 evts, (envs.getLast?.map Envelope.version).getD acc.2) k := by
  induction h generalizing acc with
  | nil => rfl
  | @cons env evt envs evts hd _ ih =>
    rw [replay_cons_eq_ok]
    exact ⟨evt, k, (openEvent_eq_ok hsh).2 ⟨hd, rfl⟩, by rw [ih, getLast_version]; rfl⟩

/-- `Handle` encodes the events as they were decided. -/
theorem encodeEvents_plain {sid : StreamID} {cfg : HandleConfig} {ids : ℕ → UUID} {i : ℕ}
    {evts : List E} {out : List EventToAppend} {k k' : K}
    (h : rt.encodeEvents sid cfg ids i evts k = .ok out k') :
    List.Forall₂ (fun evt ev => ∃ enc id, rt.codec.encode evt = .ok enc ∧ ev = toAppend cfg id enc)
      evts out := by
  refine (encodeEvents_ok keepsKeys_true trivial h).imp ?_
  rintro evt ev ⟨n, k₁, k₂, sealed, enc, id, -, hseal, henc, rfl⟩
  rw [sealEvent, hsh, EStateM.pure_eq_ok] at hseal
  exact ⟨enc, id, hseal.1 ▸ henc, rfl⟩

end Plain

variable (rt) in
/-- What `Handle` is about to append: the events decided on the loaded state, at the loaded
version. -/
structure Decided (sid : StreamID) (cmd : C) (cfg : HandleConfig) (loaded : S × ℕ)
    (events : List E) (p : AppendParams) : Prop where
  notTerminal : rt.decider.terminal loaded.1 = false
  decide : rt.decider.decide loaded.1 cmd = .ok (events, p.constraints)
  nonempty : events ≠ []
  streamID : p.streamID = sid
  expectedVersion : p.expectedVersion = loaded.2
  encoded : ∃ ids k k', rt.encodeEvents sid cfg ids 0 events k = .ok p.events k'
  state : rt.stateCodec = none ∧ p.newStateBytes = none ∨
    ∃ sc, rt.stateCodec = some sc ∧
      sc.encode (rt.decider.fold loaded.1 events) = .ok (p.newStateBytes, p.stateTypeURL) ∧
      p.stateSchemaVersion = rt.schema ∧
      p.terminal = rt.decider.terminal (rt.decider.fold loaded.1 events)

theorem appendParams_ok {sid : StreamID} {v : ℕ} {evs : List EventToAppend}
    {cs : List ConstraintOp} {newState : S} {p : AppendParams}
    (h : rt.appendParams sid v evs cs newState = .ok p) :
    p.streamID = sid ∧ p.expectedVersion = v ∧ p.events = evs ∧ p.constraints = cs ∧
      (rt.stateCodec = none ∧ p.newStateBytes = none ∨
        ∃ sc, rt.stateCodec = some sc ∧ sc.encode newState = .ok (p.newStateBytes, p.stateTypeURL) ∧
          p.stateSchemaVersion = rt.schema ∧ p.terminal = rt.decider.terminal newState) := by
  unfold appendParams at h
  split at h
  · rename_i hsc
    obtain rfl := Except.ok.inj h
    exact ⟨rfl, rfl, rfl, rfl, Or.inl ⟨hsc, rfl⟩⟩
  · rename_i sc hsc
    simp only [Except.bind_eq_ok, Except.mapError_eq_ok] at h
    obtain ⟨⟨bytes, url⟩, henc, h⟩ := h
    obtain rfl := Except.ok.inj h
    exact ⟨rfl, rfl, rfl, rfl, Or.inr ⟨sc, hsc, henc, rfl, rfl⟩⟩

theorem decideAppend_eq_some {sid : StreamID} {cmd : C} {cfg : HandleConfig} {ids : ℕ → UUID}
    {loaded : S × ℕ} {events : List E} {p : AppendParams} {k k' : K}
    (h : rt.decideAppend sid cmd cfg ids loaded k = .ok (some (events, p)) k') :
    rt.decider.terminal loaded.1 = false ∧ events ≠ [] ∧
      ∃ cs ta, rt.decider.decide loaded.1 cmd = .ok (events, cs) ∧
        rt.encodeEvents sid cfg ids 0 events k = .ok ta k' ∧
        rt.appendParams sid loaded.2 ta cs (rt.decider.fold loaded.1 events) = .ok p := by
  unfold decideAppend at h
  split_ifs at h with ht
  · cases h
  · simp only [EStateM.bind_eq_ok, EStateM.ofExcept_eq_ok, Except.mapError_eq_ok] at h
    obtain ⟨⟨evs, cs⟩, k₁, ⟨hd, rfl⟩, h⟩ := h
    dsimp only at h
    split_ifs at h with hne
    · cases h
    · simp only [EStateM.bind_eq_ok, EStateM.ofExcept_eq_ok, EStateM.pure_eq_ok] at h
      obtain ⟨ta, k₂, hta, p', k₃, ⟨hp, rfl⟩, hev, rfl⟩ := h
      obtain ⟨rfl, rfl⟩ := Prod.mk.inj (Option.some.inj hev)
      exact ⟨by simpa using ht, by simpa using hne, cs, ta, hd, hta, hp⟩

/-- The events of the append are encoded under the keys `Handle` finds. -/
theorem decideAppend_encoded {sid : StreamID} {cmd : C} {cfg : HandleConfig} {ids : ℕ → UUID}
    {loaded : S × ℕ} {events : List E} {p : AppendParams} {k k' : K}
    (h : rt.decideAppend sid cmd cfg ids loaded k = .ok (some (events, p)) k') :
    rt.encodeEvents sid cfg ids 0 events k = .ok p.events k' := by
  obtain ⟨-, -, cs, ta, -, hta, hp⟩ := decideAppend_eq_some h
  rw [(appendParams_ok hp).2.2.1]
  exact hta

theorem decideAppend_ok {sid : StreamID} {cmd : C} {cfg : HandleConfig} {ids : ℕ → UUID}
    {loaded : S × ℕ} {events : List E} {p : AppendParams} {k k' : K}
    (h : rt.decideAppend sid cmd cfg ids loaded k = .ok (some (events, p)) k') :
    rt.Decided sid cmd cfg loaded events p := by
  obtain ⟨hterm, hne, cs, ta, hd, -, hp⟩ := decideAppend_eq_some h
  obtain ⟨hs, hv, -, hc, hst⟩ := appendParams_ok hp
  exact ⟨hterm, hc ▸ hd, hne, hs, hv, ⟨ids, k, k', decideAppend_encoded h⟩, hst⟩

/-- A `Handle` fails and changes no table, has nothing to commit, or commits what it decided. -/
theorem handle_cases {κ : Columns} {D : Dialect κ} {sid : StreamID} {loaded : S × ℕ} {k k₁ : K}
    {db : Db κ} (H : Hasher) (en : Engine) (cmd : C) (cfg : HandleConfig) (ids : ℕ → UUID)
    (hload : rt.load D db sid k = .ok loaded k₁) :
    (∃ e k' db', rt.handle D H en sid cmd cfg ids k db = (.error e, k', db') ∧
        db.SameTables db') ∨
      (∃ k', rt.decideAppend sid cmd cfg ids loaded k₁ = .ok none k' ∧
        rt.handle D H en sid cmd cfg ids k db = (.ok .zero, k', db)) ∨
      ∃ events p r k' db', rt.decideAppend sid cmd cfg ids loaded k₁ = .ok (some (events, p)) k' ∧
        append D H en p db = (.ok r, db') ∧
        rt.handle D H en sid cmd cfg ids k db = (.ok r, k', db') := by
  unfold handle
  rw [hload]
  dsimp only
  rcases hd : rt.decideAppend sid cmd cfg ids loaded k₁ with ⟨_ | ⟨events, p⟩, k'⟩ | ⟨e, k'⟩
  · exact Or.inr (Or.inl ⟨k', rfl, rfl⟩)
  · rcases ha : append D H en p db with ⟨e | r, db'⟩
    · exact Or.inl ⟨e, k', db', by simp only [ha], append_error ha⟩
    · exact Or.inr (Or.inr ⟨events, p, r, k', db', rfl, ha, by simp only [ha]⟩)
  · exact Or.inl ⟨e, k', db, rfl, .refl db⟩

/-- Only a command that leads to no events has nothing to commit. -/
theorem decideAppend_none {sid : StreamID} {cmd : C} {cfg : HandleConfig} {ids : ℕ → UUID}
    {loaded : S × ℕ} {k k' : K} {events : List E} {cs : List ConstraintOp}
    (hd : rt.decider.decide loaded.1 cmd = .ok (events, cs))
    (h : rt.decideAppend sid cmd cfg ids loaded k = .ok none k') : events = [] := by
  unfold decideAppend at h
  split_ifs at h
  · cases h
  · obtain ⟨⟨evts, ops⟩, k₁, hdec, h⟩ := EStateM.bind_eq_ok.1 h
    rw [EStateM.ofExcept_eq_ok, Except.mapError_eq_ok, hd] at hdec
    cases hdec.1
    dsimp only at h
    split_ifs at h with hempty
    · simpa using hempty
    · obtain ⟨_, _, -, h⟩ := EStateM.bind_eq_ok.1 h
      obtain ⟨_, _, -, h⟩ := EStateM.bind_eq_ok.1 h
      cases (EStateM.pure_eq_ok.1 h).1

end Runtime

/-! ### A small aggregate -/

namespace Journal

/-- A journal of notes: a command is the list of notes to add, and the note 0 closes it. -/
def decider : Decider (List UInt8) (List UInt8) UInt8 where
  initial := []
  decide _ notes := .ok (notes, [])
  evolve s n := s ++ [n]
  isTerminal := some fun s => s.getLast? == some 0

/-- A note is its own payload. -/
def codec : Codec UInt8 where
  encode n := .ok ⟨[n], "journal.v1.Noted", 1⟩
  decode typeURL _ payload :=
    match payload with
    | [n] => if typeURL = "journal.v1.Noted" then .ok n else .error (.text "unknown type")
    | _ => .error (.text "not a note")

/-- The states start with their schema version. -/
def stateCodec (v : UInt32) : StateCodec (List UInt8) where
  encode s := .ok (some (v.toUInt8 :: s), "journal.v1.State")
  decode
    | b :: s => if b = v.toUInt8 then .ok s else .error (.text "other schema version")
    | [] => .error (.text "no schema version")

/-- A runtime for journals that caches states under a schema version, or not at all. -/
def runtime (K : Type) (cached : Bool) (v : UInt32) :
    Runtime K (List UInt8) (List UInt8) UInt8 where
  decider := decider
  codec := codec
  stateCodec := if cached then some (stateCodec (defaultSchema v)) else none
  stateSchemaVersion := v
  shredder := none

end Journal

end EventStore
