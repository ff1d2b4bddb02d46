import Mathlib.Algebra.Ring.Int.Defs
import Mathlib.Algebra.Ring.Nat

/-!
# The data model of the event store

The types the storage contract (`es.Store`) is written in: stream identities, actors, events on
their way into the store (`EventToAppend`, `AppendParams`) and out of it (`Envelope`), and the
errors of the framework.

Go values are translated as follows.  A `string` is a `String` and a `[]byte` is a list of bytes;
where the code tells a nil slice from an empty one the field is an `Option`.  A `uint64` that
counts versions or positions is a natural number.  A `time.Time` is its instant, in nanoseconds
since the Unix epoch: the location of a time is never stored, and every use of it in the code is
after `UTC()`.  A `uuid.UUID` is its canonical text, which is what `String()` returns and what the
SQLite columns hold.
-/

namespace EventStore

/-- A byte slice. -/
abbrev Bytes := List UInt8

/-- An instant, in nanoseconds since the Unix epoch. -/
abbrev Time := ℤ

/-- A UUID, by its canonical text. -/
structure UUID where
  /-- `String()`. -/
  string : String
  deriving DecidableEq, Repr

/-! ### Errors -/

/-- The sentinel errors callers match with `errors.Is`. -/
inductive Sentinel where
  /-- `es.ErrConflict` -/
  | conflict
  /-- `es.ErrConstraintViolated` -/
  | constraintViolated
  /-- `es.ErrTenantMissing` -/
  | tenantMissing
  /-- `es.ErrInvalidStreamID` -/
  | invalidStreamID
  /-- `es.ErrTerminal` -/
  | terminal
  /-- `es.ErrStateNotFound` -/
  | stateNotFound
  /-- `es.ErrChainBroken` -/
  | chainBroken
  /-- `es.ErrKMSUnavailable` -/
  | kmsUnavailable
  /-- `es.ErrCryptoIntegrity` -/
  | cryptoIntegrity
  /-- `shred.ErrShredded` -/
  | shredded
  deriving DecidableEq, Repr

/-- A Go error: a sentinel, an error with a text of its own, or one wrapped with `%w`. -/
inductive Err where
  | sentinel (s : Sentinel)
  | text (msg : String)
  | wrap (context : String) (inner : Err)
  deriving DecidableEq, Repr

/-- `errors.Is(e, s)`. -/
def Err.is : Err → Sentinel → Bool
  | .sentinel t, s => decide (t = s)
  | .text _, _ => false
  | .wrap _ e, s => e.is s

/-! ### Stream identities -/

/-- `es.StreamID`. -/
structure StreamID where
  /-- Required, non-empty. -/
  tenant : String
  /-- A slug. -/
  type : String
  /-- A slug. -/
  id : String
  deriving DecidableEq, Repr

/-- A character that may start a slug: `[a-z0-9]`. -/
def isSlugHead (c : Char) : Bool := ('a' ≤ c && c ≤ 'z') || ('0' ≤ c && c ≤ '9')

/-- A character of a slug after the first: `[a-z0-9_-]`. -/
def isSlugTail (c : Char) : Bool := isSlugHead c || c == '_' || c == '-'

/-- `slugRe.MatchString`: the regular expression `^[a-z0-9][a-z0-9_-]{0,127}$`. -/
def slugMatch (s : String) : Bool :=
  match s.toList with
  | [] => false
  | c :: cs => isSlugHead c && decide (cs.length ≤ 127) && cs.all isSlugTail

namespace StreamID

/-- `StreamID.Validate`. -/
def validate (s : StreamID) : Except Err Unit :=
  if s.tenant = "" then .error (.sentinel .tenantMissing)
  else if !slugMatch s.type || !slugMatch s.id then .error (.sentinel .invalidStreamID)
  else .ok ()

/-- `StreamID.Canonical`: the storage form, without the tenant. -/
def canonical (s : StreamID) : String := s.type ++ ":" ++ s.id

/-- The identity is well formed. -/
def Valid (s : StreamID) : Prop := s.validate = .ok ()

instance (s : StreamID) : Decidable s.Valid :=
  match h : s.validate with
  | .ok () => isTrue h
  | .error _ => isFalse (by simp [Valid, h])

end StreamID

/-- `es.NewStreamID`. -/
def newStreamID (tenant typ id : String) : Except Err StreamID := do
  let sid : StreamID := ⟨tenant, typ, id⟩
  sid.validate
  return sid

/-- `es.ParseCanonical`: split the storage form at its first colon. -/
def parseCanonical (tenant canonical : String) : Except Err StreamID :=
  let typ := canonical.toList.takeWhile (· ≠ ':')
  match canonical.toList.dropWhile (· ≠ ':') with
  | [] => .error (.sentinel .invalidStreamID)
  | _ :: id =>
    if typ = [] ∨ id = [] then .error (.sentinel .invalidStreamID)
    else newStreamID tenant (String.ofList typ) (String.ofList id)

/-! ### Actors and events -/

/-- A `map[string]string`: entries in the order of their keys, each key once, so that equal maps
are equal values.  A nil map is the empty one. -/
structure StringMap where
  /-- Keys and values. -/
  entries : List (String × String)
  /-- The keys increase. -/
  sorted : entries.Pairwise fun a b => a.1 < b.1
  deriving DecidableEq

/-- The map without entries. -/
def StringMap.empty : StringMap := ⟨[], .nil⟩

/-- `es.Actor`. -/
structure Actor where
  kind : ℤ
  principal : String
  onBehalfOf : String
  apiKeyID : String
  attributes : StringMap
  deriving DecidableEq

/-- The zero `es.Actor`. -/
def Actor.zero : Actor := ⟨0, "", "", "", .empty⟩

/-- `es.ConstraintOpKind`, an `int` with two named values. -/
inductive ConstraintOpKind where
  /-- `ClaimConstraint` -/
  | claim
  /-- `ReleaseConstraint` -/
  | release
  /-- Any other value. -/
  | unknown (op : ℤ)
  deriving DecidableEq, Repr

/-- `es.ConstraintOp`. -/
structure ConstraintOp where
  op : ConstraintOpKind
  scope : String
  value : String
  deriving DecidableEq, Repr

/-- `es.EventToAppend`. -/
structure EventToAppend where
  eventID : UUID
  typeURL : String
  schemaVersion : UInt32
  occurredAt : Time
  correlationID : UUID
  causationID : UUID
  commandID : UUID
  actor : Actor
  payload : Bytes
  payloadJSON : Option Bytes
  keyRefs : Option Bytes

/-- `es.AppendParams`. -/
structure AppendParams where
  streamID : StreamID
  expectedVersion : ℕ
  events : List EventToAppend
  constraints : List ConstraintOp
  /-- The state to cache; nil when no `StateCodec` is wired. -/
  newStateBytes : Option Bytes
  stateTypeURL : String
  stateSchemaVersion : UInt32
  terminal : Bool

/-- `es.AppendResult`. -/
structure AppendResult where
  startVersion : ℕ
  endVersion : ℕ
  startGlobalPosition : ℕ
  endGlobalPosition : ℕ
  recordedAt : Time
  deriving DecidableEq, Repr

/-- The zero `es.AppendResult`, which a no-op `Handle` returns. -/
def AppendResult.zero : AppendResult := ⟨0, 0, 0, 0, 0⟩

/-- `es.Envelope`. -/
structure Envelope where
  eventID : UUID
  tenantID : String
  streamID : StreamID
  version : ℕ
  globalPosition : ℕ
  typeURL : String
  schemaVersion : UInt32
  occurredAt : Time
  recordedAt : Time
  correlationID : UUID
  causationID : UUID
  commandID : UUID
  actor : Actor
  payload : Bytes
  payloadJSON : Option Bytes
  keyRefs : Option Bytes
  /-- Empty for rows older than the chain. -/
  hash : Bytes
  prevHash : Bytes
  deriving DecidableEq

end EventStore
