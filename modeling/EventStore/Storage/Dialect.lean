import EventStore.Storage.Schema
import Mathlib.Tactic.Common

/-!
# What the databases and drivers do to a value

The two adapters run the same statements in the same order.  Where they differ is collected in a
`Dialect`: how a value is brought into a column and back (`convert.go` of each adapter, and the
column types of its migrations), the name in the adapter's error texts, the statements a
transaction opens with, where `recorded_at` comes from, and whether a rollback gives back the
positions drawn.

`Sqlite.dialect` and `Postgres.dialect` are the two of the repository.  What the Go standard library
and the database engine compute (`time.Format`, `json.Marshal`, `jsonb`) is a parameter of each.

An `Engine` says what the database does during one call: its clock, and which statement fails for
a reason of its own (a lost connection, a full disk, a failed commit).
-/

namespace EventStore

/-- The statements of one append, by their place in it. -/
inductive Statement where
  /-- `BEGIN`. -/
  | begin
  /-- `SELECT set_config('app.tenant_id', ...)`. -/
  | bindTenant
  /-- `AdvisoryLock`. -/
  | advisoryLock
  /-- `ClaimUnique` or `ReleaseUnique` for the `i`-th constraint operation. -/
  | constraint (i : ℕ)
  /-- `LastStreamHash`. -/
  | lastStreamHash
  /-- `InsertEvent` for the `i`-th event. -/
  | insertEvent (i : ℕ)
  /-- `InsertOutbox` for the `i`-th event. -/
  | insertOutbox (i : ℕ)
  /-- `UpsertStateCache`. -/
  | upsertStateCache
  /-- `COMMIT`. -/
  | commit
  deriving DecidableEq, Repr

/-- The database during one call. -/
structure Engine where
  /-- The readings of the clock. -/
  clock : ℕ → Time
  /-- The error a statement fails with, whatever the tables hold. -/
  fault : Statement → Option Err

/-- An engine no statement of which fails by itself. -/
def Engine.Sound (E : Engine) : Prop := ∀ st, E.fault st = none

/-- An engine without faults whose clock stands at the epoch. -/
def Engine.calm : Engine := ⟨fun _ => 0, fun _ => none⟩

/-- The tables, as the driver names them in an error. -/
inductive TableName where
  | events
  | outbox
  | uniqueClaims
  | stateCache
  deriving DecidableEq, Repr

/-- The table's SQL name. -/
def TableName.sql : TableName → String
  | .events => "events"
  | .outbox => "outbox"
  | .uniqueClaims => "unique_claims"
  | .stateCache => "state_cache"

/-- What a statement fails with: a unique violation, or any other error. -/
inductive DbErr where
  | unique (table : TableName)
  | other (err : Err)
  deriving DecidableEq, Repr

/-- The driver's error as a Go error. -/
def DbErr.toErr : DbErr → Err
  | .unique t => .text s!"UNIQUE constraint failed: {t.sql}"
  | .other e => e

/-- `mapErr`: unique violations become sentinels, other errors pass. -/
def mapErr : DbErr → Err
  | .unique .uniqueClaims => .sentinel .constraintViolated
  | .unique .events => .sentinel .conflict
  | .unique .outbox => (DbErr.unique .outbox).toErr
  | .unique .stateCache => (DbErr.unique .stateCache).toErr
  | .other e => e

/-- An adapter's side of the storage: its columns and its way of running a transaction. -/
structure Dialect (κ : Columns) where
  /-- The adapter's name in its error texts. -/
  name : String
  /-- A time on its way into a column. -/
  formatTime : Time → κ.Time
  /-- A time column read back. -/
  parseTime : κ.Time → Except Err Time
  /-- `encodeActor`, and the column's own conversion. -/
  encodeActor : Actor → Except Err κ.Actor
  /-- `decodeActor` of the column read back. -/
  decodeActor : κ.Actor → Except Err Actor
  /-- A JSON text on its way into a nullable column. -/
  storeJSON : Option Bytes → Except Err (Option κ.Json)
  /-- A nullable JSON column read back. -/
  loadJSON : Option κ.Json → Option Bytes
  /-- A state on its way into `state_cache.state`. -/
  storeState : Option Bytes → Except Err κ.State
  /-- `state_cache.state` read back. -/
  loadState : κ.State → Bytes
  /-- A schema version on its way into its column. -/
  schemaColumn : UInt32 → ℤ
  /-- `uint32` of the column gives the version back. -/
  ofInt_schemaColumn : ∀ v, UInt32.ofInt (schemaColumn v) = v
  /-- `recorded_at` of the `i`-th row, from the clock. -/
  stamp : (ℕ → Time) → ℕ → Time
  /-- The statements before the first constraint operation, and how their errors are wrapped. -/
  preamble : List (Statement × (Err → Err))
  /-- A rollback gives back the positions drawn. -/
  sequenceRollsBack : Bool

theorem ofInt_toNat (v : UInt32) : UInt32.ofInt (v.toNat : ℤ) = v := by
  have := v.toNat_lt
  rw [UInt32.ofInt, Int.emod_eq_of_lt (by omega) (by omega)]
  simp

/-! ### SQLite -/

namespace Sqlite

/-- The columns of the SQLite schema: everything is `TEXT`, but for the binary JSON of a state.
The text of a JSON column is given by its bytes. -/
abbrev columns (J : Type) : Columns := ⟨String, String, Bytes, J⟩

/-- The layouts `parseTime` tries. -/
inductive Layout where
  /-- `time.RFC3339Nano`, the layout `formatTime` writes. -/
  | rfc3339Nano
  /-- `time.RFC3339` -/
  | rfc3339
  /-- `2006-01-02T15:04:05.999Z` -/
  | strftime
  /-- `2006-01-02 15:04:05.999` -/
  | currentTimestamp
  deriving DecidableEq, Repr

/-- What the adapter takes from the standard library and from the engine. -/
structure Library (J : Type) where
  /-- `t.UTC().Format(time.RFC3339Nano)`. -/
  format : Time → String
  /-- `time.Parse`. -/
  parse : Layout → String → Option Time
  /-- `json.Marshal` of the adapter's `actorJSON`. -/
  marshalActor : Actor → Except Err String
  /-- `json.Unmarshal` into an `actorJSON`. -/
  unmarshalActor : String → Except Err Actor
  /-- The SQL function `jsonb`, applied to a text. -/
  jsonb : Bytes → Except Err J
  /-- The SQL function `json`, as bytes. -/
  json : J → Bytes

variable {J : Type} (L : Library J)

/-- `parseTime`: the first layout that fits. -/
def parseTime (s : String) : Except Err Time :=
  match [Layout.rfc3339Nano, .rfc3339, .strftime, .currentTimestamp].findSome? (L.parse · s) with
  | some t => .ok t
  | none => .error (.text s!"sqlite: cannot parse timestamp {s}")

/-- `encodeActor`. -/
def encodeActor (a : Actor) : Except Err String :=
  (L.marshalActor a).mapError (.wrap "encode actor")

/-- `decodeActor`. -/
def decodeActor (s : String) : Except Err Actor :=
  if s = "" then .ok Actor.zero
  else (L.unmarshalActor s).mapError (.wrap "decode actor")

/-- A text is stored when it is not empty (`len(b) > 0`), otherwise the column is NULL. -/
def storeJSON : Option Bytes → Option Bytes
  | none => none
  | some [] => none
  | some (b :: bs) => some (b :: bs)

/-- The SQLite adapter.  `recorded_at` is one reading of the clock for the whole transaction. -/
def dialect : Dialect (columns J) where
  name := "sqlite"
  formatTime := L.format
  parseTime := parseTime L
  encodeActor := encodeActor L
  decodeActor := decodeActor L
  storeJSON b := .ok (storeJSON b)
  loadJSON := id
  storeState b := L.jsonb (b.getD [])
  loadState := L.json
  schemaColumn v := v.toNat
  ofInt_schemaColumn := ofInt_toNat
  stamp clock _ := clock 0
  preamble := [(.begin, .wrap "begin tx")]
  sequenceRollsBack := true

/-- A library small enough to compute with: a time is written in unary, and the only actor that
can be marshalled is the zero one. -/
def Library.small : Library Bytes where
  format t := String.ofList ((if t < 0 then '-' else '+') :: List.replicate t.natAbs 'n')
  parse
    | .rfc3339Nano, s =>
      match s.toList with
      | '+' :: ns => some ns.length
      | '-' :: ns => some (-ns.length)
      | _ => none
    | _, _ => none
  marshalActor a :=
    if a = Actor.zero then .ok "\x7b\x7d" else .error (.text "unsupported value")
  unmarshalActor _ := .ok Actor.zero
  jsonb := .ok
  json := id

end Sqlite

/-! ### Postgres -/

namespace Postgres

/-- The columns of the Postgres schema: timestamps in microseconds, and JSON values. -/
abbrev columns (J : Type) : Columns := ⟨ℤ, J, J, J⟩

/-- What the adapter takes from the standard library and from the engine. -/
structure Library (J : Type) where
  /-- `json.Marshal` of the adapter's `actorJSON`. -/
  marshalActor : Actor → Except Err Bytes
  /-- `json.Unmarshal` into an `actorJSON`. -/
  unmarshalActor : Bytes → Except Err Actor
  /-- A JSON text as a `JSONB` value. -/
  parse : Bytes → Except Err J
  /-- The text of a `JSONB` value. -/
  render : J → Bytes

variable {J : Type} (L : Library J)

/-- `TIMESTAMPTZ` keeps microseconds. -/
def micros (t : Time) : ℤ := t / 1000

/-- A `TIMESTAMPTZ` as the driver returns it. -/
def fromMicros (us : ℤ) : Time := us * 1000

/-- `encodeActor`, into a `JSONB` column. -/
def encodeActor (a : Actor) : Except Err J := do
  let out ← (L.marshalActor a).mapError (.wrap "encode actor")
  L.parse out

/-- `decodeActor`, of the text of a `JSONB` column. -/
def decodeActor (j : J) : Except Err Actor :=
  let b := L.render j
  if b = [] then .ok Actor.zero
  else (L.unmarshalActor b).mapError (.wrap "decode actor")

/-- A nil slice is NULL, any other one has to be a JSON text. -/
def storeJSON : Option Bytes → Except Err (Option J)
  | none => .ok none
  | some b => (L.parse b).map some

/-- A nil slice is NULL, which `state` does not take. -/
def storeState : Option Bytes → Except Err J
  | none => .error (.text "null value in column state of relation state_cache")
  | some b => L.parse b

/-- `uint32(int32(v))` is `v`. -/
theorem ofInt_bmod (v : UInt32) : UInt32.ofInt (Int.bmod v.toNat (2 ^ 32)) = v := by
  have h : Int.bmod v.toNat (2 ^ 32) % 2 ^ 32 = (v.toNat : ℤ) % 2 ^ 32 := Int.bmod_emod ..
  rw [UInt32.ofInt, h]
  exact ofInt_toNat v

/-- The Postgres adapter.  `recorded_at` is `clock_timestamp()` of each insert, and the sequence
positions are drawn from is not transactional. -/
def dialect : Dialect (columns J) where
  name := "postgres"
  formatTime := micros
  parseTime t := .ok (fromMicros t)
  encodeActor := encodeActor L
  decodeActor := decodeActor L
  storeJSON := storeJSON L
  loadJSON := Option.map L.render
  storeState := storeState L
  loadState := L.render
  schemaColumn v := Int.bmod v.toNat (2 ^ 32)
  ofInt_schemaColumn := ofInt_bmod
  stamp clock i := fromMicros (micros (clock i))
  preamble := [(.begin, id), (.bindTenant, .wrap "bind tenant"),
    (.advisoryLock, .wrap "acquire advisory lock")]
  sequenceRollsBack := false

/-- A library small enough to compute with: a `JSONB` value is its text without blanks, and the
only actor that can be marshalled is the zero one. -/
def Library.small : Library Bytes where
  marshalActor a :=
    if a = Actor.zero then .ok [123, 125] else .error (.text "unsupported value")
  unmarshalActor _ := .ok Actor.zero
  parse b := .ok (b.filter (· != 32))
  render := id

end Postgres

end EventStore
