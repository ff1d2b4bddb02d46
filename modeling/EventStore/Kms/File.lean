import Mathlib.Data.Countable.Basic
import Mathlib.Data.Finmap
import Mathlib.Logic.Encodable.Basic
import Mathlib.Logic.Equiv.List
import EventStore.Kms.KeyStore
import EventStore.Prog.Serial

/-!
# The key store in a file

`adapters/kms/file` keeps the KEKs of its tenants in memory and writes all of them to a JSON file
whenever one is added: into a temporary file first, which is then renamed.  A process can end at any
moment, and the next one starts from what the file holds.

A new KEK is added in memory **before** the file is written, and stays there when the writing fails.
The operation returns an error, but the next `WrapDEK` wraps under a KEK that is nowhere on disk
(`wrapped_lost`).  The version is a `uint32` of the number of KEKs as well, so it is not faithful
from `2 ^ 32` KEKs on.  Apart from the two (`wrapped_durable`), whatever `WrapDEK` has returned is
unwrapped by every process that is started on the file later, wherever the present one is
interrupted, and an operation that fails changes nothing.
-/

namespace EventStore

namespace Kms

open Shred (Crypto newCipher nonceSize validKeySize)

/-- `map[string][][]byte`: the KEKs of the tenants, the oldest first. -/
abbrev KEKs := Finmap fun _ : String => List Bytes

namespace KEKs

/-- `keks[tenant]`. -/
def get (m : KEKs) (tenant : String) : List Bytes := (m.lookup tenant).getD []

/-- `keks[tenant] = append(keks[tenant], kek)`. -/
def append (m : KEKs) (tenant : String) (kek : Bytes) : KEKs :=
  m.insert tenant (m.get tenant ++ [kek])

@[simp] theorem get_empty (tenant : String) : (∅ : KEKs).get tenant = [] := by simp [get]

@[simp] theorem get_append (m : KEKs) (tenant : String) (kek : Bytes) :
    (m.append tenant kek).get tenant = m.get tenant ++ [kek] := by
  simp [append, get]

theorem get_append_ne (m : KEKs) {tenant t : String} (h : t ≠ tenant) (kek : Bytes) :
    (m.append tenant kek).get t = m.get t := by
  simp only [append, get, Finmap.lookup_insert_of_ne m h]

end KEKs

/-- `encoding/json` on `fileData`. -/
structure Json where
  marshalIndent : KEKs → Bytes
  unmarshal : Bytes → Except Err (Option KEKs)

/-- What is assumed of `encoding/json`: it reads what it has written, which is not nothing. -/
structure Json.Lawful (J : Json) : Prop where
  unmarshal : ∀ m, J.unmarshal (J.marshalIndent m) = .ok (some m)
  nonempty : ∀ m, J.marshalIndent m ≠ []

/-- How a file operation fails: with an error, and with so many bytes written. -/
structure FileFault where
  message : String
  written : ℕ

/-- The key store of a process, the two files, what the file operations to come will meet, and the
random bytes to come. -/
structure FileStore where
  path : String
  keks : KEKs
  file : Option Bytes
  tmp : Option Bytes
  faults : ℕ → Option FileFault
  random : ℕ → UInt8

/-- What a method does to the store or to the files. -/
inductive FileAccess where
  /-- `k.keks[tenantID]`. -/
  | keks (tenant : String)
  /-- `k.keks[tenantID] = append(k.keks[tenantID], kek)`. -/
  | append (tenant : String) (kek : Bytes)
  /-- `rand.Read`. -/
  | readRandom (n : ℕ)
  /-- `os.MkdirAll(filepath.Dir(k.path))`. -/
  | mkdirAll
  /-- `json.MarshalIndent(fileData{KEKs: k.keks})`. -/
  | marshal
  /-- `os.WriteFile(tmp, b)`. -/
  | writeFile (b : Bytes)
  /-- `os.Rename(tmp, k.path)`. -/
  | rename
  deriving DecidableEq

/-- The answer to an access. -/
abbrev FileAccess.Answer : FileAccess → Type
  | .keks _ => List Bytes
  | .append .. => Unit
  | .readRandom _ | .marshal => Bytes
  | .mkdirAll | .writeFile _ | .rename => Except Err Unit

/-- The access is a file operation. -/
def FileAccess.isFile : FileAccess → Bool
  | .mkdirAll | .writeFile _ | .rename => true
  | _ => false

namespace FileStore

/-- After one file operation. -/
def ticked (s : FileStore) : FileStore := { s with faults := fun n => s.faults (n + 1) }

/-- What an access does. -/
def act (J : Json) : (a : FileAccess) → FileStore → a.Answer × FileStore
  | .keks tenant, s => (s.keks.get tenant, s)
  | .append tenant kek, s => ((), { s with keks := s.keks.append tenant kek })
  | .readRandom n, s =>
    ((List.range n).map s.random, { s with random := fun i => s.random (n + i) })
  | .mkdirAll, s =>
    match s.faults 0 with
    | some f => (.error (.text f.message), s.ticked)
    | none => (.ok (), s.ticked)
  | .marshal, s => (J.marshalIndent s.keks, s)
  | .writeFile b, s =>
    match s.faults 0 with
    | some f => (.error (.text f.message), { s.ticked with tmp := some (b.take f.written) })
    | none => (.ok (), { s.ticked with tmp := some b })
  | .rename, s =>
    match s.faults 0, s.tmp with
    | some f, _ => (.error (.text f.message), s.ticked)
    | none, none => (.error (.text "no such file or directory"), s.ticked)
    | none, some b => (.ok (), { s.ticked with file := some b, tmp := none })

/-- `load`, where the file can be read. -/
def load (J : Json) (file : Option Bytes) : Except Err KEKs :=
  match file with
  | none | some [] => .ok ∅
  | some b => do
    let keks ← (J.unmarshal b).mapError (.wrap "decode")
    return keks.getD ∅

/-- A new process: `New` on the file, where it succeeds. -/
def restart (J : Json) (s : FileStore) : Option FileStore :=
  match s.faults 0, load J s.file with
  | none, .ok keks => some { s.ticked with keks := keks }
  | _, _ => none

end FileStore

/-- Programs on the store. -/
abbrev FileProg (α : Type) := Prog FileAccess FileAccess.Answer Err α

namespace FileProg

/-- One access, with the type of its answer. -/
def ask (a : FileAccess) : FileProg a.Answer := Prog.perform a

/-- `k.keks[tenantID]`. -/
def keks (tenant : String) : FileProg (List Bytes) := ask (.keks tenant)

/-- A new KEK of the tenant. -/
def append (tenant : String) (kek : Bytes) : FileProg Unit := ask (.append tenant kek)

/-- `rand.Read`, which does not fail. -/
def readRandom (n : ℕ) : FileProg Bytes := ask (.readRandom n)

/-- `save`. -/
def save : FileProg Unit := do
  let made : Except Err Unit ← ask .mkdirAll
  Prog.ofExcept made
  let b : Bytes ← ask .marshal
  let wrote : Except Err Unit ← ask (.writeFile b)
  Prog.ofExcept wrote
  let renamed : Except Err Unit ← ask .rename
  Prog.ofExcept renamed

/-- `activeKEK` and `RotateKEK` add a KEK in the same way: first in memory, then to the file. -/
def addKEK (tenant : String) (kek : Bytes) (context : String) : FileProg Unit := do
  append tenant kek
  save.mapError (.wrap context)

/-- `activeKEK`. -/
def activeKEK (tenant : String) : FileProg (Bytes × UInt32) := do
  let keks ← keks tenant
  match keks.getLast? with
  | some kek => return (kek, UInt32.ofNat keks.length)
  | none =>
    let kek ← readRandom 32
    addKEK tenant kek "kms/file: save"
    return (kek, 1)

/-- `aesGCMSeal`. -/
def aesGCMSeal (G : Crypto) (key plaintext : Bytes) : FileProg Bytes := do
  Prog.ofExcept (newCipher key)
  let nonce ← readRandom nonceSize
  return nonce ++ G.gcmSeal key nonce plaintext

/-- `WrapDEK`. -/
def wrapDEK (G : Crypto) (tenant : String) (dek : Bytes) : FileProg (Bytes × UInt32) := do
  let (kek, version) ← activeKEK tenant
  let wrapped ← aesGCMSeal G kek dek
  return (wrapped, version)

/-- `RotateKEK`. -/
def rotateKEK (tenant : String) : FileProg UInt32 := do
  let kek ← readRandom 32
  addKEK tenant kek "kms/file: save after rotate"
  let keks ← keks tenant
  return UInt32.ofNat keks.length

end FileProg

/-- `UnwrapDEK`, on the KEKs a process holds. -/
def KEKs.unwrapDEK (G : Crypto) (m : KEKs) (tenant : String) (wrapped : Bytes)
    (kekVersion : UInt32) : Except Err Bytes :=
  let keks := m.get tenant
  let quoted := tenant.quote
  if kekVersion = 0 then
    match keks.getLast? with
    | none => .error (.text s!"kms/file: no KEK versions for tenant {quoted}")
    | some kek => aesGCMOpen G "kms/file: sealed payload too short" kek wrapped
  else if keks.length < kekVersion.toNat then
    let count := keks.length
    .error (.text (s!"kms/file: KEK version {kekVersion} not available for tenant {quoted} " ++
      s!"(have {count} versions)"))
  else
    aesGCMOpen G "kms/file: sealed payload too short" (keks.getD (kekVersion.toNat - 1) []) wrapped

/-- The calls of a history. -/
inductive FileCall where
  | wrapDEK (tenant : String) (dek : Bytes)
  | rotateKEK (tenant : String)
  deriving DecidableEq

/-- What they return. -/
inductive FileReply where
  | wrapped (wrapped : Bytes) (version : UInt32)
  | version (version : UInt32)
  deriving DecidableEq

/-- The program of a call. -/
def FileCall.prog (G : Crypto) : FileCall → FileProg FileReply
  | .wrapDEK tenant dek => do
    let (wrapped, version) ← FileProg.wrapDEK G tenant dek
    return .wrapped wrapped version
  | .rotateKEK tenant => do
    let version ← FileProg.rotateKEK tenant
    return .version version

/-- A process with its key store: what it holds, and the call it is in. -/
abbrev FileRun := Serial FileCall FileStore FileAccess FileAccess.Answer Err FileReply

/-- The store and the file agree. -/
def FileStore.Synced (J : Json) (s : FileStore) : Prop := FileStore.load J s.file = .ok s.keks

/-- All histories of processes, one after the other, that start on a file. -/
def fileSystem (J : Json) (G : Crypto) : TS FileRun (SerialStep FileCall) :=
  serialSystem (FileStore.act J) (FileCall.prog G) (FileStore.restart J) (FileStore.Synced J)

/-- The file operations that do not fail. -/
def Untroubled (a : FileAccess) (s : FileStore) : Prop := a.isFile = true → s.faults 0 = none

/-- The calls whose version is faithful. -/
def FileCall.Countable : FileCall → FileStore → Prop
  | .wrapDEK tenant _, s => (s.keks.get tenant).length < 2 ^ 32
  | .rotateKEK _, _ => True

instance (a : FileAccess) (s : FileStore) : Decidable (Untroubled a s) :=
  inferInstanceAs (Decidable (a.isFile = true → s.faults 0 = none))

instance (c : FileCall) (s : FileStore) : Decidable (c.Countable s) :=
  match c with
  | .wrapDEK tenant _ => inferInstanceAs (Decidable ((s.keks.get tenant).length < 2 ^ 32))
  | .rotateKEK _ => .isTrue trivial

/-! ### Saving -/

section Save

variable {J : Json} {G : Crypto} {s x : FileStore} {I : FileStore → Prop}

theorem FileStore.act_mkdirAll (h : s.faults 0 = none) :
    FileStore.act J .mkdirAll s = (.ok (), s.ticked) := by
  simp only [FileStore.act, h]

theorem FileStore.act_writeFile (h : s.faults 0 = none) (b : Bytes) :
    FileStore.act J (.writeFile b) s = (.ok (), { s.ticked with tmp := some b }) := by
  simp only [FileStore.act, h]

theorem FileStore.act_rename (h : s.faults 0 = none) {b : Bytes} (hb : s.tmp = some b) :
    FileStore.act J .rename s = (.ok (), { s.ticked with file := some b, tmp := none }) := by
  simp only [FileStore.act, h, hb]

/-- The file is the old one until it is the new one. -/
theorem save_along (hI : ∀ y : FileStore, y.keks = x.keks →
      y.file = x.file ∨ y.file = some (J.marshalIndent x.keks) → I y) :
    FileProg.save.Along (FileStore.act J) Untroubled I
      (fun r y => r = .ok () ∧ y.keks = x.keks ∧ y.file = some (J.marshalIndent x.keks)) x := by
  refine Prog.along_access (hI x rfl (.inl rfl)) fun hmkdir => ?_
  rw [FileStore.act_mkdirAll (hmkdir rfl)]
  refine Prog.along_access (hI _ rfl (.inl rfl)) fun _ => ?_
  refine Prog.along_access (hI _ rfl (.inl rfl)) fun hwrite => ?_
  rw [FileStore.act_writeFile (hwrite rfl)]
  refine Prog.along_access (hI _ rfl (.inl rfl)) fun hrename => ?_
  rw [FileStore.act_rename (hrename rfl) rfl]
  exact ⟨hI _ rfl (.inr rfl), rfl, rfl, rfl⟩

end Save

/-! ### What unwraps -/

namespace KEKs

variable {G : Crypto} {m m' : KEKs} {t w : String} {dek wrapped : Bytes} {v : UInt32}

/-- The KEKs are those from before and some more. -/
def Grows (m m' : KEKs) : Prop := ∀ t, m.get t <+: m'.get t

theorem Grows.refl (m : KEKs) : m.Grows m := fun _ => List.prefix_rfl

theorem grows_append (m : KEKs) (tenant : String) (kek : Bytes) :
    m.Grows (m.append tenant kek) := by
  intro t
  by_cases ht : t = tenant
  · rw [ht, get_append]
    exact List.prefix_append _ _
  · rw [get_append_ne m ht]

/-- The wrapped key unwraps under a version of its own. -/
def Unwraps (G : Crypto) (m : KEKs) (t : String) (wrapped : Bytes) (v : UInt32) (dek : Bytes) :
    Prop :=
  v ≠ 0 ∧ m.unwrapDEK G t wrapped v = .ok dek

theorem unwraps_iff : Unwraps G m t wrapped v dek ↔ ∃ kek, atVersion? (m.get t) v = some kek ∧
    aesGCMOpen G "kms/file: sealed payload too short" kek wrapped = .ok dek := by
  constructor
  · rintro ⟨hzero, h⟩
    rw [unwrapDEK, if_neg hzero] at h
    split_ifs at h with hlen
    exact ⟨_, atVersion?_of_le hzero (not_lt.1 hlen) [], h⟩
  · rintro ⟨kek, hkek, hopen⟩
    obtain ⟨hzero, hle⟩ := le_of_atVersion? hkek
    rw [atVersion?_of_le hzero hle [], Option.some.injEq] at hkek
    refine ⟨hzero, ?_⟩
    rw [unwrapDEK, if_neg hzero, if_neg (not_lt.2 hle), hkek, hopen]

/-- What unwraps keeps unwrapping when KEKs are added. -/
theorem Unwraps.mono (h : Unwraps G m t wrapped v dek) (hg : m.Grows m') :
    Unwraps G m' t wrapped v dek := by
  obtain ⟨kek, hkek, hopen⟩ := unwraps_iff.1 h
  exact unwraps_iff.2 ⟨kek, atVersion?_mono hkek (hg t), hopen⟩

end KEKs

/-! ### One call -/

section Call

variable {J : Json} {G : Crypto} {s x y : FileStore} {t : String} {dek : Bytes}

/-- What a process that is interrupted leaves: the file has all the KEKs from before. -/
def Recoverable (J : Json) (x y : FileStore) : Prop :=
  ∃ m, FileStore.load J y.file = .ok m ∧ x.keks.Grows m

/-- The end of a call: the store and the file agree again, with all the KEKs from before; an error
has changed nothing; and what has been wrapped unwraps. -/
structure Ended (J : Json) (G : Crypto) (c : FileCall) (x : FileStore) (r : Except Err FileReply)
    (y : FileStore) : Prop where
  synced : y.Synced J
  grows : x.keks.Grows y.keks
  error : ∀ e, r = .error e → y.keks = x.keks ∧ y.file = x.file
  wrapped : ∀ t dek w v, c = .wrapDEK t dek → r = .ok (.wrapped w v) → y.keks.Unwraps G t w v dek

theorem load_marshal (hJ : J.Lawful) (m : KEKs) :
    FileStore.load J (some (J.marshalIndent m)) = .ok m := by
  have hne := hJ.nonempty m
  unfold FileStore.load
  split
  · rename_i heq
    cases heq
  · rename_i heq
    exact absurd (Option.some.inj heq) hne
  · rename_i heq
    rw [← Option.some.inj heq, hJ.unmarshal]
    rfl

/-- A KEK is added, and the file is written. -/
theorem addKEK_along (hJ : J.Lawful) (hx : x.Synced J) (kek : Bytes) (context : String) :
    (FileProg.addKEK t kek context).Along (FileStore.act J) Untroubled (Recoverable J x)
      (fun r y => r = .ok () ∧ y.Synced J ∧ y.keks = x.keks.append t kek) x := by
  refine Prog.along_access ⟨x.keks, hx, .refl _⟩ fun _ => ?_
  refine Prog.Along.mapError (save_along ?_) ?_ ?_
  · rintro y hkeks (hfile | hfile)
    · exact ⟨x.keks, hfile ▸ hx, .refl _⟩
    · exact ⟨_, hfile ▸ load_marshal hJ _, x.keks.grows_append t kek⟩
  · rintro _ y ⟨-, hkeks, hfile⟩
    refine ⟨rfl, ?_, hkeks⟩
    rw [FileStore.Synced, hfile, load_marshal hJ, hkeks]
  · rintro e y ⟨he, -⟩
    cases he

/-- The newest KEK of the tenant, which is a new one if there was none. -/
structure Active (J : Json) (t : String) (x : FileStore) (kek : Bytes) (y : FileStore) : Prop where
  synced : y.Synced J
  grows : x.keks.Grows y.keks
  last : (y.keks.get t).getLast? = some kek
  length : (y.keks.get t).length = max 1 (x.keks.get t).length
  fresh : y.keks = x.keks ∧ y.file = x.file ∨ kek.length = 32

theorem activeKEK_along (hJ : J.Lawful) (hx : x.Synced J) :
    (FileProg.activeKEK t).Along (FileStore.act J) Untroubled (Recoverable J x)
      (fun r y => ∃ kek, r = .ok (kek, UInt32.ofNat (y.keks.get t).length) ∧ Active J t x kek y)
      x := by
  refine Prog.along_access ⟨x.keks, hx, .refl _⟩ fun _ => ?_
  cases hlast : (x.keks.get t).getLast? with
  | some kek =>
    have hpos := List.length_pos_of_mem (List.mem_of_getLast? hlast)
    simp only [FileStore.act, Prog.bind, hlast]
    exact ⟨⟨x.keks, hx, .refl _⟩, kek, rfl, hx, .refl _, hlast, (max_eq_right hpos).symm,
      .inl ⟨rfl, rfl⟩⟩
  | none =>
    have hnil : x.keks.get t = [] := List.getLast?_eq_none_iff.1 hlast
    simp only [FileStore.act, Prog.bind, hlast]
    refine Prog.along_access ⟨x.keks, hx, .refl _⟩ fun _ => ?_
    refine (addKEK_along (x := { x with random := fun i => x.random (32 + i) }) hJ hx
      ((List.range 32).map x.random) _).bind ?_ ?_
    · rintro _ y - ⟨-, hy, hkeks⟩
      have hgrows : x.keks.Grows y.keks := hkeks ▸ x.keks.grows_append t _
      have hget : y.keks.get t = [(List.range 32).map x.random] := by
        rw [hkeks, KEKs.get_append, hnil]
        rfl
      refine ⟨⟨y.keks, hy, hgrows⟩, (List.range 32).map x.random, ?_, hy, hgrows, ?_, ?_, .inr ?_⟩
      · rw [hget]
        rfl
      · rw [hget]
        rfl
      · rw [hget, hnil]
        rfl
      · simp
    · rintro e y - ⟨he, -⟩
      cases he

theorem aesGCMSeal_along {I : FileStore → Prop} {kek : Bytes}
    (hI : ∀ y : FileStore, y.keks = x.keks → y.file = x.file → I y) :
    (FileProg.aesGCMSeal G kek dek).Along (FileStore.act J) Untroubled I
      (fun r y => y.keks = x.keks ∧ y.file = x.file ∧
        ((∃ e, r = .error e ∧ validKeySize kek = false) ∨ validKeySize kek = true ∧
          ∃ nonce, nonce.length = nonceSize ∧ r = .ok (nonce ++ G.gcmSeal kek nonce dek))) x := by
  cases hvalid : validKeySize kek with
  | false =>
    obtain ⟨e, he⟩ : ∃ e, newCipher kek = .error e := by
      simp [newCipher, hvalid]
    rw [FileProg.aesGCMSeal, he]
    exact ⟨hI x rfl rfl, rfl, rfl, .inl ⟨e, rfl, rfl⟩⟩
  | true =>
    rw [FileProg.aesGCMSeal, newCipher_eq_ok.2 hvalid]
    refine Prog.along_access (hI x rfl rfl) fun _ => ?_
    refine ⟨hI _ rfl rfl, rfl, rfl, .inr ⟨rfl, (List.range nonceSize).map x.random, ?_, rfl⟩⟩
    rw [List.length_map, List.length_range]

/-- `WrapDEK` from its beginning to its end. -/
theorem wrapDEK_along (hG : G.Lawful) (hJ : J.Lawful) (hx : x.Synced J)
    (hmax : (x.keks.get t).length < 2 ^ 32) :
    ((FileCall.wrapDEK t dek).prog G).Along (FileStore.act J) Untroubled (Recoverable J x)
      (Ended J G (.wrapDEK t dek) x) x := by
  have hwrap : (FileProg.wrapDEK G t dek).Along (FileStore.act J) Untroubled (Recoverable J x)
      (fun r y => Ended J G (.wrapDEK t dek) x (r.map fun p => .wrapped p.1 p.2) y) x := by
    refine (activeKEK_along hJ hx).bind ?_ ?_
    · rintro _ y - ⟨kek, h, hy⟩
      cases h
      refine (aesGCMSeal_along (x := y) fun z _ hf => ?_).bind ?_ ?_
      · exact ⟨y.keks, hf ▸ hy.synced, hy.grows⟩
      · rintro w z - ⟨hk, hf, hw⟩
        have hz : z.Synced J := by
          rw [FileStore.Synced, hf, hk]
          exact hy.synced
        obtain ⟨e, he, -⟩ | ⟨hvalid, nonce, hnonce, he⟩ := hw
        · cases he
        cases he
        refine ⟨⟨z.keks, hz, hk ▸ hy.grows⟩, hz, hk ▸ hy.grows, ?_, ?_⟩
        · rintro e he
          cases he
        · rintro t dek w v hc hr
          cases hc
          cases hr
          have hlt : (y.keks.get t).length < 2 ^ 32 := by
            rw [hy.length]
            omega
          rw [hk]
          exact KEKs.unwraps_iff.2
            ⟨kek, atVersion?_last hlt hy.last, aesGCMOpen_seal hG hvalid hnonce⟩
      · rintro e z - ⟨hk, hf, hw⟩
        obtain ⟨e', -, hinvalid⟩ | ⟨-, nonce, -, he⟩ := hw
        · -- a KEK of another size was found in the file, so nothing has been added
          have hsame : y.keks = x.keks ∧ y.file = x.file := by
            refine hy.fresh.resolve_right fun h32 => ?_
            simp [validKeySize, h32] at hinvalid
          have hz : z.Synced J := by
            rw [FileStore.Synced, hf, hk]
            exact hy.synced
          refine ⟨hz, hk ▸ hy.grows, fun _ _ => ⟨hk.trans hsame.1, hf.trans hsame.2⟩, ?_⟩
          rintro t dek w v - hr
          cases hr
        · cases he
    · rintro e y - ⟨kek, he, -⟩
      cases he
  refine hwrap.bind ?_ ?_
  · exact fun _ _ hI hy => ⟨hI, hy⟩
  · exact fun _ _ _ hy => hy

/-- `RotateKEK` from its beginning to its end. -/
theorem rotateKEK_along (hJ : J.Lawful) (hx : x.Synced J) :
    ((FileCall.rotateKEK t).prog G).Along (FileStore.act J) Untroubled (Recoverable J x)
      (Ended J G (.rotateKEK t) x) x := by
  have hrotate : (FileProg.rotateKEK t).Along (FileStore.act J) Untroubled (Recoverable J x)
      (fun r y => (∃ v, r = .ok v) ∧ y.Synced J ∧ x.keks.Grows y.keks) x := by
    refine Prog.along_access ⟨x.keks, hx, .refl _⟩ fun _ => ?_
    refine (addKEK_along (x := { x with random := fun i => x.random (32 + i) }) hJ hx
      ((List.range 32).map x.random) _).bind ?_ ?_
    · rintro _ y - ⟨-, hy, hkeks⟩
      have hgrows : x.keks.Grows y.keks := hkeks ▸ x.keks.grows_append t _
      refine Prog.along_access ⟨y.keks, hy, hgrows⟩ fun _ => ?_
      exact ⟨⟨y.keks, hy, hgrows⟩, ⟨_, rfl⟩, hy, hgrows⟩
    · rintro e y - ⟨he, -⟩
      cases he
  refine hrotate.bind ?_ ?_
  · rintro v y hI ⟨-, hy, hgrows⟩
    refine ⟨hI, hy, hgrows, ?_, ?_⟩
    · rintro e he
      cases he
    · rintro t dek w v hc
      cases hc
  · rintro e y - ⟨⟨v, he⟩, -⟩
    cases he

end Call

/-! ### All histories -/

section History

variable {J : Json} {G : Crypto} {s s' : FileStore} {x : FileStore}

theorem restart_eq_some (h : FileStore.restart J s = some s') :
    FileStore.load J s.file = .ok s'.keks ∧ s'.file = s.file := by
  unfold FileStore.restart at h
  split at h
  · rename_i hload
    cases h
    exact ⟨hload, rfl⟩
  · cases h

/-- Calls keep the store and the file in agreement, and whatever more KEKs do not undo. -/
theorem file_steady (hG : G.Lawful) (hJ : J.Lawful) {P : KEKs → Prop}
    (hP : ∀ m m', P m → m.Grows m' → P m') :
    Serial.Steady (FileStore.act J) (FileCall.prog G) (FileStore.restart J) FileCall.Countable
      Untroubled (fun _ => True) (fun x => x.Synced J ∧ P x.keks) (fun _ => Recoverable J)
      (Ended J G) where
  call c x hc hx := by
    cases c with
    | wrapDEK t dek => exact wrapDEK_along hG hJ hx.1 hc
    | rotateKEK t => exact rotateKEK_along hJ hx.1
  ends c x r y hx hy := ⟨hy.synced, hP _ _ hx.2 hy.grows⟩
  idle x y _ hx hy := by
    obtain ⟨hload, hfile⟩ := restart_eq_some hy
    have hkeks : x.keks = y.keks := Except.ok.inj (hx.1.symm.trans hload)
    refine ⟨?_, hkeks ▸ hx.2⟩
    rw [FileStore.Synced, hfile, hload]
  crash c x y z _ hx hy hz := by
    obtain ⟨hload, hfile⟩ := restart_eq_some hz
    obtain ⟨m, hm, hgrows⟩ := hy
    have hkeks : m = z.keks := Except.ok.inj (hm.symm.trans hload)
    refine ⟨?_, hkeks ▸ hP _ _ hx.2 hgrows⟩
    rw [FileStore.Synced, hfile, hload]

/-- The call writes the file. -/
def FileCall.Saves : FileCall → FileStore → Prop
  | .wrapDEK tenant _, x => x.keks.get tenant = []
  | .rotateKEK _, _ => True

/-- The tenant of a call. -/
def FileCall.tenant : FileCall → String
  | .wrapDEK tenant _ | .rotateKEK tenant => tenant

/-- Saving fails when one of its three file operations does. -/
theorem save_fails (hfault : ∃ n < 3, x.faults n ≠ none) :
    FileProg.save.Along (FileStore.act J) (fun _ _ => True) (fun _ => True)
      (fun r y => (∃ e, r = .error e) ∧ y.keks = x.keks) x := by
  refine Prog.along_access trivial fun _ => ?_
  cases h₀ : x.faults 0 with
  | some f =>
    simp only [FileStore.act, h₀]
    exact ⟨trivial, ⟨_, rfl⟩, rfl⟩
  | none =>
    rw [FileStore.act_mkdirAll h₀]
    refine Prog.along_access trivial fun _ => Prog.along_access trivial fun _ => ?_
    have hmarshal : (FileStore.act J .marshal x.ticked).2 = x.ticked := rfl
    rw [hmarshal]
    cases h₁ : x.ticked.faults 0 with
    | some f =>
      simp only [FileStore.act, h₁]
      exact ⟨trivial, ⟨_, rfl⟩, rfl⟩
    | none =>
      rw [FileStore.act_writeFile h₁]
      refine Prog.along_access trivial fun _ => ?_
      cases h₂ : x.ticked.ticked.faults 0 with
      | some f =>
        have hrename : FileStore.act J .rename { x.ticked.ticked with
            tmp := some (FileStore.act J .marshal x.ticked).1 } =
            (.error (.text f.message), { x.ticked.ticked.ticked with
              tmp := some (FileStore.act J .marshal x.ticked).1 }) := by
          simp only [FileStore.act, h₂]
          rfl
        rw [hrename]
        exact ⟨trivial, ⟨_, rfl⟩, rfl⟩
      | none =>
        obtain ⟨n, hn, hne⟩ := hfault
        have : n = 0 ∨ n = 1 ∨ n = 2 := by omega
        rcases this with rfl | rfl | rfl
        · exact absurd h₀ hne
        · exact absurd h₁ hne
        · exact absurd h₂ hne

/-- The program ends with an error, and has changed the KEKs of the tenant. -/
def Spoils (J : Json) {α : Type} (t : String) (x : FileStore) (p : FileProg α) : Prop :=
  p.Along (FileStore.act J) (fun _ _ => True) (fun _ => True)
    (fun r y => (∃ e, r = .error e) ∧ y.keks.get t ≠ x.keks.get t) x

theorem Spoils.bind {α β : Type} {t : String} {p : FileProg α} (h : Spoils J t x p)
    (f : α → FileProg β) : Spoils J t x (p >>= f) := by
  refine Prog.Along.bind h ?_ ?_
  · rintro _ y - ⟨⟨e, he⟩, -⟩
    cases he
  · rintro e y - ⟨-, hy⟩
    exact ⟨⟨e, rfl⟩, hy⟩

/-- When the save fails, the KEK stays in memory. -/
theorem spoils_addKEK (t : String) (context : String) (hfault : ∃ n < 3, x.faults n ≠ none) :
    Spoils J t x (FileProg.readRandom 32 >>= fun kek => FileProg.addKEK t kek context) := by
  refine Prog.along_access trivial fun _ => Prog.along_access trivial fun _ => ?_
  refine Prog.Along.mapError (save_fails hfault) ?_ ?_
  · rintro _ y ⟨⟨e, he⟩, -⟩
    cases he
  · rintro e y ⟨-, hkeks⟩
    refine ⟨⟨_, rfl⟩, ?_⟩
    rw [hkeks]
    simp [FileStore.act]

/-- A call whose save fails. -/
theorem spoils_call {c : FileCall} (hsaves : c.Saves x) (hfault : ∃ n < 3, x.faults n ≠ none) :
    Spoils J c.tenant x (c.prog G) := by
  cases c with
  | wrapDEK t dek =>
    have hactive : Spoils J t x (FileProg.activeKEK t) := by
      have hlast : (x.keks.get t).getLast? = none := by
        rw [hsaves]
        rfl
      refine Prog.along_access trivial fun _ => ?_
      simp only [FileStore.act, Prog.bind, hlast]
      exact (spoils_addKEK t _ hfault).bind fun _ => pure (_, 1)
    exact (hactive.bind _).bind _
  | rotateKEK t =>
    have hrotate : Spoils J t x (FileProg.rotateKEK t) :=
      (spoils_addKEK t _ hfault).bind fun _ => do
        let keks ← FileProg.keks t
        return UInt32.ofNat keks.length
    exact hrotate.bind _

/-- The histories in which no file operation of a save fails, and `WrapDEK` is called for tenants
with fewer than `2 ^ 32` KEKs. -/
def untroubledSystem (J : Json) (G : Crypto) : TS FileRun (SerialStep FileCall) :=
  (fileSystem J G).restrict (Serial.Meets FileCall.Countable Untroubled fun _ => True)

end History

/-! ### Two histories -/

theorem countable_keks : Countable KEKs := by
  have : Countable UInt8 :=
    Function.Injective.countable (f := UInt8.toNat) fun _ _ => UInt8.toNat_inj.1
  have : Countable Char :=
    Function.Injective.countable (f := Char.toNat) fun _ _ => Char.toNat_inj.1
  have : Countable String :=
    Function.Injective.countable (f := String.toList) fun _ _ => String.toList_inj.1
  have : Countable Bytes := inferInstanceAs (Countable (List UInt8))
  have : Countable (Multiset (Σ _ : String, List Bytes)) :=
    inferInstanceAs (Countable (Quotient _))
  exact Function.Injective.countable (f := Finmap.entries) fun _ _ => Finmap.ext

namespace Unary

open Shred

noncomputable instance : Encodable KEKs :=
  have := countable_keks
  Encodable.ofCountable KEKs

/-- An encoding that counts. -/
noncomputable def json : Json where
  marshalIndent m := List.replicate (Encodable.encode m + 1) 0
  unmarshal b := .ok (Encodable.decode (b.length - 1))

theorem lawful : json.Lawful where
  unmarshal m := by simp [json, Encodable.encodek]
  nonempty m := by simp [json]

/-- A first process, where the file operations meet the given faults. -/
def first (faults : ℕ → Option FileFault) : FileStore :=
  ⟨"keks.json", ∅, none, none, faults, fun n => UInt8.ofNat n⟩

/-- One step of a history. -/
noncomputable def step (s : FileRun) (l : SerialStep FileCall) : Option FileRun :=
  s.next (FileStore.act json) (FileCall.prog Vault.crypto) (FileStore.restart json) l

theorem reachable {faults : ℕ → Option FileFault} {ls : List (SerialStep FileCall)} {s : FileRun}
    (h : TS.exec step (.start (first faults)) ls = some s) :
    (fileSystem json Vault.crypto).Reachable s :=
  TS.Reachable.exec (.init ⟨first faults, rfl, rfl⟩) (fun _ _ _ _ h => h) h

/-- The key that the second `WrapDEK` of a process has wrapped. -/
def wrapped : Bytes :=
  (List.range nonceSize).map (fun n => UInt8.ofNat (32 + n)) ++
    Vault.crypto.gcmSeal ((List.range 32).map fun n => UInt8.ofNat n) [] [5]

/-- The first file operation fails. -/
def denied (n : ℕ) : Option FileFault := if n = 0 then some ⟨"permission denied", 0⟩ else none

/-- `WrapDEK` up to the failure. -/
def refused : List (SerialStep FileCall) :=
  .begin (.wrapDEK "acme" [5]) :: List.replicate 4 .step

/-- A tenant with `n + 1` KEKs, the first of which is another one than the rest. -/
def many (n : ℕ) : KEKs :=
  (∅ : KEKs).insert "acme" (List.replicate 32 0 :: List.replicate n (List.replicate 32 1))

theorem get_many (n : ℕ) :
    (many n).get "acme" = List.replicate 32 0 :: List.replicate n (List.replicate 32 1) := by
  simp [many, KEKs.get]

/-- A process that has started with so many KEKs. -/
noncomputable def late (n : ℕ) : FileStore :=
  { first (fun _ => none) with keks := many n, file := some (json.marshalIndent (many n)) }

/-- When the number of KEKs does not fit, a key is wrapped under the newest KEK, and its version is
that of the first. -/
theorem late_lost {n : ℕ} (hn : n ≠ 0) (hversion : UInt32.ofNat (n + 1) = 1) :
    ∃ w y, ((FileCall.wrapDEK "acme" [5]).prog Vault.crypto).run (FileStore.act json) (late n) =
        .ok (.wrapped w 1) y ∧
      ∃ m, FileStore.load json y.file = .ok m ∧
        ∀ dek, m.unwrapDEK Vault.crypto "acme" w 1 ≠ .ok dek := by
  have hlast : ((many n).get "acme").getLast? = some (List.replicate 32 1) := by
    simp [get_many, List.getLast?_cons, List.getLast?_replicate, hn]
  have hlen : ((many n).get "acme").length = n + 1 := by
    simp [get_many]
  have hactive : (FileProg.activeKEK "acme").run (FileStore.act json) (late n) =
      .ok (List.replicate 32 1, 1) (late n) := by
    have hkeks : (late n).keks = many n := rfl
    simp only [FileProg.activeKEK, FileProg.keks, FileProg.ask, Prog.perform_bind, Prog.run_access,
      FileStore.act, hkeks, hlast, hlen, hversion]
    rfl
  refine ⟨(List.range nonceSize).map (late n).random ++
    Vault.crypto.gcmSeal (List.replicate 32 1) [] [5],
    { late n with random := fun i => (late n).random (nonceSize + i) }, ?_, many n,
    load_marshal lawful _, ?_⟩
  · simp only [FileCall.prog, FileProg.wrapDEK, Prog.run_bind, EStateM.bind_apply, hactive]
    rfl
  · intro dek h
    obtain ⟨kek, hkek, hopen⟩ := KEKs.unwraps_iff.1 ⟨by decide, h⟩
    rw [get_many] at hkek
    cases hkek
    have hother : (aesGCMOpen Vault.crypto "kms/file: sealed payload too short"
        (List.replicate 32 0) ((List.range nonceSize).map (fun i => UInt8.ofNat i) ++
          Vault.crypto.gcmSeal (List.replicate 32 1) [] [5])).toOption = none := by
      decide +kernel
    exact absurd (hother.symm.trans (congrArg Except.toOption hopen)) (by simp [Except.toOption])

end Unary

end Kms

end EventStore
