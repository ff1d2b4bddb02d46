import EventStore.StateStream.Drain
import Mathlib.Data.List.MinMax
import Mathlib.Order.Nat

/-!
# Positions are safe

Any number of runners drain the cache for any number of subscribers, beside appends that write the
cache, rebuilds that rewrite it (also to lower versions), and operators; publishers refuse
deliveries, advances fail or take effect without being acknowledged, and runners crash anywhere.

* A position is never above the highest version delivered (`Sys.Safe.reached`): an advance follows
  a delivery of the version it writes, and the merge takes the larger of two delivered versions.
* Only a reset takes a position back (`Sys.lastDelivered_le_of_next`).
* What is cached above its position is listed (`Adapter.exists_listed`).

`positions_safe` puts the three together: what is cached at any time is listed again, or something
at least as new has been delivered.
-/

namespace EventStore.StateStream

variable {κ : Columns} {A : Adapter κ} {H : Hasher}

/-- The highest version of the stream that the subscriber has been delivered, or 0. -/
def Sys.highest (σ : Sys κ) (name : String) (k : StreamKey) : ℕ :=
  ((σ.delivered.filter fun x => x.1 == name && key x.2 == k).map fun x => x.2.version).foldr max 0

theorem Sys.le_highest {σ : Sys κ} {name : String} {env : StateEnvelope}
    (h : (name, env) ∈ σ.delivered) : env.version ≤ σ.highest name (key env) := by
  have hmem : env.version ∈ (σ.delivered.filter fun x => x.1 == name && key x.2 == key env).map
      fun x => x.2.version := by
    refine List.mem_map.2 ⟨(name, env), List.mem_filter.2 ⟨h, ?_⟩, rfl⟩
    rw [beq_self_eq_true, beq_self_eq_true]
    rfl
  exact List.le_max_of_le hmem (le_refl _)

/-! ### The cache -/

/-- The rows of the cache are at the version of an event, and the adapter has written their
times. -/
def Genuine (A : Adapter κ) (db : Db κ) : Prop :=
  ∀ r ∈ db.stateCache.rows, 0 < r.version ∧ ∃ t, r.updatedAt = A.base.formatTime t

/-- A row written by the adapter. -/
theorem Genuine.upsert {db db' : Db κ} {r : StateCacheRow κ} {t : Time} (h : Genuine A db)
    (hdb : db'.stateCache = db.stateCache.upsert r) (hv : 0 < r.version)
    (ht : r.updatedAt = A.base.formatTime t) : Genuine A db' := by
  intro r' hr'
  rw [hdb, Table.mem_upsert] at hr'
  rcases hr' with rfl | ⟨hr', -⟩
  · exact ⟨hv, t, ht⟩
  · exact h r' hr'

theorem Genuine.append {db : Db κ} {E : Engine} {p : AppendParams} (h : Genuine A db) :
    Genuine A (append A.base H E p db).2 := by
  rcases hres : EventStore.append A.base H E p db with ⟨_ | _, db'⟩
  · have htables := append_error hres
    intro r hr
    rw [htables.2.2.2] at hr
    exact h r hr
  · obtain ⟨rows, happ⟩ := append_ok hres
    rcases happ.stateCache with ⟨hsame, -⟩ | ⟨_, _, -, -, hup⟩
    · intro r hr
      rw [hsame] at hr
      exact h r hr
    · have hlen : 0 < p.events.length := List.length_pos_iff.2 happ.nonempty
      exact h.upsert hup (Nat.add_pos_right _ hlen) rfl

theorem Genuine.upsertCachedState {db : Db κ} {en : Engine} {row : CachedState}
    (h : Genuine A db) (hv : row.version ≠ 0) :
    Genuine A (upsertCachedState A.base en row db).2 := by
  rcases hres : (EventStore.upsertCachedState A.base en row db).1 with _ | _
  · rw [upsertCachedState_error hres]
    exact h
  · obtain ⟨_, -, hdb⟩ := upsertCachedState_ok hres
    rw [hdb]
    exact h.upsert rfl (Nat.pos_of_ne_zero hv) rfl

theorem Genuine.wipe {db : Db κ} {tenant typeURL : String} (h : Genuine A db) :
    Genuine A (wipeStateCacheForType db tenant typeURL) :=
  fun r hr => h r (List.mem_filter.1 hr).1

/-! ### The invariant -/

/-- What holds in every reachable state. -/
structure Sys.Safe (A : Adapter κ) (σ : Sys κ) : Prop where
  /-- A position is that of a delivery, or below one. -/
  reached : ∀ name k, 0 < σ.store.lastDelivered name k →
    ∃ env, (name, env) ∈ σ.delivered ∧ key env = k ∧ σ.store.lastDelivered name k ≤ env.version
  /-- What a runner is about to record has been delivered. -/
  sent : ∀ i d env rest, σ.runner i = .sent d env rest → (d.subscriberName, env) ∈ σ.delivered
  genuine : Genuine A σ.store.db

theorem Sys.safe_empty : (Sys.empty : Sys κ).Safe A where
  reached _ _ h := absurd h (Nat.lt_irrefl 0)
  sent _ _ _ _ h := by cases h
  genuine _ h := absurd h List.not_mem_nil

/-- A step that leaves the runners and the deliveries alone, and takes no position forward. -/
theorem Sys.Safe.of_le {σ : Sys κ} {s : Store κ} (h : σ.Safe A)
    (hle : ∀ name k, s.lastDelivered name k ≤ σ.store.lastDelivered name k)
    (hgenuine : Genuine A s.db) : Sys.Safe A { σ with store := s } where
  reached name k hpos := by
    obtain ⟨env, hmem, hkey, hver⟩ := h.reached name k (hpos.trans_le (hle name k))
    exact ⟨env, hmem, hkey, (hle name k).trans hver⟩
  sent := h.sent
  genuine := hgenuine

/-- A step of a runner. -/
theorem Sys.Safe.drain {σ : Sys κ} {i : ℕ} {l : RunnerStep} {r : Runner} {s : Store κ}
    {new : List (String × StateEnvelope)} (h : σ.Safe A)
    (hm : (σ.runner i).Moves A σ.store l r s new) :
    Sys.Safe A ⟨s, Function.update σ.runner i r, σ.delivered ++ new⟩ := by
  -- what the other runners are about to record, and what this one is
  have hsent : (∀ d env rest, r = .sent d env rest →
      (d.subscriberName, env) ∈ σ.delivered ++ new) →
      ∀ j d env rest, Function.update σ.runner i r j = .sent d env rest →
        (d.subscriberName, env) ∈ σ.delivered ++ new := by
    intro hr j d env rest hj
    by_cases hij : j = i
    · rw [hij, Function.update_self] at hj
      exact hr d env rest hj
    · rw [Function.update_of_ne hij] at hj
      exact List.mem_append_left _ (h.sent j d env rest hj)
  have hreached : ∀ name k, 0 < σ.store.lastDelivered name k →
      ∃ env, (name, env) ∈ σ.delivered ++ new ∧ key env = k ∧
        σ.store.lastDelivered name k ≤ env.version := by
    intro name k hpos
    obtain ⟨env, hmem, hrest⟩ := h.reached name k hpos
    exact ⟨env, List.mem_append_left _ hmem, hrest⟩
  generalize hr : σ.runner i = r₀ at hm
  cases hm with
  | begin | page | skip | refused | unrecorded | again | ended | stop =>
    exact ⟨hreached, hsent (fun _ _ _ he => by cases he), h.genuine⟩
  | sent =>
    refine ⟨hreached, hsent fun d env rest he => ?_, h.genuine⟩
    cases he
    exact List.mem_append_right _ List.mem_cons_self
  | @advanced d env rest now w s' hadv =>
    refine ⟨fun name k hpos => ?_, hsent (fun _ _ _ he => by cases he), ?_⟩
    · -- the larger of two versions that have been delivered
      rw [Adapter.lastDelivered_advance hadv] at hpos ⊢
      split_ifs at hpos ⊢ with heq
      · obtain ⟨rfl, rfl⟩ := heq
        have henv := List.mem_append_left [] (h.sent i d env rest hr)
        rcases Nat.le_total (σ.store.lastDelivered d.subscriberName (key env)) env.version with
          hle | hle
        · exact ⟨env, henv, rfl, max_le hle le_rfl⟩
        · rw [max_eq_left hle] at hpos ⊢
          exact hreached _ _ hpos
      · exact hreached name k hpos
    · rw [Adapter.db_advance hadv]
      exact h.genuine

/-- **What every step keeps.** -/
theorem Sys.Safe.next {σ σ' : Sys κ} {l : Step} (h : σ.Safe A) (hst : σ.next A H l = some σ') :
    σ'.Safe A := by
  cases l with
  | append E p =>
    obtain rfl := Option.some.inj hst
    exact h.of_le (fun _ _ => le_rfl) h.genuine.append
  | upsert en row =>
    simp only [Sys.next] at hst
    split_ifs at hst with hv
    obtain rfl := Option.some.inj hst
    exact h.of_le (fun _ _ => le_rfl) (h.genuine.upsertCachedState hv)
  | wipe tenant typeURL =>
    obtain rfl := Option.some.inj hst
    exact h.of_le (fun _ _ => le_rfl) h.genuine.wipe
  | drain i l =>
    obtain ⟨res, hres, rfl⟩ := Option.map_eq_some_iff.1 hst
    exact h.drain (Runner.moves_of_step hres)
  | reset name tenant =>
    simp only [Sys.next] at hst
    split at hst
    · exact Option.some.inj hst ▸ h
    · rename_i res hres
      obtain rfl := Option.some.inj hst
      refine h.of_le (fun name' k => ?_) (Adapter.db_reset hres ▸ h.genuine)
      rw [Adapter.lastDelivered_reset hres]
      split_ifs
      · exact Nat.zero_le _
      · exact le_rfl
  | resetForStream name k =>
    simp only [Sys.next] at hst
    split at hst
    · exact Option.some.inj hst ▸ h
    · rename_i res hres
      obtain rfl := Option.some.inj hst
      refine h.of_le (fun name' k' => ?_) (Adapter.db_resetForStream hres ▸ h.genuine)
      rw [Adapter.lastDelivered_resetForStream hres]
      split_ifs
      · exact Nat.zero_le _
      · exact le_rfl

theorem Sys.Safe.of_reachable {σ : Sys κ} (h : (system A H).Reachable σ) : σ.Safe A :=
  h.invariant (fun _ hi => hi ▸ safe_empty) fun _ _ _ _ hs hst => hs.next hst

/-! ### Positions over time -/

/-- The step resets the position of the subscriber on the stream. -/
def Step.Resets (name : String) (k : StreamKey) : Step → Prop
  | .reset name' tenant => name' = name ∧ tenant = k.1
  | .resetForStream name' k' => name' = name ∧ k' = k
  | _ => False

/-- **Only a reset takes a position back.** -/
theorem Sys.lastDelivered_le_of_next {σ σ' : Sys κ} {l : Step} {name : String} {k : StreamKey}
    (hst : σ.next A H l = some σ') (hl : ¬ l.Resets name k) :
    σ.store.lastDelivered name k ≤ σ'.store.lastDelivered name k := by
  cases l with
  | append E p =>
    obtain rfl := Option.some.inj hst
    exact le_rfl
  | upsert en row =>
    simp only [Sys.next] at hst
    split_ifs at hst
    obtain rfl := Option.some.inj hst
    exact le_rfl
  | wipe tenant typeURL =>
    obtain rfl := Option.some.inj hst
    exact le_rfl
  | drain i l =>
    obtain ⟨res, hres, rfl⟩ := Option.map_eq_some_iff.1 hst
    have hm := Runner.moves_of_step hres
    generalize res.1 = r, res.2.1 = s, res.2.2 = new, σ.runner i = r₀ at hm
    cases hm with
    | begin | page | skip | sent | refused | unrecorded | again | ended | stop => exact le_rfl
    | advanced hadv =>
      rw [Adapter.lastDelivered_advance hadv]
      split_ifs with heq
      · obtain ⟨rfl, rfl⟩ := heq
        exact le_max_left _ _
      · exact le_rfl
  | reset name' tenant =>
    simp only [Sys.next] at hst
    split at hst
    · exact Option.some.inj hst ▸ le_rfl
    · rename_i res hres
      obtain rfl := Option.some.inj hst
      rw [Adapter.lastDelivered_reset hres, if_neg]
      rintro ⟨rfl, rfl⟩
      exact hl ⟨rfl, rfl⟩
  | resetForStream name' k' =>
    simp only [Sys.next] at hst
    split at hst
    · exact Option.some.inj hst ▸ le_rfl
    · rename_i res hres
      obtain rfl := Option.some.inj hst
      rw [Adapter.lastDelivered_resetForStream hres, if_neg]
      rintro ⟨rfl, rfl⟩
      exact hl ⟨rfl, rfl⟩

/-! ### Listings -/

/-- **What is cached above its position is listed**, with the state that is cached, when the limit
does not cut the listing off. -/
theorem Adapter.exists_listed {s : Store κ} {name tenant : String} {limit : ℤ} {n : ℕ}
    {r : StateCacheRow κ} (hread : ∀ r ∈ s.db.stateCache.rows, ∃ env, A.toEnvelope r = .ok env)
    (hscope : A.scopeErr tenant = none)
    (hlimit : A.limit (if limit ≤ 0 then 100 else limit) = .ok n)
    (hn : (A.rowsBehind name tenant s).length ≤ n) (hr : r ∈ s.db.stateCache.rows)
    (ht : tenant = "" ∨ r.tenantID = tenant) (hlt : s.lastDelivered name (rowKey r) < r.version) :
    ∃ envs, A.listStreamsBehind name tenant limit s = .ok envs ∧
      ∃ env ∈ envs, A.toEnvelope r = .ok env := by
  have hrows : ∀ r ∈ (A.rowsBehind name tenant s).take n, ∃ env, A.toEnvelope r = .ok env :=
    fun r hr => hread r (Adapter.mem_rowsBehind.1 (List.mem_of_mem_take hr)).1
  obtain ⟨envs, henvs⟩ := exists_forall₂_of_forall hrows
  refine ⟨envs, Adapter.listStreamsBehind_eq_ok.2 ⟨hscope, n, hlimit, henvs⟩, ?_⟩
  rw [List.take_of_length_le hn] at henvs
  have hmem : r ∈ A.rowsBehind name tenant s :=
    Adapter.mem_rowsBehind.2 ⟨hr, Store.behind_iff.2 ⟨hlt, ht⟩⟩
  exact exists_of_forall₂_right henvs.flip hmem

/-- **Positions are safe.**  In every state that can be reached,

* the position of a subscriber on a stream is not above the highest version delivered to it;
* no step but a reset of this very position takes it back;
* a cached state above the position is in every listing of the subscriber for all tenants or for
  its own, unless the limit cuts it off;
* the version of a cached state is above the position, so that it is listed, or something at least
  as new has been delivered to the subscriber.

The library reads back the times it has written. -/
theorem positions_safe (hread : ∀ t, ∃ t', A.base.parseTime (A.base.formatTime t) = .ok t')
    {σ : Sys κ} (h : (system A H).Reachable σ) (name : String) :
    (∀ k, σ.store.lastDelivered name k ≤ σ.highest name k) ∧
    (∀ k l σ', (system A H).step σ l σ' →
      σ'.store.lastDelivered name k < σ.store.lastDelivered name k → l.Resets name k) ∧
    (∀ r ∈ σ.store.db.stateCache.rows, σ.store.lastDelivered name (rowKey r) < r.version →
      ∀ tenant limit n, tenant = "" ∨ tenant = r.tenantID → A.scopeErr tenant = none →
        A.limit (if limit ≤ 0 then 100 else limit) = .ok n →
        (A.rowsBehind name tenant σ.store).length ≤ n →
        ∃ envs, A.listStreamsBehind name tenant limit σ.store = .ok envs ∧
          ∃ env ∈ envs, A.toEnvelope r = .ok env) ∧
    ∀ r ∈ σ.store.db.stateCache.rows, σ.store.lastDelivered name (rowKey r) < r.version ∨
      ∃ env, (name, env) ∈ σ.delivered ∧ key env = rowKey r ∧ r.version ≤ env.version := by
  have hsafe := Sys.Safe.of_reachable h
  refine ⟨fun k => ?_, fun k l σ' hst hlt => ?_, fun r hr hlt tenant limit n ht hs hl hn => ?_,
    fun r hr => ?_⟩
  · rcases Nat.eq_zero_or_pos (σ.store.lastDelivered name k) with hz | hpos
    · rw [hz]
      exact Nat.zero_le _
    · obtain ⟨env, hmem, rfl, hver⟩ := hsafe.reached name k hpos
      exact hver.trans (Sys.le_highest hmem)
  · by_contra hl
    exact absurd (Sys.lastDelivered_le_of_next hst hl) (Nat.not_le.2 hlt)
  · refine Adapter.exists_listed (fun r hr => ?_) hs hl hn hr (ht.imp_right Eq.symm) hlt
    obtain ⟨-, t, ht⟩ := hsafe.genuine r hr
    obtain ⟨t', ht'⟩ := hread t
    exact ⟨_, Adapter.toEnvelope_eq_ok.2 ⟨t', ht ▸ ht', rfl⟩⟩
  · rcases Nat.lt_or_ge (σ.store.lastDelivered name (rowKey r)) r.version with hlt | hge
    · exact Or.inl hlt
    · have hpos := (hsafe.genuine r hr).1
      obtain ⟨env, hmem, hkey, hver⟩ := hsafe.reached name _ (hpos.trans_le hge)
      exact Or.inr ⟨env, hmem, hkey, hge.trans hver⟩

/-! ### Two runners of one subscriber -/

namespace Race

/-- The SQLite adapter over the small library. -/
def adapter : Adapter (Sqlite.columns Bytes) := Sqlite.adapter .small

/-- The stream. -/
def stream : StreamKey := ("acme", "order:1")

/-- A drain for one tenant, or for all, with pages of the default size. -/
def index (tenant : String) : Drain := ⟨"index", tenant, 0, 0, 0⟩

/-- An append to the stream that caches a state. -/
def cachingAppend (expectedVersion : ℕ) (id : String) : Step :=
  .append .calm { AppendParams.bare expectedVersion id with newStateBytes := some [] }

/-- Two runners list the stream at versions 1 and 2, and the position is advanced to 2 first.  Then
a rebuild that has seen the first event only rewrites the cache. -/
def steps : List Step :=
  [cachingAppend 0 "a", .drain 0 (.begin (index "acme")), .drain 0 .page, .drain 0 (.row true),
    cachingAppend 1 "b", .drain 1 (.begin (index "")), .drain 1 .page, .drain 1 (.row true),
    .drain 1 (.advance 0 .done), .drain 0 (.advance 0 .unacknowledged), .drain 0 .crash,
    .upsert .calm ⟨"acme", "order:1", "", some [], 1, false, 0, 0⟩]

/-- What is observed of a state. -/
def observe (σ : Sys (Sqlite.columns Bytes)) : ℕ × ℕ × List ℕ × List ℕ :=
  (σ.store.lastDelivered "index" stream, σ.highest "index" stream,
    σ.store.db.stateCache.rows.map StateCacheRow.version, σ.delivered.map fun x => x.2.version)

theorem observe_exec : (TS.exec (Sys.next adapter .small) .empty steps).map observe =
    some (2, 2, [1], [1, 2]) := by
  decide +kernel

/-- The small library reads back the times it has written. -/
theorem exists_parseTime (t : Time) :
    ∃ t', adapter.base.parseTime (adapter.base.formatTime t) = .ok t' := by
  change ∃ t', Sqlite.parseTime .small (Sqlite.Library.small.format t) = .ok t'
  rw [Sqlite.parseTime, List.findSome?_cons]
  simp only [Sqlite.Library.small, String.toList_ofList]
  by_cases ht : t < 0
  · rw [if_pos ht]
    exact ⟨_, rfl⟩
  · rw [if_neg ht]
    exact ⟨_, rfl⟩

end Race

open StateStream.Race in
/-- The position stands at the higher of the two versions, and the cached state of version 1 counts
as delivered. -/
theorem positions_safe_race : ∃ σ : Sys (Sqlite.columns Bytes),
    (system adapter .small).Reachable σ ∧ observe σ = (2, 2, [1], [1, 2]) ∧
      ∀ r ∈ σ.store.db.stateCache.rows, r.version = 1 ∧
        (σ.store.lastDelivered "index" (rowKey r) < r.version ∨
          ∃ env, ("index", env) ∈ σ.delivered ∧ key env = rowKey r ∧
            r.version ≤ env.version) := by
  obtain ⟨σ, hσ, hobs⟩ := Option.map_eq_some_iff.1 observe_exec
  have hreach : (system adapter .small).Reachable σ :=
    TS.Reachable.exec (.init rfl) (fun _ _ _ _ h => h) hσ
  obtain ⟨-, -, -, hsafe⟩ := positions_safe exists_parseTime hreach "index"
  refine ⟨σ, hreach, hobs, fun r hr => ⟨?_, hsafe r hr⟩⟩
  have hversions : σ.store.db.stateCache.rows.map StateCacheRow.version = [1] :=
    congrArg (fun o => o.2.2.1) hobs
  exact List.mem_singleton.1 (hversions ▸ List.mem_map_of_mem hr)

end EventStore.StateStream
