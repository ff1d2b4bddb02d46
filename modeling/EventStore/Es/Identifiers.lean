import EventStore.Outbox.Drain
import EventStore.Projection.Runtime
import EventStore.StateStream.Drain

/-!
# Composite identifiers

A stream is named in several ways: by its canonical form in the tables, by `tenant|canonical` in
the maps of a Run and of a rebuild, and by a hash of this key where runners share the streams out.
A tenant may be any text, also one with a bar or a colon in it; a slug has neither, so a canonical
form is split at its first colon and a key at its last bar.

* `identifiers_unambiguous` : **the names determine the stream, and the drains of the outbox, the
  projections and the drains of the state stream put it into the same shard.**
-/

namespace EventStore

variable {tenant canonical : String} {sh : UInt32}

/-- A drain of the outbox takes the streams of its shard. -/
theorem Drain.inShard_of_streamShard {d : Drain} (hpos : 1 ≤ d.totalShards)
    (h : streamShard (quarantineKey tenant canonical) d.totalShards = .ok sh) :
    d.inShard (quarantineKey tenant canonical) = .ok (decide ((sh.toNat : ℤ) = d.shard)) := by
  rw [inShard, if_pos (by omega), h]
  rfl

/-- So does a projection. -/
theorem Projector.inShard_of_streamShard {P : Projector} (hpos : 1 ≤ P.totalShards)
    (h : streamShard (quarantineKey tenant canonical) P.totalShards = .ok sh) :
    P.inShard tenant canonical = .ok (decide ((sh.toNat : ℤ) = P.shard)) := by
  rw [quarantineKey, ← writtenShard_eq] at h
  rw [inShard, if_neg (by omega), h]
  rfl

/-- So does a drain of the state stream. -/
theorem StateStream.Drain.inShard_of_streamShard {d : StateStream.Drain} (hpos : 1 ≤ d.totalShards)
    (h : streamShard (quarantineKey tenant canonical) d.totalShards = .ok sh) :
    d.inShard (tenant, canonical) = .ok (decide ((sh.toNat : ℤ) = d.shard)) := by
  rw [quarantineKey, ← writtenShard_eq, writtenShard] at h
  split_ifs at h with hzero
  obtain rfl := Except.ok.inj h
  rw [inShard, if_neg (by omega)]
  exact if_neg hzero

/-- **Composite identifiers are unambiguous.**  A canonical form is read back as the identity it is
of, and only as that; the keys of the maps have one tenant and one stream; and with up to
`2 ^ 32 - 1` shards a stream belongs to one of them, for all three kinds of runners. -/
theorem identifiers_unambiguous :
    (∀ sid : StreamID, sid.Valid → parseCanonical sid.tenant sid.canonical = .ok sid) ∧
    (∀ tenant s sid, parseCanonical tenant s = .ok sid → sid.canonical = s) ∧
    (∀ tenant tenant' (sid sid' : StreamID), sid.Valid → sid'.Valid →
      quarantineKey tenant sid.canonical = quarantineKey tenant' sid'.canonical ∨
        rebuildKey tenant sid.canonical = rebuildKey tenant' sid'.canonical →
      tenant = tenant' ∧ sid.canonical = sid'.canonical) ∧
    ∀ total : ℤ, 1 ≤ total → total ≤ 2 ^ 32 - 1 → ∀ tenant canonical, ∃ shard : ℕ,
      shard < total ∧
      (∀ d : Drain, d.totalShards = total →
        d.inShard (quarantineKey tenant canonical) = .ok (decide ((shard : ℤ) = d.shard))) ∧
      (∀ P : Projector, P.totalShards = total →
        P.inShard tenant canonical = .ok (decide ((shard : ℤ) = P.shard))) ∧
      ∀ d : StateStream.Drain, d.totalShards = total →
        d.inShard (tenant, canonical) = .ok (decide ((shard : ℤ) = d.shard)) := by
  refine ⟨fun sid => parseCanonical_canonical, fun tenant s sid h => (parseCanonical_eq_ok h).2.2,
    fun tenant tenant' sid sid' hv hv' h => ?_, fun total hpos hle tenant canonical => ?_⟩
  · -- both keys are put together in the same way
    rcases h with h | h
    · exact eq_of_rebuildKey hv hv' h
    · exact eq_of_rebuildKey hv hv' h
  · obtain ⟨sh, hsh⟩ := exists_streamShard_eq (quarantineKey tenant canonical) hpos hle
    obtain ⟨n, rfl⟩ := Int.eq_ofNat_of_zero_le (le_trans (by decide) hpos)
    refine ⟨sh.toNat, Int.ofNat_lt.2 (streamShard_lt hsh), ?_, ?_, ?_⟩
    · exact fun d hd => Drain.inShard_of_streamShard (hd ▸ hpos) (hd ▸ hsh)
    · exact fun P hP => Projector.inShard_of_streamShard (hP ▸ hpos) (hP ▸ hsh)
    · exact fun d hd => StateStream.Drain.inShard_of_streamShard (hd ▸ hpos) (hd ▸ hsh)

end EventStore
