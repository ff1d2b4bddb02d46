import EventStore.Es.Types

/-!
# Shards

Drains and projection runners split the streams among themselves by a hash of the stream's key.
-/

namespace EventStore

/-- `fnv.New32a`: the FNV-1a hash of the bytes of a text. -/
def fnv32a (s : String) : UInt32 :=
  s.toUTF8.data.toList.foldl (fun h b => (h ^^^ b.toUInt32) * 16777619) 2166136261

/-- `h.Write`: the hash after some more text. -/
def fnvWrite (h : UInt32) (s : String) : UInt32 :=
  s.toUTF8.data.toList.foldl (fun h b => (h ^^^ b.toUInt32) * 16777619) h

/-- A text may be written in parts. -/
theorem fnvWrite_append (h : UInt32) (s t : String) :
    fnvWrite h (s ++ t) = fnvWrite (fnvWrite h s) t := by
  simp [fnvWrite, String.toUTF8_eq_toByteArray]

theorem fnv32a_eq_fnvWrite (s : String) : fnv32a s = fnvWrite 2166136261 s := rfl

/-- `streamShard`.  Division by zero is a panic. -/
def streamShard (streamKey : String) (totalShards : ℤ) : Except Err UInt32 :=
  let n := UInt32.ofInt totalShards
  if n = 0 then .error (.text "runtime error: integer divide by zero")
  else .ok (fnv32a streamKey % n)

/-- The shard of a stream whose tenant and canonical form are written one after the other.  Division
by zero is a panic. -/
def writtenShard (tenantID streamID : String) (totalShards : ℤ) : Except Err UInt32 :=
  let n := UInt32.ofInt totalShards
  let h := fnvWrite (fnvWrite (fnvWrite 2166136261 tenantID) "|") streamID
  if n = 0 then .error (.text "runtime error: integer divide by zero")
  else .ok (h % n)

theorem writtenShard_eq (tenantID streamID : String) (totalShards : ℤ) :
    writtenShard tenantID streamID totalShards =
      streamShard (tenantID ++ "|" ++ streamID) totalShards := by
  simp only [writtenShard, streamShard, fnv32a_eq_fnvWrite, fnvWrite_append]

theorem exists_streamShard_eq (key : String) {total : ℤ} (hpos : 1 ≤ total)
    (hle : total ≤ 2 ^ 32 - 1) : ∃ sh, streamShard key total = .ok sh := by
  refine ⟨_, if_neg fun h => ?_⟩
  have hnat := congrArg UInt32.toNat h
  simp only [UInt32.ofInt, UInt32.toNat_ofNat', UInt32.toNat_zero] at hnat
  omega

/-- Every stream belongs to one of the shards. -/
theorem streamShard_lt {key : String} {total : ℕ} {sh : UInt32}
    (h : streamShard key total = .ok sh) : sh.toNat < total := by
  simp only [streamShard] at h
  split_ifs at h with hn
  obtain rfl := Except.ok.inj h
  have hpos : 0 < (UInt32.ofInt total).toNat := by
    refine Nat.pos_of_ne_zero fun h₀ => hn (UInt32.toNat_inj.1 ?_)
    simpa using h₀
  have hle : (UInt32.ofInt total).toNat ≤ total := by
    simp only [UInt32.ofInt, UInt32.toNat_ofNat']
    omega
  rw [UInt32.toNat_mod]
  exact Nat.lt_of_lt_of_le (Nat.mod_lt _ hpos) hle

end EventStore
