import EventStore.Outbox.Attempts

/-!
# A publisher that fails

When `Publish` returns an error, `runBatch` records it with `MarkOutboxFailed` and goes on to the
next row of the page.  The message is stored in `last_error`, cut at 2048 bytes.  SQLite stores any
bytes.  Postgres takes valid UTF-8 without zero bytes only, and the message may be something else
from the beginning, or be cut in the middle of a character.  Then the mark fails, and `runBatch`
returns its error: the attempt is not recorded, and the rows behind it are not served, whatever
their streams.  The next Run begins with the same row.

* `Drain.asked` : the rows of a page the batch is to call `Publish` on, at most one of a stream.
* `World.refusals` : the messages it gets if it does.
* `Drain.Serves` : the batch calls `Publish` on all of them, and records every failure.
* `batch_serves_iff` : **on SQLite it always does; on Postgres if and only if every message is,
  after the cut, a text the column takes.**
-/

namespace EventStore

variable {κ : Columns}

namespace Drain

/-- The rows of a page that are of the shard, and of streams that are not paused. -/
def asked (d : Drain) (m : Memory) (rows : List PendingRow) : List PendingRow :=
  rows.filter fun row => (d.takes m row).toOption == some true

/-- The errors `Publish` returns when it is called on rows in turn, after others. -/
def World.refusals (w : World) : List PendingRow → List PendingRow → List (PendingRow × Bytes)
  | _, [] => []
  | calls, row :: rows =>
    ((w.publish calls row.envelope).map fun errMsg => (row, errMsg)).toList ++
      w.refusals (calls ++ [row]) rows

/-- The failure of a row is recorded. -/
def Recorded (d : Drain) (A : OutboxAdapter κ) (p p' : Progress κ) (row : PendingRow)
    (errMsg : Bytes) : Prop :=
  ∃ x ∈ p.store.joined, A.toPendingRow x = .ok row ∧
    ∃ now, d.failed A.toOutboxDialect now errMsg x ∈ p'.store.joined

/-- A batch calls `Publish` on every row it is to, and records every failure. -/
def Serves (d : Drain) (A : OutboxAdapter κ) (w : World) (p : Progress κ)
    (rows : List PendingRow) : Prop :=
  ∃ p', d.tryBatch A w p = (p', none) ∧ p'.calls = p.calls ++ d.asked p.mem rows ∧
    ∀ r ∈ w.refusals p.calls (d.asked p.mem rows), d.Recorded A p p' r.1 r.2

/-! ### One row -/

variable {d : Drain} {A : OutboxAdapter κ} {w : World} {p p' : Progress κ} {row row' : PendingRow}
  {x : Pending κ} {xs : List (Pending κ)} {rows : List PendingRow} {errMsg : Bytes} {m : Memory}

theorem mem_refusals {calls : List PendingRow} {r : PendingRow × Bytes}
    (h : r ∈ w.refusals calls rows) : ∃ calls', w.publish calls' r.1.envelope = some r.2 := by
  induction rows generalizing calls with
  | nil => cases h
  | cons row rows ih =>
    rw [World.refusals, List.mem_append, Option.mem_toList, Option.map_eq_some_iff] at h
    rcases h with ⟨errMsg, hpub, rfl⟩ | h
    · exact ⟨calls, hpub⟩
    · exact ih h

/-- A failure pauses no other stream. -/
theorem takes_afterFailure (h : row.key ≠ row'.key) :
    d.takes (d.afterFailure m row) row' = d.takes m row' := by
  unfold afterFailure
  split_ifs
  all_goals simp [takes, h.symm]

/-- What a batch is to do does not depend on how it fared with the other streams. -/
theorem asked_congr {m' : Memory} (h : ∀ row ∈ rows, d.takes m' row = d.takes m row) :
    d.asked m' rows = d.asked m rows :=
  List.filter_congr fun row hrow => by rw [h row hrow]

section Marks

variable (hscope : ∀ t, t ≠ "" → A.scopeErr t = none) (hfault : ∀ n, w.fault (.mark n) = none)

include hscope hfault

/-- A row that can be read has a tenant, and a mark for it comes to its statement. -/
theorem mark_eq_none (hx : x ∈ p.store.joined) (hrow : A.toPendingRow x = .ok row) :
    (A.scopeErr row.envelope.tenantID).or (w.fault (.mark p.tick)) = none := by
  obtain ⟨sid, hv, ht, -, -, htenant, -⟩ := OutboxDialect.toPendingRow_eq_ok hrow
  have hne : row.envelope.tenantID ≠ "" := by
    rw [htenant, OutboxDb.tenantID_of_mem hx, ← ht]
    intro he
    rw [StreamID.Valid, StreamID.validate, if_pos he] at hv
    cases hv
  rw [hscope _ hne, hfault]
  rfl

/-- A row that is published. -/
theorem tryRow_sent (hx : x ∈ p.store.joined) (hrow : A.toPendingRow x = .ok row)
    (htakes : d.takes p.mem row = .ok true) (hpub : w.publish p.calls row.envelope = none) :
    d.tryRow A w p row = ({
      store := recordPublish A.toOutboxDialect (w.clock p.tick) row p.store
      mem := afterPublish p.mem
      tick := p.tick + 1
      calls := p.calls ++ [row] }, none) := by
  rw [tryRow, htakes]
  simp only [hpub, OutboxAdapter.markPublished, mark_eq_none hscope hfault hx hrow]
  rfl

/-- A row that is refused, with a message that can be stored. -/
theorem tryRow_refused (hx : x ∈ p.store.joined) (hrow : A.toPendingRow x = .ok row)
    (htakes : d.takes p.mem row = .ok true) (hpub : w.publish p.calls row.envelope = some errMsg)
    (htext : A.textErr (errMsg.take 2048) = none) :
    d.tryRow A w p row = ({
      store := d.recordFailure A.toOutboxDialect (w.clock p.tick) row errMsg p.store
      mem := d.afterFailure p.mem row
      tick := p.tick + 1
      calls := p.calls ++ [row] }, none) := by
  rw [tryRow, htakes]
  simp only [hpub, OutboxAdapter.markFailed, mark_eq_none hscope hfault hx hrow, htext]
  rfl

omit hscope hfault in
/-- A row that is refused, with a message that cannot be stored. -/
theorem tryRow_blocked (htakes : d.takes p.mem row = .ok true)
    (hpub : w.publish p.calls row.envelope = some errMsg)
    (htext : A.textErr (errMsg.take 2048) ≠ none) :
    ∃ e, d.tryRow A w p row =
      ({ p with tick := p.tick + 1, calls := p.calls ++ [row] }, some e) := by
  rw [tryRow, htakes]
  simp only [hpub, OutboxAdapter.markFailed]
  cases hbad : ((A.scopeErr row.envelope.tenantID).or (w.fault (.mark p.tick))).or
      (A.textErr (errMsg.take 2048)) with
  | some e => exact ⟨_, rfl⟩
  | none => exact absurd (Option.or_eq_none_iff.1 hbad).2 htext

end Marks

/-! ### A page -/

/-- The error of the first row is that of the batch. -/
theorem tryBatch_blocked {e : Err} (hread : d.readPage A w p = .ok (row :: rows))
    (hstep : d.tryRow A w p.turned row = (p', some e)) : d.tryBatch A w p = (p', some e) := by
  rw [tryBatch, hread]
  dsimp only
  rw [tryRows, hstep]

/-- What is left of a page after its first row. -/
theorem asked_cons_of_taken (h : d.takes m row = .ok true) :
    d.asked m (row :: rows) = row :: d.asked m rows := by
  rw [asked, List.filter_cons_of_pos (by rw [h]; rfl)]
  rfl

theorem asked_cons_of_skipped (h : d.takes m row = .ok false) :
    d.asked m (row :: rows) = d.asked m rows := by
  rw [asked, List.filter_cons_of_neg (by rw [h]; decide)]
  rfl

/-- A batch that has come to the end of a page: it has called `Publish` on the rows it was to, and
recorded the failures. -/
structure Through (d : Drain) (A : OutboxAdapter κ) (w : World) (p : Progress κ)
    (xs : List (Pending κ)) (asked : List PendingRow) (p' : Progress κ) : Prop where
  calls : p'.calls = p.calls ++ asked
  kept : ∀ y ∈ p.store.joined, (∀ x ∈ xs, y.position ≠ x.position) → y ∈ p'.store.joined
  recorded : ∀ r ∈ w.refusals p.calls asked, ∃ x ∈ xs, A.toPendingRow x = .ok r.1 ∧
    ∃ now, d.failed A.toOutboxDialect now r.2 x ∈ p'.store.joined

/-- A row that is skipped changes nothing. -/
theorem Through.skip {asked : List PendingRow} (h : Through d A w p xs asked p') :
    Through d A w p (x :: xs) asked p' where
  calls := h.calls
  kept y hy hne := h.kept y hy fun z hz => hne z (List.mem_cons_of_mem _ hz)
  recorded r hr := by
    obtain ⟨z, hz, hread, hrec⟩ := h.recorded r hr
    exact ⟨z, List.mem_cons_of_mem _ hz, hread, hrec⟩

/-- A row that is called is recorded at once, and stays so. -/
theorem Through.call {p₁ : Progress κ} {asked : List PendingRow}
    (h : Through d A w p₁ xs asked p') (hx : x ∈ p.store.joined)
    (hrow : A.toPendingRow x = .ok row) (hne : ∀ y ∈ xs, x.position ≠ y.position)
    (ht : Tried p p₁ x row) (hcalls : p₁.calls = p.calls ++ [row])
    (hrec : ∀ errMsg, w.publish p.calls row.envelope = some errMsg →
      ∃ now, d.failed A.toOutboxDialect now errMsg x ∈ p₁.store.joined) :
    Through d A w p (x :: xs) (row :: asked) p' where
  calls := by rw [h.calls, hcalls, List.append_assoc, List.singleton_append]
  kept y hy hys := by
    refine h.kept y ?_ fun z hz => hys z (List.mem_cons_of_mem _ hz)
    exact (ht.mem_iff hx (hys x List.mem_cons_self)).2 hy
  recorded r hr := by
    rw [World.refusals, ← hcalls, List.mem_append, Option.mem_toList,
      Option.map_eq_some_iff] at hr
    rcases hr with ⟨errMsg, hpub, rfl⟩ | hr
    · obtain ⟨now, hmem⟩ := hrec errMsg hpub
      exact ⟨x, List.mem_cons_self, hrow, now, h.kept _ hmem hne⟩
    · obtain ⟨z, hz, hread, hmem⟩ := h.recorded r hr
      exact ⟨z, List.mem_cons_of_mem _ hz, hread, hmem⟩

section Page

variable (hscope : ∀ t, t ≠ "" → A.scopeErr t = none) (hfault : ∀ n, w.fault (.mark n) = none)
  (hshard : ∀ key, ∃ own, d.inShard key = .ok own)

include hshard in
theorem takes_or (m : Memory) (row : PendingRow) :
    d.takes m row = .ok true ∨ d.takes m row = .ok false := by
  obtain ⟨own, hown⟩ := hshard row.key
  rw [takes, hown]
  rcases Bool.eq_false_or_eq_true
    (own && !(m.quarantined.contains row.key || m.halted.contains row.key)) with h | h
  · exact Or.inl (congrArg Except.ok h)
  · exact Or.inr (congrArg Except.ok h)

include hscope hfault hshard in
/-- The batch comes to the end of the page if every message can be stored, and ends with an error
otherwise. -/
theorem tryRows_iff (hahead : Ahead d A p xs rows) :
    ((∀ r ∈ w.refusals p.calls (d.asked p.mem rows), A.textErr (r.2.take 2048) = none) →
      ∃ p', d.tryRows A w rows p = (p', none) ∧
        Through d A w p xs (d.asked p.mem rows) p') ∧
    ((∃ r ∈ w.refusals p.calls (d.asked p.mem rows), A.textErr (r.2.take 2048) ≠ none) →
      ∃ p' e, d.tryRows A w rows p = (p', some e)) := by
  induction rows generalizing p xs with
  | nil =>
    refine ⟨fun _ => ⟨p, rfl, (List.append_nil _).symm, fun y hy _ => hy, fun r hr => ?_⟩, ?_⟩
    · cases hr
    · rintro ⟨r, hr, -⟩
      cases hr
  | cons row rows ih =>
    obtain ⟨x, xs, hrow, -, rfl⟩ := List.forall₂_cons_right_iff.1 hahead.reads
    have hx := hahead.mem x List.mem_cons_self
    obtain ⟨hne, -⟩ := List.pairwise_cons.1 hahead.apart
    obtain ⟨hkey, -⟩ := List.pairwise_cons.1 hahead.keys
    rcases takes_or hshard p.mem row with htakes | htakes
    · rw [asked_cons_of_taken htakes]
      cases hpub : w.publish p.calls row.envelope with
      | none =>
        have hstep := tryRow_sent hscope hfault hx hrow htakes hpub
        have ht := (rowTried_of_tryRow hstep).tried hrow
        obtain ⟨hok, hbad⟩ := ih (hahead.tail ht)
        rw [tryRows, hstep]
        simp only [World.refusals, hpub, Option.map_none, Option.toList_none, List.nil_append]
        refine ⟨fun htext => ?_, hbad⟩
        obtain ⟨p', hrun, hthrough⟩ := hok htext
        exact ⟨p', hrun, hthrough.call hx hrow hne ht rfl fun e he => by rw [hpub] at he; cases he⟩
      | some errMsg =>
        by_cases htext : A.textErr (errMsg.take 2048) = none
        · have hstep := tryRow_refused hscope hfault hx hrow htakes hpub htext
          have ht := (rowTried_of_tryRow hstep).tried hrow
          obtain ⟨hok, hbad⟩ := ih (hahead.tail ht)
          have hasked : d.asked (d.afterFailure p.mem row) rows = d.asked p.mem rows :=
            asked_congr fun row' hrow' => takes_afterFailure (hkey row' hrow')
          dsimp only at hok hbad
          rw [hasked] at hok hbad
          rw [tryRows, hstep]
          simp only [World.refusals, hpub, Option.map_some, Option.toList_some,
            List.singleton_append, List.forall_mem_cons, List.exists_mem_cons_iff, htext]
          refine ⟨fun hall => ?_, fun hsome => hbad (hsome.resolve_left fun h => h rfl)⟩
          obtain ⟨p', hrun, hthrough⟩ := hok hall.2
          refine ⟨p', hrun, hthrough.call hx hrow hne ht rfl fun e he => ?_⟩
          obtain rfl := Option.some.inj (hpub.symm.trans he)
          refine ⟨w.clock p.tick, ?_⟩
          dsimp only
          rw [recordFailure_eq hrow, OutboxDb.mem_joined_update_key hx]
          exact Or.inl rfl
        · obtain ⟨e, hstep⟩ := tryRow_blocked htakes hpub htext
          rw [tryRows, hstep]
          refine ⟨fun hall => absurd (hall (row, errMsg) ?_) htext, fun _ => ⟨_, e, rfl⟩⟩
          rw [World.refusals, hpub]
          exact List.mem_cons_self
    · rw [asked_cons_of_skipped htakes]
      have hstep : d.tryRow A w p row = (p, none) := by rw [tryRow, htakes]
      have ht := (rowTried_of_tryRow hstep).tried hrow
      obtain ⟨hok, hbad⟩ := ih (hahead.tail ht)
      rw [tryRows, hstep]
      refine ⟨fun htext => ?_, hbad⟩
      obtain ⟨p', hrun, hthrough⟩ := hok htext
      exact ⟨p', hrun, hthrough.skip⟩

include hscope hfault hshard in
/-- A batch serves its page if and only if every message can be stored. -/
theorem serves_iff (hread : d.readPage A w p = .ok rows) : d.Serves A w p rows ↔
    ∀ r ∈ w.refusals p.calls (d.asked p.mem rows), A.textErr (r.2.take 2048) = none := by
  obtain ⟨xs, hahead⟩ := ahead_of_readPage hread
  obtain ⟨hok, hbad⟩ := tryRows_iff hscope hfault hshard hahead
  have hbatch : d.tryBatch A w p = d.tryRows A w rows p.turned := by rw [tryBatch, hread]
  constructor
  · rintro ⟨p', hrun, -⟩
    by_contra hsome
    push Not at hsome
    obtain ⟨p₁, e, hfail⟩ := hbad hsome
    rw [hbatch, hfail] at hrun
    cases hrun
  · intro htext
    obtain ⟨p', hrun, hthrough⟩ := hok htext
    refine ⟨p', hbatch.trans hrun, hthrough.calls, fun r hr => ?_⟩
    obtain ⟨x, hx, hrow, hrec⟩ := hthrough.recorded r hr
    exact ⟨x, hahead.mem x hx, hrow, hrec⟩

end Page

end Drain

theorem Postgres.textErr_adapter {J : Type} {L : Postgres.Library J} {text : Bytes} :
    (Postgres.adapter L).textErr text = none ↔ Postgres.TakesText text := by
  by_cases h : Postgres.TakesText text
  · exact iff_of_true (if_pos h) h
  · refine iff_of_false ?_ h
    rw [show (Postgres.adapter L).textErr text = some _ from if_neg h]
    exact Option.some_ne_none _

/-- **A failing publish and the other streams.**  In a world in which statements do not fail by
themselves, a batch of a SQLite drain calls `Publish` on all rows of its page that are of the shard
and not paused, whatever `Publish` returns for them, and records every failure.  A batch of a
Postgres drain does so if and only if each of the messages is, cut at 2048 bytes, a text that
Postgres takes. -/
theorem batch_serves_iff (d : Drain) (w : Drain.World)
    (hshard : ∀ key, ∃ own, d.inShard key = .ok own) (hfault : ∀ n, w.fault (.mark n) = none) :
    (∀ {J : Type} (L : Sqlite.Library J) (strftime : Time → String)
        (p : Drain.Progress (Sqlite.columns J)) (rows : List PendingRow),
      d.readPage (Sqlite.adapter L strftime) w p = .ok rows →
        d.Serves (Sqlite.adapter L strftime) w p rows) ∧
    ∀ {J : Type} (L : Postgres.Library J) (p : Drain.Progress (Postgres.columns J))
        (rows : List PendingRow),
      d.readPage (Postgres.adapter L) w p = .ok rows →
        (d.Serves (Postgres.adapter L) w p rows ↔
          ∀ r ∈ w.refusals p.calls (d.asked p.mem rows), Postgres.TakesText (r.2.take 2048)) := by
  constructor
  · intro J L strftime p rows hread
    exact (Drain.serves_iff (fun _ _ => rfl) hfault hshard hread).2 fun _ _ => rfl
  · intro J L p rows hread
    rw [Drain.serves_iff (fun t ht => if_neg ht) hfault hshard hread]
    simp only [Postgres.textErr_adapter]

/-! ### A message that is cut -/

namespace Postgres

theorem isValidUTF8_iff {text : Bytes} : (ByteArray.mk text.toArray).IsValidUTF8 ↔
    ∃ cs : List Char, text = cs.flatMap String.utf8EncodeChar := by
  constructor
  · rintro ⟨cs, h⟩
    have hdata := congrArg (fun b : ByteArray => b.data.toList) h
    exact ⟨cs, by simpa [List.utf8Encode] using hdata⟩
  · rintro ⟨cs, rfl⟩
    refine ⟨cs, ?_⟩
    ext1
    simp [List.utf8Encode]

/-- The last byte of a character is not one that begins a longer one. -/
theorem getLast_utf8EncodeChar (c : Char) (h : String.utf8EncodeChar c ≠ []) :
    (String.utf8EncodeChar c).getLast h < 192 := by
  have hlt : ∀ n : ℕ, n < 192 → UInt8.ofNat n < 192 := by
    intro n hn
    rw [UInt8.lt_iff_toNat_lt, UInt8.toNat_ofNat']
    exact Nat.lt_of_le_of_lt (Nat.mod_le _ _) hn
  revert h
  rw [String.utf8EncodeChar]
  split_ifs <;> exact fun _ => hlt _ (by omega)

/-- A text that ends with the first byte of a longer character is not taken. -/
theorem not_takesText_concat {text : Bytes} {b : UInt8} (hb : 192 ≤ b) :
    ¬ TakesText (text ++ [b]) := by
  rintro ⟨hvalid, -⟩
  obtain ⟨cs, hcs⟩ := isValidUTF8_iff.1 hvalid
  rcases List.eq_nil_or_concat cs with rfl | ⟨cs, c, rfl⟩
  · simp at hcs
  · have hne : String.utf8EncodeChar c ≠ [] := String.utf8EncodeChar_ne_nil
    rw [List.concat_eq_append, List.flatMap_append, List.flatMap_singleton,
      ← List.dropLast_append_getLast hne, ← List.append_assoc] at hcs
    have hlast := (List.append_inj' hcs rfl).2
    rw [List.singleton_inj] at hlast
    have hlt := getLast_utf8EncodeChar c hne
    rw [← hlast] at hlt
    exact absurd hlt (by simpa using hb)

end Postgres

namespace Drain

/-- An event of the stream `order:1`, and one of `order:2` behind it, in Postgres. -/
def postgresTable : OutboxDb (Postgres.columns Bytes) :=
  let enqueue (p : AppendParams) (s : OutboxDb (Postgres.columns Bytes)) :=
    (s.append (Postgres.dialect .small) .small .calm p).2
  enqueue { AppendParams.bare 0 "b" with streamID := ⟨"acme", "order", "2"⟩ }
    (enqueue (.bare 0 "a") .empty)

/-- The publisher refuses the first event, with a message. -/
def refusing (errMsg : Bytes) : World :=
  .quiet (fun e => if e.globalPosition = 1 then some errMsg else none) fun _ => 0

/-- The letter `a`, 2047 times, and one of two bytes. -/
def longMessage : Bytes := List.replicate 2047 97 ++ [195, 169]

theorem takesText_longMessage : Postgres.TakesText longMessage := by
  refine ⟨Postgres.isValidUTF8_iff.2 ⟨List.replicate 2047 'a' ++ ['é'], ?_⟩, ?_⟩
  · have ha : String.utf8EncodeChar 'a' = [97] := by decide
    have he : String.utf8EncodeChar 'é' = [195, 169] := by decide
    rw [longMessage, List.flatMap_append, List.flatMap_replicate, List.flatMap_singleton, ha, he,
      List.flatten_replicate_singleton]
  · rw [longMessage, List.mem_append, List.mem_replicate]
    decide

theorem not_takesText_cut : ¬ Postgres.TakesText (longMessage.take 2048) := by
  have hcut : longMessage.take 2048 = List.replicate 2047 97 ++ [195] := by
    rw [longMessage, List.take_append, List.length_replicate, List.take_of_length_le
      (by rw [List.length_replicate]; omega)]
    rfl
  rw [hcut]
  exact Postgres.not_takesText_concat (by decide)

/-- The first page of a Run over the two events. -/
theorem exists_postgresPage (errMsg : Bytes) : ∃ r₁ r₂ : PendingRow,
    single.readPage (Postgres.adapter .small) (refusing errMsg) (single.begun postgresTable) =
      .ok [r₁, r₂] ∧ r₁.rowKey = ("acme", 1) ∧ r₂.rowKey = ("acme", 2) ∧
    single.takes (single.start postgresTable) r₁ = .ok true ∧
    single.takes (single.start postgresTable) r₂ = .ok true := by
  have hobs : ((Postgres.adapter .small).pendingOutbox "" 100 1 0 postgresTable).toOption.map
      (List.map fun r => (r.rowKey, (single.takes (single.start postgresTable) r).toOption)) =
      some [(("acme", 1), some true), (("acme", 2), some true)] := by decide +kernel
  have hread : single.readPage (Postgres.adapter .small) (refusing errMsg)
      (single.begun postgresTable) =
        (Postgres.adapter .small).pendingOutbox "" 100 1 0 postgresTable := rfl
  have htakes : ∀ r, (single.takes (single.start postgresTable) r).toOption = some true →
      single.takes (single.start postgresTable) r = .ok true := by
    intro r h
    cases htk : single.takes (single.start postgresTable) r with
    | error e =>
      rw [htk] at h
      cases h
    | ok own =>
      rw [htk] at h
      rw [Option.some.inj h]
  cases hrows : (Postgres.adapter .small).pendingOutbox "" 100 1 0 postgresTable with
  | error e =>
    rw [hrows] at hobs
    cases hobs
  | ok rows =>
    rw [hrows] at hobs
    obtain ⟨r₁, rest, rfl, h₁, hrest⟩ := List.map_eq_cons_iff.1 (Option.some.inj hobs)
    obtain ⟨r₂, rest, rfl, h₂, hrest⟩ := List.map_eq_cons_iff.1 hrest
    obtain rfl := List.map_eq_nil_iff.1 hrest
    obtain ⟨hk₁, ht₁⟩ := Prod.mk.inj h₁
    obtain ⟨hk₂, ht₂⟩ := Prod.mk.inj h₂
    exact ⟨r₁, r₂, hread.trans hrows, hk₁, hk₂, htakes r₁ ht₁, htakes r₂ ht₂⟩

end Drain

/-- **A valid message of 2049 bytes stops the drain.**  The message ends with a letter of two bytes,
and the cut leaves one of them: Postgres refuses the text, the batch ends with the error, and the
event of the other stream is not published. -/
theorem batch_serves_cut :
    Postgres.TakesText Drain.longMessage ∧
    ∃ rows p e, Drain.single.readPage (Postgres.adapter .small) (Drain.refusing Drain.longMessage)
        (Drain.single.begun Drain.postgresTable) = .ok rows ∧
      (Drain.single.asked (Drain.single.start Drain.postgresTable) rows).map PendingRow.rowKey =
        [("acme", 1), ("acme", 2)] ∧
      Drain.single.tryBatch (Postgres.adapter .small) (Drain.refusing Drain.longMessage)
        (Drain.single.begun Drain.postgresTable) = (p, some e) ∧
      p.calls.map PendingRow.rowKey = [("acme", 1)] ∧
      p.store = Drain.postgresTable := by
  obtain ⟨r₁, r₂, hread, hk₁, hk₂, ht₁, ht₂⟩ := Drain.exists_postgresPage Drain.longMessage
  have hpub : (Drain.refusing Drain.longMessage).publish [] r₁.envelope =
      some Drain.longMessage := if_pos (Prod.mk.inj hk₁).2
  have htext : (Postgres.adapter .small).textErr (Drain.longMessage.take 2048) ≠ none :=
    mt Postgres.textErr_adapter.1 Drain.not_takesText_cut
  obtain ⟨e, hstep⟩ := Drain.tryRow_blocked (A := Postgres.adapter .small)
    (p := (Drain.single.begun Drain.postgresTable).turned) ht₁ hpub htext
  refine ⟨Drain.takesText_longMessage, _, _, e, hread, ?_, Drain.tryBatch_blocked hread hstep, ?_,
    ?_⟩
  · rw [Drain.asked_cons_of_taken ht₁, Drain.asked_cons_of_taken ht₂, List.map_cons, List.map_cons,
      hk₁, hk₂]
    rfl
  · exact congrArg (fun k => [k]) hk₁
  · rfl

/-- A short message is recorded, and both streams are served. -/
theorem batch_serves_short : ∃ rows,
    Drain.single.readPage (Postgres.adapter .small) (Drain.refusing [65])
      (Drain.single.begun Drain.postgresTable) = .ok rows ∧
    rows.map PendingRow.rowKey = [("acme", 1), ("acme", 2)] ∧
    Drain.single.Serves (Postgres.adapter .small) (Drain.refusing [65])
      (Drain.single.begun Drain.postgresTable) rows := by
  obtain ⟨r₁, r₂, hread, hk₁, hk₂, ht₁, ht₂⟩ := Drain.exists_postgresPage [65]
  refine ⟨_, hread, by rw [List.map_cons, List.map_cons, hk₁, hk₂]; rfl, ?_⟩
  refine ((batch_serves_iff Drain.single (Drain.refusing [65]) (fun _ => ⟨true, rfl⟩)
    fun _ => rfl).2 .small _ _ hread).2 fun r hr => ?_
  have hshort : r.2 = [65] := by
    obtain ⟨calls, hpub⟩ := Drain.mem_refusals hr
    unfold Drain.refusing Drain.World.quiet at hpub
    dsimp only at hpub
    split_ifs at hpub
    exact (Option.some.inj hpub).symm
  rw [hshort]
  decide +kernel

end EventStore
