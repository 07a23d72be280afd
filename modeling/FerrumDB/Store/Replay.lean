import FerrumDB.Layers

/-!
# Replaying a log

Inserting into a memtable whose byte estimate is exact keeps it exact and never underflows
(`memtableInsert_eq`). Replay buffers a batch until its COMMIT; on a log of closed batches it
rebuilds the memtable that the batches were applied to when they were written (`Replays.write`).
-/

namespace FerrumDB

open OrderedMap FramedLog

variable {s base : Store} {m : Memtable} {log : List WalEntry}

/-- The byte estimate is the footprint of the memtable. -/
def Store.Counted (s : Store) : Prop := s.memtableBytes = total entryFootprint s.data

/-- The store with another memtable, counted, and another sequence number. -/
def Store.holding (base : Store) (m : Memtable) (sequence : UInt64) : Store :=
  { base with data := m, memtableBytes := total entryFootprint m, sequence }

theorem counted_holding (base : Store) (m : Memtable) (sequence : UInt64) :
    (base.holding m sequence).Counted := rfl

/-- **Accounting.** An insertion never underflows and keeps the estimate exact. -/
theorem memtableInsert_eq (h : s.Counted) (key : Bytes) (entry : Entry) :
    s.memtableInsert key entry = .ok (s.holding (s.data.insert key entry) s.sequence) := by
  unfold Store.Counted at h
  unfold Store.memtableInsert Store.holding
  dsimp only
  cases hk : s.data[key]? with
  | none => rw [total_insert_of_none hk, h]
  | some old =>
    have htotal := total_insert_of_some (f := entryFootprint) (v := entry) hk
    have hle := le_total (f := entryFootprint) hk
    dsimp only
    rw [if_neg (by omega), Except.ok.injEq, Store.mk.injEq]
    exact ⟨rfl, by omega, rfl, rfl, rfl, rfl, rfl, rfl⟩

/-! ## Entries -/

theorem op_pendingEntry (key : Bytes) (v : Option Value) (sequence : UInt64) :
    (pendingEntry key v sequence).op = .put ∨ (pendingEntry key v sequence).op = .delete := by
  cases v with
  | none => exact Or.inr rfl
  | some v => exact Or.inl rfl

theorem op_ne_commit {e : WalEntry} (h : isCommit e = false) : e.op ≠ .commit := by
  simpa [isCommit] using h

theorem isCommit_pendingEntry (key : Bytes) (v : Option Value) (sequence : UInt64) :
    isCommit (pendingEntry key v sequence) = false := by
  rcases op_pendingEntry key v sequence with h | h <;> simp [isCommit, h]

@[simp] theorem isCommit_commitEntry (sequence : UInt64) : isCommit (commitEntry sequence) = true := rfl

@[simp] theorem sequence_pendingEntry (key : Bytes) (v : Option Value) (sequence : UInt64) :
    (pendingEntry key v sequence).sequence = sequence := by cases v <;> rfl

/-- Replaying the entry of a write inserts what the write inserts. -/
theorem replayEntry_pendingEntry (h : s.Counted) (key : Bytes) (v : Option Value)
    (sequence : UInt64) : s.replayEntry (pendingEntry key v sequence) =
      .ok (s.holding (s.data.insert key (entryOf v)) (max s.sequence sequence)) := by
  cases v with
  | none =>
    unfold Store.replayEntry
    simp only [pendingEntry, op_createDeleteEntry, bind, Except.bind]
    rw [show (Wal.createDeleteEntry key sequence).key = key from rfl, memtableInsert_eq h]
    rfl
  | some v =>
    unfold Store.replayEntry
    simp only [pendingEntry, op_createPutEntry, bind, Except.bind]
    rw [show (Wal.createPutEntry key v sequence).value = some v.toProto from rfl]
    simp only [Value.fromProto_toProto]
    rw [show (Wal.createPutEntry key v sequence).key = key from rfl, memtableInsert_eq h]
    rfl

/-- The entries log the writes of the batch, whatever their sequence numbers. -/
def Logs (es : List WalEntry) (b : Batch) : Prop :=
  List.Forall₂ (fun e w => ∃ n, e = pendingEntry w.1 w.2 n) es b

theorem logs_nil : Logs [] [] := .nil

theorem logs_batchLog (sequence : UInt64) (b : Batch) : Logs (batchLog sequence b) b := by
  induction b generalizing sequence with
  | nil => exact .nil
  | cons w b ih => exact .cons ⟨_, rfl⟩ (ih _)

theorem Logs.append {es es' : List WalEntry} {b b' : Batch} (h : Logs es b) (h' : Logs es' b') :
    Logs (es ++ es') (b ++ b') := List.rel_append h h'

theorem Logs.unmarked {es : List WalEntry} {b : Batch} (h : Logs es b) :
    ∀ e ∈ es, isCommit e = false := by
  induction h with
  | nil => intro e he; cases he
  | cons hr _ ih =>
    intro e he
    obtain ⟨n, rfl⟩ := hr
    rcases List.mem_cons.1 he with rfl | he
    · exact isCommit_pendingEntry _ _ _
    · exact ih e he

/-- Replaying the entries of writes applies the writes. -/
theorem foldlM_logs {es : List WalEntry} {b : Batch} (hes : Logs es b) (h : s.Counted) :
    es.foldlM Store.replayEntry s =
      .ok (s.holding (applyBatch s.data b) (es.foldl (fun m e => max m e.sequence) s.sequence)) := by
  induction hes generalizing s with
  | nil =>
    unfold Store.Counted at h
    simp only [List.foldlM_nil, List.foldl_nil, applyBatch, Store.holding, ← h]
    rfl
  | cons hr _ ih =>
    obtain ⟨n, rfl⟩ := hr
    rw [List.foldlM_cons, replayEntry_pendingEntry h]
    simp only [bind, Except.bind]
    rw [ih (counted_holding _ _ _), List.foldl_cons, sequence_pendingEntry]
    rfl

theorem holding_self (h : s.Counted) : s.holding s.data s.sequence = s := by
  unfold Store.Counted at h
  unfold Store.holding
  rw [← h]

/-- An entry that can be replayed changes the memtable and the counter only. -/
theorem replayEntry_holding {e : WalEntry} (h : s.Counted) {s' : Store} (hr : s.replayEntry e = .ok s') :
    s' = s.holding s'.data s'.sequence := by
  have hdone : ∀ t : Store, t = s.holding t.data t.sequence →
      { t with sequence := max t.sequence e.sequence } = s' → s' = s.holding s'.data s'.sequence := by
    rintro t ht rfl
    exact congrArg (fun t : Store => { t with sequence := max t.sequence e.sequence }) ht
  have hinsert : ∀ entry, (do
      let t ← s.memtableInsert e.key entry
      return { t with sequence := max t.sequence e.sequence }) = Except.ok s' →
      s' = s.holding s'.data s'.sequence := by
    intro entry hr
    rw [memtableInsert_eq h] at hr
    exact hdone _ rfl (Except.ok.inj hr)
  have hskip : (do
      let t ← (Except.ok s : Except Stop Store)
      return { t with sequence := max t.sequence e.sequence }) = Except.ok s' →
      s' = s.holding s'.data s'.sequence := fun hr => hdone s (holding_self h).symm (Except.ok.inj hr)
  unfold Store.replayEntry at hr
  cases hop : e.op with
  | put =>
    rw [hop] at hr
    cases hv : e.value with
    | none => rw [hv] at hr; exact hskip hr
    | some msg =>
      rw [hv] at hr
      dsimp only at hr
      cases hmsg : Value.fromProto msg with
      | ok value => rw [hmsg] at hr; exact hinsert _ hr
      | error err => rw [hmsg] at hr; cases hr
  | delete => rw [hop] at hr; exact hinsert _ hr
  | commit => rw [hop] at hr; exact hskip hr

theorem foldlM_holding (es : List WalEntry) (h : s.Counted) {s' : Store}
    (hr : es.foldlM Store.replayEntry s = .ok s') : s' = s.holding s'.data s'.sequence := by
  induction es generalizing s with
  | nil =>
    cases hr
    exact (holding_self h).symm
  | cons e es ih =>
    rw [List.foldlM_cons] at hr
    cases hone : s.replayEntry e with
    | error err => rw [hone] at hr; cases hr
    | ok t =>
      rw [hone] at hr
      have ht := replayEntry_holding h hone
      have hcounted : t.Counted := by rw [ht]; exact counted_holding _ _ _
      have hs' := ih hcounted hr
      rw [ht] at hs'
      exact hs'

/-- **Replay of any log** changes the memtable and the counter only. -/
theorem replayEntries_holding (es pending : List WalEntry) (h : s.Counted) {s' : Store}
    (hr : Store.replayEntries es pending s = .ok s') : s' = s.holding s'.data s'.sequence := by
  induction es generalizing pending s with
  | nil =>
    cases hr
    exact (holding_self h).symm
  | cons e es ih =>
    rw [Store.replayEntries] at hr
    cases hop : e.op with
    | commit =>
      rw [hop] at hr
      dsimp only at hr
      cases hbatch : pending.foldlM Store.replayEntry s with
      | error err => rw [hbatch] at hr; cases hr
      | ok t =>
        rw [hbatch] at hr
        have ht := foldlM_holding pending h hbatch
        have hcounted : Store.Counted { t with sequence := max t.sequence e.sequence } := by
          rw [ht]; exact counted_holding _ _ _
        have hs' := ih [] hcounted hr
        rw [ht] at hs'
        exact hs'
    | put => rw [hop] at hr; exact ih _ h hr
    | delete => rw [hop] at hr; exact ih _ h hr

/-! ## Batches -/

/-- Up to its COMMIT, a batch is only buffered. -/
theorem replayEntries_batch {es : List WalEntry} (hes : ∀ e ∈ es, isCommit e = false) {c : WalEntry}
    (hc : c.op = .commit) (rest pending : List WalEntry) (s : Store) :
    Store.replayEntries (es ++ c :: rest) pending s =
      ((pending ++ es).foldlM Store.replayEntry s >>= fun s =>
        Store.replayEntries rest [] { s with sequence := max s.sequence c.sequence }) := by
  induction es generalizing pending with
  | nil =>
    rw [List.nil_append, List.append_nil, Store.replayEntries, hc]
  | cons e es ih =>
    have he := op_ne_commit (hes e (List.mem_cons_self ..))
    have hstep : Store.replayEntries (e :: (es ++ c :: rest)) pending s =
        Store.replayEntries (es ++ c :: rest) (pending ++ [e]) s := by
      rw [Store.replayEntries]
      cases hop : e.op with
      | commit => exact absurd hop he
      | put => rfl
      | delete => rfl
    rw [List.cons_append, hstep, ih (fun e' he' => hes e' (List.mem_cons_of_mem _ he')),
      List.append_assoc, List.singleton_append]

/-- After a COMMIT, replay goes on with an empty buffer. -/
theorem replayEntries_append (es : List WalEntry) {c : WalEntry} (hc : c.op = .commit)
    (rest pending : List WalEntry) (s : Store) :
    Store.replayEntries (es ++ c :: rest) pending s =
      (Store.replayEntries (es ++ [c]) pending s >>= Store.replayEntries rest []) := by
  induction es generalizing pending s with
  | nil =>
    rw [List.nil_append, List.nil_append, Store.replayEntries, Store.replayEntries, hc]
    dsimp only
    cases pending.foldlM Store.replayEntry s <;> rfl
  | cons e es ih =>
    rw [List.cons_append, List.cons_append, Store.replayEntries, Store.replayEntries]
    cases hop : e.op with
    | commit =>
      dsimp only
      cases pending.foldlM Store.replayEntry s with
      | error err => rfl
      | ok s' => exact ih _ _
    | put => exact ih _ _
    | delete => exact ih _ _

/-- A closed log is empty or ends with a COMMIT. -/
theorem closed_cases (h : Closed isCommit log) :
    log = [] ∨ ∃ es c, log = es ++ [c] ∧ c.op = .commit := by
  unfold Closed committed at h
  rw [List.rdropWhile_eq_self_iff] at h
  rcases List.eq_nil_or_concat' log with rfl | ⟨es, c, rfl⟩
  · exact Or.inl rfl
  · refine Or.inr ⟨es, c, rfl, ?_⟩
    have := h (by simp)
    simpa [isCommit] using this

theorem replayEntries_closed_append (h : Closed isCommit log) (rest : List WalEntry) (s : Store) :
    Store.replayEntries (log ++ rest) [] s =
      (Store.replayEntries log [] s >>= Store.replayEntries rest []) := by
  rcases closed_cases h with rfl | ⟨es, c, rfl, hc⟩
  · rfl
  · rw [List.append_assoc, List.singleton_append]
    exact replayEntries_append es hc rest [] s

/-! ## Logs -/

/-- Replaying `log` into an empty memtable gives `m`. -/
def Replays (log : List WalEntry) (m : Memtable) : Prop :=
  ∀ base : Store, Store.replayEntries log [] (base.holding ∅ 0) =
    .ok (base.holding m (lastSequence log))

theorem replays_nil : Replays [] ∅ := fun _ => rfl

theorem foldl_max_append (log log' : List WalEntry) (s : UInt64) :
    (log ++ log').foldl (fun m e => max m e.sequence) s =
      log'.foldl (fun m e => max m e.sequence) (log.foldl (fun m e => max m e.sequence) s) :=
  List.foldl_append

/-- **One more batch.** Replay applies the writes that the entries up to the next COMMIT log. -/
theorem Replays.write (h : Replays log m) (hclosed : Closed isCommit log) {es : List WalEntry} {b : Batch}
    (hes : Logs es b) (sequence : UInt64) :
    Replays (log ++ (es ++ [commitEntry sequence])) (applyBatch m b) := by
  intro base
  rw [replayEntries_closed_append hclosed, h base]
  simp only [bind, Except.bind]
  rw [replayEntries_batch hes.unmarked (op_commitEntry sequence), List.nil_append,
    foldlM_logs hes (counted_holding _ _ _)]
  simp only [bind, Except.bind, Store.replayEntries, Except.ok.injEq]
  unfold lastSequence
  rw [foldl_max_append, foldl_max_append]
  rfl

theorem closed_write (log es : List WalEntry) (sequence : UInt64) :
    Closed isCommit (log ++ (es ++ [commitEntry sequence])) := by
  rw [← List.append_assoc]
  exact closed_concat isCommit (isCommit_commitEntry sequence) _

end FerrumDB
