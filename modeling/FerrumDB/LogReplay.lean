import FerrumDB.Refinement
import FerrumDB.Store.Crash
import FerrumDB.Store.Keeps

/-!
# The memtable is the replay of the log

`Mirrors p log n s d` says that the store's memtable is the replay of `log`, which is what `wal.log`
holds, and that its counter is `n`, the last sequence number of `log` if there is one. Every operation
keeps this, whatever the tables hold and even if a read of a table fails (`does_op_mirrors`), and so does
reopening, also after a crash between the fsync of a table and the clearing of the log. It follows that
in every state reached without I/O failures, replaying the log gives the memtable
(`memtable_is_replay`).
-/

namespace FerrumDB

open CrashLogic FramedLog

variable {env : Env} {s : Store} {d : Disk} {p : Prost} {dir : String} {log junk : List WalEntry}
  {t : Bytes} {data : Memtable} {n : UInt64}

/-! ## Sequence numbers of a log -/

theorem max_eq_of_le {a b : UInt64} (h : a ≤ b) : max a b = b := if_pos h

theorem le_batchEnd (b : Batch) (h : n.toNat + b.length < 2 ^ 64) : n ≤ batchEnd n b := by
  rw [UInt64.le_iff_toNat_le, toNat_batchEnd b h]
  omega

/-- The entries of a batch raise the last sequence number to the end of the batch at most. -/
theorem foldl_max_batchLog_le (b : Batch) {m : UInt64} (hm : m ≤ n) (h : n.toNat + b.length < 2 ^ 64) :
    (batchLog n b).foldl (fun s e => max s e.sequence) m ≤ batchEnd n b := by
  induction b generalizing n m with
  | nil => exact hm
  | cons e b ih =>
    rw [List.length_cons] at h
    have hsucc := toNat_succ (n := n) (by omega)
    have hle : m ≤ n + 1 := by
      rw [UInt64.le_iff_toNat_le] at hm ⊢
      omega
    rw [batchLog, List.foldl_cons, sequence_pendingEntry, max_eq_of_le hle]
    exact ih (UInt64.le_refl _) (by omega)

/-- The last sequence number of a log after a batch. -/
theorem lastSequence_write (b : Batch) (hlast : lastSequence log ≤ n) (h : n.toNat + b.length < 2 ^ 64) :
    lastSequence (log ++ (batchLog n b ++ [commitEntry (batchEnd n b)])) = batchEnd n b := by
  unfold lastSequence at hlast ⊢
  rw [foldl_max_append, foldl_max_append, List.foldl_cons, List.foldl_nil]
  exact max_eq_of_le (foldl_max_batchLog_le b hlast h)

/-! ## The invariant -/

/-- The memtable is the replay of the log file, which holds `log`; the sequence counter is `n`, that of
the log if it holds anything; and no table handle is on the log. -/
structure Mirrors (p : Prost) (log : List WalEntry) (n : UInt64) (s : Store) (d : Disk) : Prop extends
    s.OnLog d, LogStored p d log s.data [] [] where
  counted : s.Counted
  sequence : s.sequence = n
  last : log ≠ [] → lastSequence log = n
  paths : ∀ t ∈ s.sstables, t.path ≠ walName

theorem offTables_mirrors : OffTables walName (Mirrors p log n) where
  name := offTableNames_walName
  handles _ _ _ _ hpaths h := { h with paths := hpaths }
  files _ _ _ hd h := { h with
    toOnLog := h.toOnLog.frame hd
    toLogStored := h.toLogStored.frame hd }
  paths _ _ h := h.paths

theorem Mirrors.lastSequence_le (h : Mirrors p log n s d) : lastSequence log ≤ n := by
  by_cases hnil : log = []
  · rw [hnil]
    exact UInt64.le_iff_toNat_le.2 (Nat.zero_le _)
  · rw [h.last hnil]
    exact UInt64.le_refl n

/-- The store after a batch has been logged and applied. -/
theorem Mirrors.write (h : Mirrors p log n s d) (b : Batch) (hroom : s.sequence.toNat + b.length < 2 ^ 64)
    {w' : Wal} {d' : Disk} {bs : Bytes} (hw : w'.filePath = walName) (hlive : w'.Live d')
    (hbs : bs = d.bytesOf walName ++
      logBytes p (batchLog s.sequence b ++ [commitEntry (batchEnd s.sequence b)]))
    (hb : d.Becomes walName bs bs.length d') :
    Mirrors p (log ++ (batchLog n b ++ [commitEntry (batchEnd n b)])) (batchEnd n b)
      (Store.holding { s with sequence := batchEnd s.sequence b, wal := w' } (applyBatch s.data b)
        (batchEnd s.sequence b)) d' := by
  have hseq := h.sequence
  rw [hseq] at hroom hbs
  have hbytes : bs = logBytes p (log ++ (batchLog n b ++ [commitEntry (batchEnd n b)])) := by
    rw [hbs, h.bytes, List.append_nil, List.append_nil, ← logBytes_append]
  exact {
    path := hw
    live := hlive
    bytes := by rw [hb.bytes, hbytes, List.append_nil, List.append_nil]
    synced := by rw [hb.synced, hbytes]
    closed := closed_write _ _ _
    unmarked := nofun
    torn := torn_nil _ _
    replays := h.replays.write h.closed (logs_batchLog n b) _
    counted := counted_holding _ _ _
    sequence := by rw [hseq]; rfl
    last := fun _ => lastSequence_write b h.lastSequence_le hroom
    paths := h.paths }

/-- The only fault is a crash at the truncation that clears the log. -/
def Env.CrashesAtClear (env : Env) : Prop :=
  ∀ n c f, env n c = some f → c = ⟨.openTruncate, walName⟩ ∧ f.stop = .crash

theorem Env.quiet_crashesAtClear : Env.quiet.CrashesAtClear := nofun

theorem Env.CrashesAtClear.crash {P : IoCall → Prop} {e : Stop} (henv : env.CrashesAtClear)
    (he : env.Faults P e) : e = .crash ∧ P ⟨.openTruncate, walName⟩ := by
  obtain ⟨k, c, f, hP, hf, rfl⟩ := he
  obtain ⟨rfl, hstop⟩ := henv k c f hf
  exact ⟨hstop, hP⟩

/-- What a stop leaves: after a crash a log that replays, after an error that is not for want of room
a store that mirrors its log. -/
structure StopsMirrored (p : Prost) (e : Stop) (s : Store) (d : Disk) : Prop where
  crash : e = .crash → ∃ log data, LogStored p d log data [] []
  error : ∀ x, e = .err x → x ≠ .ioError fileTooLarge → ∃ log n, Mirrors p log n s d

theorem Mirrors.stops (h : Mirrors p log n s d) (e : Stop) : StopsMirrored p e s d :=
  ⟨fun _ => ⟨log, s.data, h.toLogStored⟩, fun _ _ _ => ⟨log, n, h⟩⟩

theorem stopsMirrored_panic : StopsMirrored p .panic s d := ⟨nofun, nofun⟩

/-! ## Flushes -/

/-- An emptied log. -/
theorem mirrors_nil (hpath : s.wal.filePath = walName) (hlive : s.wal.Live d) (hb : d.bytesOf walName = [])
    (hdata : s.data = ∅) (hcount : s.memtableBytes = 0) (hseq : s.sequence = n)
    (hpaths : ∀ t ∈ s.sstables, t.path ≠ walName) : Mirrors p [] n s d :=
  { logStored_nil (p := p) hb with
    path := hpath
    live := hlive
    replays := by rw [hdata]; exact replays_nil
    counted := by
      unfold Store.Counted
      rw [hcount, hdata, OrderedMap.total_empty]
    sequence := hseq
    last := fun h => absurd rfl h
    paths := hpaths }

theorem does_flushTable_mirrors (h : Mirrors p log n s d) (henv : env.CrashesAtClear) :
    Does env (Store.flushTable p) s d (fun _ s' d' => Mirrors p [] n s' d') (StopsMirrored p) := by
  unfold Store.flushTable
  refine .withSelf ?_
  have hflush : Keeps (fun s' d' => s' = s ∧ Mirrors p log n s' d')
      (SsTable.flush p (sstName s.nextSstableId) s.data.toList) fun t => t.path = sstName s.nextSstableId :=
    keeps_sstFlush (fun a d d' hd h =>
      ⟨h.1, offTables_mirrors.ignores (sstName_ne_walName _) a d d' hd h.2⟩) _
  refine Does.bind ((hflush env s d ⟨rfl, h⟩).mono (fun t s' d' ht => ?_) fun e _ _ he => he.2.stops e)
  obtain ⟨⟨rfl, h'⟩, hpath⟩ := ht
  have hpaths : ∀ u ∈ t :: s'.sstables, u.path ≠ walName := by
    intro u hu
    rcases List.mem_cons.1 hu with rfl | hu
    · rw [hpath]
      exact sstName_ne_walName _
    · exact h'.paths u hu
  unfold succU64
  split_ifs
  · refine Does.bind (.pure (Does.bind (.setSelf (Does.onField (does_clear (fun d'' hb => ?_)
      (fun e he => ?_) fun e d'' he => ?_)))))
    · -- cleared
      have hb : d'.Becomes walName [] 0 d'' := by rw [← h'.path]; exact hb
      exact mirrors_nil h'.path nofun hb.bytes rfl rfl h'.sequence hpaths
    · -- stopped before the truncation: the log is still there
      refine ⟨fun _ => ⟨log, s'.data, h'.toLogStored⟩, fun x hx => ?_⟩
      rw [(henv.crash he).1] at hx
      cases hx
    · have hsync := (henv.crash he).2
      cases hsync
  · exact Does.bind (.throw stopsMirrored_panic)

theorem does_flush_mirrors (h : Mirrors p log n s d) (henv : env.CrashesAtClear) :
    Does env (Store.flush p) s d (fun _ s' d' => ∃ log', Mirrors p log' n s' d') (StopsMirrored p) := by
  unfold Store.flush
  refine .withSelf ?_
  split_ifs
  · exact .pure ⟨log, h⟩
  · refine (does_flushTable_mirrors h henv).seq fun _ s' d' h' => ?_
    exact (keeps_maybeCompact offTables_mirrors env s' d' h').mono (fun _ _ _ h'' => ⟨[], h''.1⟩)
      fun e _ _ he => he.stops e

theorem does_maybeFlush_mirrors (h : Mirrors p log n s d) (henv : env.CrashesAtClear) :
    Does env (Store.maybeFlush p) s d (fun _ s' d' => ∃ log', Mirrors p log' n s' d') (StopsMirrored p) := by
  unfold Store.maybeFlush
  refine .withSelf ?_
  split_ifs
  · exact does_flush_mirrors h henv
  · exact .pure ⟨log, h⟩

/-! ## Operations -/

/-- An operation that returned left a store that mirrors its log, and took the sequence numbers after
`n` for its entries. -/
structure Advances (p : Prost) (op : Op) (n : UInt64) (s : Store) (d : Disk) : Prop where
  mirrors : ∃ log, Mirrors p log (batchEnd n (op.batch.getD [])) s d
  room : n.toNat + (op.batch.getD []).length < 2 ^ 64

/-- **A write**, when the log is only hit by a crash that clears it. -/
theorem does_writeBatch_mirrors (h : Mirrors p log n s d) (henv : env.CrashesAtClear) (b : Batch) :
    Does env (Store.writeBatch p b) s d
      (fun _ s' d' => n.toNat + b.length < 2 ^ 64 ∧ ∃ log', Mirrors p log' (batchEnd n b) s' d')
      (StopsMirrored p) := by
  refine does_writeBatch_log b h.toOnLog h.counted (fun hroom w' d' bs hw' hlive hbs hb => ?_)
    (fun e w' d' m u _ _ _ hcut => ?_) (Or.inr fun _ _ => stopsMirrored_panic)
  · have hwritten := h.write b hroom hw' hlive hbs hb
    rw [h.sequence] at hroom
    refine (does_maybeFlush_mirrors hwritten henv).mono (fun _ s'' d'' hkept => ?_) fun _ _ _ he => he
    exact ⟨hroom, hkept⟩
  · -- a write to the log stops only for want of room
    have hroom : e = .err (.ioError fileTooLarge) := by
      cases hcut with
      | sync _ he =>
        have hsync := (henv.crash he).2
        cases hsync
      | frame es₁ es₂ x pre _ _ hcut =>
        rcases hcut.cause with ⟨he, -⟩ | ⟨k, f, hf, -, -⟩ | ⟨-, he⟩
        · have happ := (henv.crash he).2
          cases happ
        · cases (henv k _ f hf).1
        · exact he
    subst hroom
    exact ⟨nofun, fun x hx hne => absurd (Stop.err.inj hx).symm hne⟩

/-- **One operation** keeps the memtable the replay of the log. -/
theorem does_op_mirrors (h : Mirrors p log n s d) (henv : env.CrashesAtClear) {op : Op}
    (hopen : op ≠ .reopen) :
    Does env (op.run p dir) s d (fun _ s' d' => Advances p op n s' d') (StopsMirrored p) := by
  cases hb : op.batch with
  | some b =>
    refine does_batch_op hb ((does_writeBatch_mirrors h henv b).mono (fun _ s' d' hw => ?_)
      fun _ _ _ he => he)
    constructor
    · rw [hb]
      exact hw.2
    · rw [hb]
      exact hw.1
  | none =>
    have hkept : ∀ s' d', (∃ log', Mirrors p log' n s' d') → Advances p op n s' d' := by
      intro s' d' hm
      constructor
      · rw [hb]
        exact hm
      · rw [hb]
        exact n.toNat_lt
    cases op with
    | setValue key value => cases hb
    | deleteValue key => cases hb
    | reopen => exact absurd rfl hopen
    | getValue key =>
      refine Does.bind ((keeps_getValue offTables_mirrors key env s d h).mono (fun _ s' d' hm => ?_)
        fun e _ _ he => he.stops e)
      exact .pure (hkept s' d' ⟨log, hm.1⟩)
    | commit calls =>
      have hemp : (buffered calls).pending.isEmpty = true := by
        unfold Op.batch at hb
        dsimp only at hb
        split at hb
        · next hemp => exact hemp
        · cases hb
      show Does env (Transaction.commit p (buffered calls)) _ _ _ _
      rw [commit_eq, if_pos hemp]
      exact .pure (hkept s d ⟨log, h⟩)
    | rollback calls => exact .pure (hkept s d ⟨log, h⟩)
    | flush => exact (does_flush_mirrors h henv).mono (fun _ s' d' hm => hkept s' d' hm) fun _ _ _ he => he
    | compact =>
      exact (keeps_compact offTables_mirrors env s d h).mono (fun _ s' d' hm => hkept s' d' ⟨log, hm.1⟩)
        fun e _ _ he => he.stops e
    | setMemtableBudget bytes => exact fun _ => ⟨rfl, hkept _ d ⟨log, { h with }⟩⟩

/-! ## Opening -/

/-- A store that has not replayed its log yet. -/
structure Loading (p : Prost) (log : List WalEntry) (data : Memtable) (junk : List WalEntry) (t : Bytes)
    (s : Store) (d : Disk) : Prop extends s.OnLog d, LogStored p d log data junk t where
  empty : s = s.holding ∅ 0
  paths : ∀ t ∈ s.sstables, t.path ≠ walName

theorem offTables_loading : OffTables walName (Loading p log data junk t) where
  name := offTableNames_walName
  handles _ _ hs next hpaths h := { h with
    empty := congrArg (fun s : Store => { s with sstables := hs, nextSstableId := next }) h.empty
    paths := hpaths }
  files _ _ _ hd h := { h with
    toOnLog := h.toOnLog.frame hd
    toLogStored := h.toLogStored.frame hd }
  paths _ _ h := h.paths

/-- **Opening** a directory whose log replays to `data`, whatever its tables hold: if it succeeds, the
memtable is that replay. -/
theorem does_openWithDir_mirrors (hp : p.Lawful) (h : LogStored p d log data junk t)
    (hfree : d.locked = false) :
    Does Env.quiet (Store.openWithDir p dir) s d
      (fun _ s' d' => Mirrors p log (lastSequence log) s' d') fun _ _ _ => True := by
  have hlog : LogStored p d.lockedBy log data junk t := h.frame (d.files_lockedBy (by decide))
  have hload : Loading p log data junk t (Store.fresh dir ⟨walName, false⟩) d.lockedBy := { hlog with
    path := rfl
    live := nofun
    empty := by
      unfold Store.holding
      rw [OrderedMap.total_empty]
      rfl
    paths := nofun }
  refine does_openWithDir_start (Env.quiet_spares _) hfree ?_
  refine Does.bind ((keeps_loadSstables offTables_loading Env.quiet _ _ hload).mono (fun _ s' d' h' => ?_)
    fun _ _ _ _ => trivial)
  obtain ⟨h', -⟩ := h'
  refine does_replayWal hp (Env.quiet_spares _) h'.toLogStored h'.toOnLog h'.empty
    fun w' d'' hw' hlive hb => ?_
  exact {
    path := hw'
    live := hlive
    bytes := by rw [hb.bytes, List.append_nil, List.append_nil]
    synced := by rw [hb.synced]
    closed := h'.closed
    unmarked := nofun
    torn := torn_nil _ _
    replays := h'.replays
    counted := counted_holding _ _ _
    sequence := rfl
    last := fun _ => rfl
    paths := h'.paths }

/-! ## Reachable states -/

/-- The states reached without I/O failures, from an empty directory. An operation may still fail, on a
table that cannot be read; but no write is refused for want of room. The process may stop between the
fsync of a table and the clearing of the log, and the directory be opened again. -/
inductive Reached (p : Prost) (dir : String) : Store → Disk → Prop
  | opened {s₀ : Store} {k : ℕ} {x : Mem Store}
      (run : Store.openWithDir p dir ⟨s₀, Disk.empty, Env.quiet, k⟩ = .ok () x) :
      Reached p dir x.self x.disk
  | returned {s : Store} {d : Disk} {op : Op} {k : ℕ} {x : Mem Store} (before : Reached p dir s d)
      (run : op.run p dir ⟨s, d, Env.quiet, k⟩ = .ok () x) : Reached p dir x.self x.disk
  | failed {s : Store} {d : Disk} {op : Op} {k : ℕ} {e : AppError} {x : Mem Store}
      (before : Reached p dir s d) (session : op ≠ .reopen)
      (run : op.run p dir ⟨s, d, Env.quiet, k⟩ = .error (.err e) x) (room : e ≠ .ioError fileTooLarge) :
      Reached p dir x.self x.disk
  | crashed {s s₀ : Store} {d : Disk} {op : Op} {env : Env} {k l : ℕ} {x y : Mem Store}
      (before : Reached p dir s d) (session : op ≠ .reopen) (clear : env.CrashesAtClear)
      (run : op.run p dir ⟨s, d, env, k⟩ = .error .crash x) (keep : FileName → ℕ)
      (reopen : Store.openWithDir p dir ⟨s₀, x.disk.crash keep, Env.quiet, l⟩ = .ok () y) :
      Reached p dir y.self y.disk

/-- **The invariant** of the reachable states. -/
theorem Reached.mirrors (hp : p.Lawful) (h : Reached p dir s d) : ∃ log n, Mirrors p log n s d := by
  induction h with
  | @opened s₀ k x run =>
    have hopen : Does Env.quiet (Store.openWithDir p dir) s₀ Disk.empty _ _ :=
      does_openWithDir_mirrors hp (stored_empty (p := p)).toLogStored rfl
    exact ⟨[], _, hopen.of_ok run⟩
  | @returned s d op k x _ run ih =>
    obtain ⟨log, n, hm⟩ := ih
    by_cases hopen : op = .reopen
    · subst hopen
      have hdrop : Does Env.quiet Store.drop s d (fun _ s' d' => s' = s ∧ d' = { d with locked := false })
          fun _ _ _ => True := fun _ => ⟨rfl, rfl, rfl⟩
      have hreopen : Does Env.quiet (Op.run p dir .reopen) s d
          (fun _ s' d' => Mirrors p log (lastSequence log) s' d') fun _ _ _ => True := by
        refine hdrop.seq fun _ s' d' hd => ?_
        obtain ⟨rfl, rfl⟩ := hd
        exact does_openWithDir_mirrors hp (hm.toLogStored.frame rfl) rfl
      exact ⟨log, _, hreopen.of_ok run⟩
    · have hop : Does Env.quiet (op.run p dir) s d _ _ :=
        does_op_mirrors hm Env.quiet_crashesAtClear hopen
      obtain ⟨log', hmirrors⟩ := (hop.of_ok run).mirrors
      exact ⟨log', _, hmirrors⟩
  | @failed s d op k e x _ hopen run room ih =>
    obtain ⟨log, n, hm⟩ := ih
    have hop : Does Env.quiet (op.run p dir) s d _ _ := does_op_mirrors hm Env.quiet_crashesAtClear hopen
    exact (hop.of_error run).error e rfl room
  | @crashed s s₀ d op env k l x y _ hopen clear run keep reopen ih =>
    obtain ⟨log, n, hm⟩ := ih
    have hop : Does env (op.run p dir) s d _ _ := does_op_mirrors hm clear hopen
    obtain ⟨log', data, hstored⟩ := (hop.of_error run).crash rfl
    obtain ⟨junk, t, hcrashed⟩ := hstored.crash keep
    have hreopen : Does Env.quiet (Store.openWithDir p dir) s₀ _ _ _ :=
      does_openWithDir_mirrors hp hcrashed rfl
    exact ⟨log', _, hreopen.of_ok reopen⟩

/-- The log parses, and replaying it into an empty memtable gives the memtable of the store with its
byte estimate; and its sequence number, if anything is committed in the log. -/
def MemtableIsReplay (p : Prost) (dir : String) (s : Store) (d : Disk) : Prop :=
  ∃ entries committedCount committedEnd,
    parseBuffer p (d.bytesOf walName) = .ok (entries, committedCount, committedEnd) ∧
    Returns (Store.replayWal p) (Store.fresh dir ⟨walName, false⟩) d fun _ r _ =>
      r.data = s.data ∧ r.memtableBytes = s.memtableBytes ∧
      (committedCount ≠ 0 → r.sequence = s.sequence)

/-- **The memtable is exactly the replay of the log**, in every state reached without I/O failures. -/
theorem memtable_is_replay (hp : p.Lawful) (h : Reached p dir s d) : MemtableIsReplay p dir s d := by
  obtain ⟨log, n, hm⟩ := h.mirrors hp
  have hbytes : d.bytesOf walName = logBytes p log ++ [] := by
    rw [hm.bytes, List.append_nil log]
  have hlen := d.bytesOf_length_le walName
  rw [hbytes] at hlen
  have hparse := parseBuffer_frames hp (torn_nil p.encodeEntry maxVecLen) hlen
  have hclosed : committedPart log = log := hm.closed
  rw [hclosed, ← hbytes] at hparse
  refine ⟨_, _, _, hparse, ?_⟩
  refine does_replayWal hp (Env.quiet_spares _) hm.toLogStored ⟨rfl, fun hopen => (by cases hopen)⟩ ?_
    fun w' d' _ _ _ => ⟨rfl, hm.counted.symm, fun hne => ?_⟩
  · unfold Store.holding
    rw [OrderedMap.total_empty]
    rfl
  · have hnil : log ≠ [] := by
      rintro rfl
      exact hne rfl
    exact (hm.last hnil).trans hm.sequence.symm

/-- The process stops when it is about to truncate the log. -/
def Env.stopsAtClear : Env := fun _ c =>
  if c = ⟨.openTruncate, walName⟩ then some (.crash 0) else none

theorem Env.stopsAtClear_crashesAtClear : Env.stopsAtClear.CrashesAtClear := by
  intro n c f hf
  unfold Env.stopsAtClear at hf
  split at hf
  · next hc =>
    cases hf
    exact ⟨hc, rfl⟩
  · cases hf

set_option synthInstance.maxSize 1000 in
/-- A put, a flush stopped before it clears the log, and a reopen: the put is in a table and in the
log. -/
theorem memtable_is_replay_crash : ∃ s d, Reached Prost.wire "db" s d ∧ s.sstables.length = 1 ∧
    s.data.toList = [([1], .value (.integer 5))] ∧ MemtableIsReplay Prost.wire "db" s d := by
  have hruns : wp (Store.openWithDir Prost.wire "db")
      ⟨Store.fresh "db" ⟨walName, false⟩, Disk.empty, Env.quiet, 0⟩
      (fun _ x => wp ((Op.setValue [1] (.integer 5)).run Prost.wire "db") ⟨x.self, x.disk, Env.quiet, 0⟩
        (fun _ y => wp (Op.flush.run Prost.wire "db") ⟨y.self, y.disk, Env.stopsAtClear, 0⟩ (fun _ _ => False)
          fun e z => e = .crash ∧
            wp (Store.openWithDir Prost.wire "db")
              ⟨Store.fresh "db" ⟨walName, false⟩, z.disk.crash fun _ => 0, Env.quiet, 0⟩
              (fun _ w => w.self.sstables.length = 1 ∧ w.self.data.toList = [([1], .value (.integer 5))])
              fun _ _ => False)
        fun _ _ => False)
      fun _ _ => False := by decide +kernel
  obtain ⟨_, x, hopen, hruns⟩ := hruns.returns
  obtain ⟨_, y, hset, hruns⟩ := hruns.returns
  obtain ⟨_, z, hflush, rfl, hruns⟩ := hruns.stops
  obtain ⟨_, w, hreopen, hlen, hdata⟩ := hruns.returns
  have hsession : Op.flush ≠ .reopen := nofun
  have hreached : Reached Prost.wire "db" w.self w.disk :=
    ((Reached.opened hopen).returned hset).crashed hsession Env.stopsAtClear_crashesAtClear hflush _ hreopen
  exact ⟨_, _, hreached, hlen, hdata, memtable_is_replay wire_lawful hreached⟩

end FerrumDB
