import FerrumDB.Store.LockFile
import FerrumDB.Operations
import FerrumDB.Wire

/-!
# Memory accounting

The byte estimate of the memtable is kept step by step: an insertion adds and subtracts, a flush resets
it. That it is exact is a steady assertion (`steady_accounted`), so it holds in every state of every run,
whatever calls fail and whatever the directories that are opened hold. Then no insertion underflows, an
acknowledged write leaves the memtable below its budget or flushed, and a flush leaves no more than
`MAX_SSTABLES` tables (`memory_accounted`).
-/

namespace FerrumDB

open CrashLogic OrderedMap

variable {α : Type} {env : Env} {s : Store} {d : Disk} {p : Prost} {dir : String} {budget : ℕ}

/-! ## Runs -/

/-- From `x` the program returns or stops, and leaves `y`. -/
def Leaves (c : Prog Store α) (x y : Mem Store) : Prop := (∃ r, c x = .ok r y) ∨ ∃ e, c x = .error e y

/-- The states of runs: an opening of any directory, and then operations and scans, any call of which may
fail or be the last one. A reopening opens what it finds. -/
inductive StoreRun (p : Prost) (dir : String) : Store → Disk → Prop
  | opened {s₀ : Store} {d : Disk} {env : Env} {n : ℕ} {x : Mem Store}
      (run : Store.openWithDir p dir ⟨s₀, d, env, n⟩ = .ok () x) : StoreRun p dir x.self x.disk
  | stepped {s : Store} {d : Disk} {op : Op} {env : Env} {n : ℕ} {x : Mem Store}
      (before : StoreRun p dir s d) (session : op ≠ .reopen) (run : Leaves (op.run p dir) ⟨s, d, env, n⟩ x) :
      StoreRun p dir x.self x.disk
  | scanned {s : Store} {d : Disk} {lo hi : Bound} {env : Env} {n : ℕ} {x : Mem Store}
      (before : StoreRun p dir s d) (run : Leaves (Store.scanRange p lo hi) ⟨s, d, env, n⟩ x) :
      StoreRun p dir x.self x.disk

theorem Keeps.leaves {I : Store → Disk → Prop} {c : Prog Store α} (h : Keeps I c) (hs : I s d) {n : ℕ}
    {x : Mem Store} (hrun : Leaves c ⟨s, d, env, n⟩ x) : I x.self x.disk := by
  rcases hrun with ⟨r, hok⟩ | ⟨e, herr⟩
  · exact ((h env s d hs).of_ok hok).1
  · exact (h env s d hs).of_error herr

/-! ## The estimate -/

/-- The estimate is exact, and the budget is `budget`. -/
structure Accounted (budget : ℕ) (s : Store) : Prop extends s.OffLock where
  counted : s.Counted
  budget : s.memtableMaxBytes = budget

theorem steady_accounted : Steady "LOCK" fun s _ => Accounted budget s where
  name := offTableNames_lock
  handles _ _ _ _ hpaths h := ⟨⟨h.wal, hpaths⟩, h.counted, h.budget⟩
  files _ _ _ _ h := h
  paths _ _ h := h.paths
  wal s := {
    path := fun _ _ _ _ _ _ _ h => h
    file := fun _ _ _ h => ⟨⟨h.wal, h.paths⟩, h.counted, h.budget⟩ }
  sequence _ _ _ h := ⟨⟨h.wal, h.paths⟩, h.counted, h.budget⟩
  insert s s' _ key entry hins h := by
    rw [memtableInsert_eq h.counted] at hins
    cases hins
    exact ⟨⟨h.wal, h.paths⟩, counted_holding _ _ _, h.budget⟩
  clear _ _ h := ⟨⟨h.wal, h.paths⟩, total_empty.symm, h.budget⟩

/-- A call changes the disk at most. -/
theorem keeps_ioCall {σ : Type} {P : σ → Prop} {c : IoCall} {torn : TornEffect}
    {act : Disk → Except String α × Disk} : Keeps (fun a _ => P a) (ioCall c torn act) := by
  intro env a d ha
  refine .ioCall ?_ fun _ _ _ => ha
  obtain ⟨r, d'⟩ := act d
  cases r with
  | ok r => exact ⟨ha, trivial⟩
  | error msg => exact ha

theorem keeps_flock {σ : Type} {P : σ → Prop} : Keeps (fun a _ => P a) flock := by
  intro env a d ha clock
  have hlock : Keeps (fun a _ => P a)
      (ioCall ⟨.flock, "LOCK"⟩ noEffect fun d => (.ok (!d.locked), { d with locked := true })) := keeps_ioCall
  have hcall := hlock env a d ha clock
  unfold CrashLogic.wp flock at *
  cases hr : ioCall ⟨.flock, "LOCK"⟩ noEffect (fun d => (.ok (!d.locked), { d with locked := true }))
      (⟨a, d, env, clock⟩ : Mem σ) with
  | ok b s' =>
    rw [hr] at hcall
    exact hcall
  | error e s' =>
    rw [hr] at hcall
    cases e with
    | err e => exact ⟨hcall.1, hcall.2, trivial⟩
    | panic => exact hcall
    | crash => exact hcall

/-- Whatever a call comes to, the program goes on from there. -/
theorem Does.after {σ β : Type} {a : σ} {Q : α → σ → Disk → Prop} {c : Prog σ β} {f : β → Prog σ α}
    {R : β → Prop} (hc : Keeps (fun _ _ => True) c R) (hf : ∀ r a' d', Does env (f r) a' d' Q fun _ _ _ => True) :
    Does env (c >>= f) a d Q fun _ _ _ => True :=
  Does.seq (hc env a d trivial) fun r a' d' _ => hf r a' d'

/-- **Opening**, whatever the directory holds, starts with an exact estimate. -/
theorem does_openWithDir_accounted : Does env (Store.openWithDir p dir) s d
    (fun _ s' _ => Accounted DEFAULT_MEMTABLE_MAX_BYTES s') fun _ _ _ => True := by
  have hload : Keeps (fun t _ => Accounted DEFAULT_MEMTABLE_MAX_BYTES t) (do
      Store.loadSstables
      Store.replayWal p) :=
    (keeps_loadSstables steady_accounted.toOffTables).bind fun _ => keeps_replayWal steady_accounted
  have hpath : Keeps (fun _ _ => True) (Wal.withPath walName : Prog Store Wal) fun w => w = ⟨walName, false⟩ := by
    unfold Wal.withPath
    exact (Keeps.ignoreErr keeps_createDirAll).bind fun _ => .pure rfl
  rw [openWithDir_eq]
  refine .after keeps_createDirAll fun _ s' d' => .after keeps_ioCall fun _ s' d' => ?_
  refine .after keeps_flock fun b s' d' => ?_
  cases b with
  | false => exact .throw trivial
  | true =>
    refine .dropOnStop (Does.seq (hpath env s' d' trivial) fun w t d₁ hw => ?_)
    obtain ⟨-, rfl⟩ := hw
    have hfresh : Accounted DEFAULT_MEMTABLE_MAX_BYTES (Store.fresh dir ⟨walName, false⟩) :=
      ⟨⟨rfl, nofun⟩, total_empty.symm, rfl⟩
    refine Does.bind (.setSelf ((hload env _ d₁ hfresh).mono (fun _ _ _ h => h.1) fun _ _ _ _ => trivial))

/-- An operation keeps the estimate exact, and the budget unless it sets it. -/
theorem keeps_op {op : Op} (hopen : op ≠ .reopen) (hset : ∀ bytes, op ≠ .setMemtableBudget bytes) :
    Keeps (fun s _ => Accounted budget s) (op.run p dir) := by
  cases op with
  | setValue key value => exact (keeps_setValue steady_accounted key value).bind fun _ => .pure trivial
  | deleteValue key => exact (keeps_deleteValue steady_accounted key).bind fun _ => .pure trivial
  | getValue key => exact (keeps_getValue steady_accounted.toOffTables key).bind fun _ => .pure trivial
  | commit calls => exact keeps_commit steady_accounted _
  | rollback calls => exact .pure trivial
  | flush => exact keeps_flush steady_accounted
  | compact => exact keeps_compact steady_accounted.toOffTables
  | setMemtableBudget bytes => exact absurd rfl (hset bytes)
  | reopen => exact absurd rfl hopen

/-- **Every state is accounted.** -/
theorem StoreRun.accounted (h : StoreRun p dir s d) : Accounted s.memtableMaxBytes s := by
  have hbudget : ∀ {t : Store} {b : ℕ}, Accounted b t → Accounted t.memtableMaxBytes t :=
    fun h => ⟨h.toOffLock, h.counted, rfl⟩
  induction h with
  | opened run => exact hbudget (does_openWithDir_accounted.of_ok run)
  | @stepped s d op env n x before session run ih =>
    by_cases hset : ∃ bytes, op = .setMemtableBudget bytes
    · obtain ⟨bytes, rfl⟩ := hset
      rcases run with ⟨r, hok⟩ | ⟨e, herr⟩
      · cases hok
        exact ⟨⟨ih.wal, ih.paths⟩, ih.counted, rfl⟩
      · cases herr
    · exact hbudget ((keeps_op session fun bytes hop => hset ⟨bytes, hop⟩).leaves ih run)
  | @scanned s d lo hi env n x before run ih =>
    exact hbudget ((keeps_scanRange (I := fun t _ => Accounted s.memtableMaxBytes t) lo hi).leaves ih run)

/-! ## The bounds -/

/-- A compaction of two tables or more leaves at most one, and the memtable as it was. -/
theorem does_compact_count (hlen : 2 ≤ s.sstables.length) : Does env (Store.compact p) s d
    (fun _ s' _ => s'.sstables.length ≤ 1 ∧ s'.data = s.data) fun _ _ _ => True := by
  have hinstall : ∀ merged d, Does env (Store.installMerged p merged) s d
      (fun _ s' _ => s'.sstables.length ≤ 1 ∧ s'.data = s.data) fun _ _ _ => True := by
    intro merged d
    unfold Store.installMerged
    refine .withSelf ?_
    split_ifs
    · exact .setSelf ⟨Nat.zero_le _, rfl⟩
    · have hflush : Keeps (fun s' _ => s' = s) (SsTable.flush p (sstName s.nextSstableId) merged.toList) fun t =>
          t.path = sstName s.nextSstableId := keeps_sstFlush (fun _ _ _ _ h => h) _
      refine Does.bind ((hflush env s d rfl).mono (fun t s' d' ht => ?_) fun _ _ _ _ => trivial)
      obtain ⟨rfl, -⟩ := ht
      unfold succU64
      split_ifs
      · exact Does.bind (.pure (.setSelf ⟨Nat.le_refl _, rfl⟩))
      · exact Does.bind (.throw trivial)
  unfold Store.compact
  refine .withSelf ?_
  rw [if_neg (by omega)]
  have hmerge : Keeps (fun s' _ => s' = s) (Store.mergeTables p) := keeps_mergeTables
  refine Does.bind ((hmerge env s d rfl).mono (fun merged s' d' hs' => ?_) fun _ _ _ _ => trivial)
  obtain ⟨rfl, -⟩ := hs'
  refine Does.seq (hinstall merged d') fun _ s₁ d₁ h₁ => ?_
  have hclean : Keeps (fun t _ => t.sstables.length ≤ 1 ∧ t.data = s'.data)
      (Store.cleanup (s'.sstables.map SsTable.path)) := keeps_cleanup fun _ _ _ _ _ _ h => h
  exact (hclean env s₁ d₁ h₁).mono (fun _ _ _ h => h.1) fun _ _ _ _ => trivial

/-- What a flush of a memtable comes to. -/
structure Flushed (s : Store) : Prop where
  data : s.data.isEmpty = true
  count : s.sstables.length ≤ MAX_SSTABLES

/-- **Flush.** One that returns leaves the memtable empty and at most `MAX_SSTABLES` tables. -/
theorem does_flush_count (hdata : s.data.isEmpty = false) :
    Does env (Store.flush p) s d (fun _ s' _ => Flushed s') fun _ _ _ => True := by
  have hcompact : ∀ t d, t.data.isEmpty = true →
      Does env (Store.maybeCompact p) t d (fun _ s' _ => Flushed s') fun _ _ _ => True := by
    intro t d ht
    unfold Store.maybeCompact
    refine .withSelf ?_
    split_ifs with hlen
    · refine (does_compact_count (by unfold MAX_SSTABLES at hlen; omega)).mono (fun _ s' _ h => ?_) fun _ _ _ h => h
      exact ⟨by rw [h.2]; exact ht, le_trans h.1 (by decide)⟩
    · exact .pure ⟨ht, by omega⟩
  have htable : Does env (Store.flushTable p) s d (fun _ s' _ => s'.data.isEmpty = true) fun _ _ _ => True := by
    unfold Store.flushTable
    refine .withSelf ?_
    refine .after (keeps_sstFlush (fun _ _ _ _ _ => trivial) _) fun sst s' d' => ?_
    unfold succU64
    split_ifs
    · have hclear : Keeps (fun t _ => t.data.isEmpty = true) (Store.onWal Wal.clear) :=
        keeps_onWal fun t => keeps_clear ⟨fun _ _ _ _ _ _ _ h => h, fun _ _ _ h => h⟩
      refine Does.bind (.pure (Does.bind (.setSelf ?_)))
      exact (hclear env _ d' (by simp)).mono (fun _ _ _ h => h.1) fun _ _ _ _ => trivial
    · exact Does.bind (.throw trivial)
  unfold Store.flush
  refine .withSelf ?_
  rw [hdata, if_neg (by simp)]
  exact Does.seq htable fun _ t d' ht => hcompact t d' ht

theorem data_memtableInsert {s s' : Store} {key : Bytes} {entry : Entry}
    (h : s.memtableInsert key entry = .ok s') : s'.data = s.data.insert key entry := by
  unfold Store.memtableInsert at h
  dsimp only at h
  split at h
  · split at h
    · cases h
    · cases h
      rfl
  · cases h
    rfl

/-- A batch leaves something in the memtable. -/
theorem does_inserts_nonempty {b : Batch} (hb : b ≠ []) :
    Does env (forM b fun e => Store.insert e.1 (entryOf e.2)) s d
      (fun _ s' _ => s'.data.isEmpty = false) fun _ _ _ => True := by
  have hinsert : ∀ (key : Bytes) (entry : Entry) (t : Store) (d : Disk), Does env (Store.insert key entry) t d
      (fun _ s' _ => s'.data.isEmpty = false) fun _ _ _ => True := by
    intro key entry t d
    unfold Store.insert
    refine .withSelf (Does.bind (.ofStop (fun s' hs' => .setSelf ?_) fun _ _ => trivial))
    rw [data_memtableInsert hs']
    simp
  obtain ⟨e, b, rfl⟩ := List.exists_cons_of_ne_nil hb
  rw [List.forM_cons]
  refine Does.seq (hinsert _ _ s d) fun _ s' d' hs' => ?_
  exact Does.loop (fun t _ => t.data.isEmpty = false) b (fun e _ t d _ => hinsert _ _ t d) hs'

/-- The budget is as before, and either the memtable was flushed or it is below the budget. -/
structure Bounded (s s' : Store) : Prop where
  budget : s'.memtableMaxBytes = s.memtableMaxBytes
  within : Flushed s' ∨ s'.memtableBytes < s.memtableMaxBytes

/-- **Writes.** One that returns leaves the memtable flushed or below its budget. -/
theorem does_writeBatch_bounded (h : Accounted s.memtableMaxBytes s) {b : Batch} (hb : b ≠ []) :
    Does env (Store.writeBatch p b) s d (fun _ s' _ => Bounded s s') fun _ _ _ => True := by
  have hrecord : Does env (Store.recordBatch p b) s d
      (fun _ s' _ => Accounted s.memtableMaxBytes s' ∧ s'.data.isEmpty = false) fun _ _ _ => True := by
    have hnonempty : Does env (Store.recordBatch p b) s d (fun _ s' _ => s'.data.isEmpty = false)
        fun _ _ _ => True := by
      unfold Store.recordBatch
      have hlog : Keeps (fun t _ => Accounted s.memtableMaxBytes t)
          (forM b fun e => Store.logEntry p (pendingEntry e.1 e.2)) :=
        keeps_forM (fun e => keeps_logEntry steady_accounted _) b
      have hcommit : Keeps (fun t _ => Accounted s.memtableMaxBytes t) (Store.logCommit p) :=
        keeps_logCommit steady_accounted
      refine Does.seq ((hlog env s d h).mono (fun _ _ _ h => h.1) fun _ _ _ _ => trivial) fun _ s' d' hs' => ?_
      refine Does.seq ((hcommit env s' d' hs').mono (fun _ _ _ h => h.1) fun _ _ _ _ => trivial) fun _ s' d' hs' => ?_
      exact does_inserts_nonempty hb
    have hkeep : Keeps (fun t _ => Accounted s.memtableMaxBytes t) (Store.recordBatch p b) :=
      keeps_recordBatch steady_accounted b
    exact ((hkeep env s d h).and hnonempty).mono (fun _ _ _ hs' => ⟨hs'.1.1, hs'.2⟩) fun _ _ _ _ => trivial
  rw [writeBatch_eq]
  refine Does.seq hrecord fun _ s' d' hs' => ?_
  unfold Store.maybeFlush
  refine .withSelf ?_
  split_ifs with hfull
  · have hkeep : Keeps (fun t _ => Accounted s.memtableMaxBytes t) (Store.flush p) := keeps_flush steady_accounted
    refine ((hkeep env s' d' hs'.1).and (does_flush_count hs'.2)).mono (fun _ t _ ht => ?_) fun _ _ _ _ => trivial
    exact ⟨ht.1.1.budget, Or.inl ht.2⟩
  · refine .pure ⟨hs'.1.budget, Or.inr ?_⟩
    rw [← hs'.1.budget]
    omega

/-- The estimate is exact and no insertion underflows, a write that returns leaves the memtable flushed or
below its budget, and a flush of a memtable that returns leaves at most `MAX_SSTABLES` tables. -/
structure MemoryAccounted (p : Prost) (s : Store) (d : Disk) : Prop where
  estimate : s.memtableBytes = total entryFootprint s.data
  insert : ∀ key entry, s.memtableInsert key entry ≠ .error .panic
  setValue : ∀ key value env n msg y, Store.setValue p key value ⟨s, d, env, n⟩ = .ok msg y → Bounded s y.self
  deleteValue : ∀ key env n msg y, Store.deleteValue p key ⟨s, d, env, n⟩ = .ok msg y → Bounded s y.self
  commit : ∀ (tx : Transaction) env n y, tx.pending.isEmpty = false →
    Transaction.commit p tx ⟨s, d, env, n⟩ = .ok () y → Bounded s y.self
  flush : ∀ env n y, s.data.isEmpty = false → Store.flush p ⟨s, d, env, n⟩ = .ok () y →
    y.self.sstables.length ≤ MAX_SSTABLES

/-- **Memory accounting.** In every state of every run the estimate is exact and the bounds it drives
hold. -/
theorem memory_accounted (h : StoreRun p dir s d) : MemoryAccounted p s d where
  estimate := h.accounted.counted
  insert key entry := by
    rw [memtableInsert_eq h.accounted.counted]
    nofun
  setValue key value env n msg y hrun := by
    rw [setValue_eq] at hrun
    have hset : Does env (Store.writeBatch p [(key, some value)] >>= fun _ => pure "Inserted value") s d
        (fun _ s' _ => Bounded s s') fun _ _ _ => True :=
      Does.seq (does_writeBatch_bounded h.accounted (by simp)) fun _ _ _ hb => .pure hb
    exact hset.of_ok hrun
  deleteValue key env n msg y hrun := by
    rw [deleteValue_eq] at hrun
    have hset : Does env (Store.writeBatch p [(key, none)] >>= fun _ => pure "Deleted value") s d
        (fun _ s' _ => Bounded s s') fun _ _ _ => True :=
      Does.seq (does_writeBatch_bounded h.accounted (by simp)) fun _ _ _ hb => .pure hb
    exact hset.of_ok hrun
  commit tx env n y hne hrun := by
    rw [commit_eq, hne, if_neg (by simp)] at hrun
    have hnil : tx.pending.toList ≠ [] := by
      intro hnil
      rw [Std.ExtTreeMap.toList_eq_nil_iff.1 hnil] at hne
      cases hne
    exact (does_writeBatch_bounded h.accounted hnil).of_ok hrun
  flush env n y hne hrun := ((does_flush_count hne).of_ok hrun).count

set_option synthInstance.maxSize 1000 in
/-- With a budget of zero, a put is flushed at once. -/
theorem memory_accounted_flush : ∃ s d, StoreRun Prost.wire "db" s d ∧ s.data.isEmpty = true ∧
    s.sstables.length = 1 ∧ MemoryAccounted Prost.wire s d := by
  have hruns : wp (Store.openWithDir Prost.wire "db") ⟨Store.fresh "db" ⟨walName, false⟩, Disk.empty, Env.quiet, 0⟩
      (fun _ x => wp ((Op.setMemtableBudget 0).run Prost.wire "db") ⟨x.self, x.disk, Env.quiet, 0⟩
        (fun _ y => wp ((Op.setValue [1] (.integer 5)).run Prost.wire "db") ⟨y.self, y.disk, Env.quiet, 0⟩
          (fun _ z => z.self.data.isEmpty = true ∧ z.self.sstables.length = 1)
          fun _ _ => False)
        fun _ _ => False)
      fun _ _ => False := by decide +kernel
  obtain ⟨_, x, hopen, hruns⟩ := hruns.returns
  obtain ⟨_, y, hbudget, hruns⟩ := hruns.returns
  obtain ⟨_, z, hput, hdata, hcount⟩ := hruns.returns
  have hset : Op.setMemtableBudget 0 ≠ .reopen := nofun
  have hsession : Op.setValue [1] (.integer 5) ≠ .reopen := nofun
  have hrun := (StoreRun.opened hopen).stepped hset (Or.inl ⟨_, hbudget⟩)
  have hrun := hrun.stepped hsession (Or.inl ⟨_, hput⟩)
  exact ⟨_, _, hrun, hdata, hcount, memory_accounted hrun⟩

end FerrumDB
