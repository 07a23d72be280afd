import FerrumDB.Oversize
import FerrumDB.WriteFaults
import FerrumDB.Store.WriteCalls

/-!
# Sessions with failing calls

A `Session` starts at the opening of a directory and goes on through operations that return or fail:
any I/O call of any of them may fail, any number of times. Every key reads as the operations applied so
far say, and a new table never takes the file of a live one (`session_undisturbed`). A write counts as
applied once its batch is in the log and the memtable, so an error means that it did not happen exactly
if no call of the flush that the write triggers fails (`FlushFails`, `write_errors_iff`).
-/

namespace FerrumDB

open CrashLogic

variable {env : Env} {s : Store} {d : Disk} {L : Layers} {p : Prost} {dir : String}
  {m : Bytes → Option Value}

/-! ## Runs -/

/-- The operation fits the layers that the store runs on. -/
def SessionFits (p : Prost) (s : Store) (d : Disk) (op : Op) : Prop :=
  ∀ L, Running p s d L → op.TablesFit p L

/-- From `x` the operation returns or fails with an error, and leaves `y`. -/
def Op.Ends (p : Prost) (dir : String) (op : Op) (x y : Mem Store) : Prop :=
  op.run p dir x = .ok () y ∨ ∃ e, op.run p dir x = .error (.err e) y

/-- What the keys read as after an operation that returned or failed: a write is applied once its batch
is recorded. -/
def Op.reached (p : Prost) (op : Op) (x : Mem Store) (m : Bytes → Option Value) : Bytes → Option Value :=
  match op.batch with
  | none => m
  | some b =>
    match Store.recordBatch p b x with
    | .ok _ _ => op.apply m
    | .error _ _ => m

theorem reached_of_batch_eq_none {op : Op} (h : op.batch = none) (x : Mem Store) :
    op.reached p x m = m := by
  unfold Op.reached
  rw [h]

theorem reached_of_recorded {op : Op} {b : Batch} (h : op.batch = some b) {x y : Mem Store}
    (hrec : Store.recordBatch p b x = .ok () y) : op.reached p x m = op.apply m := by
  unfold Op.reached
  rw [h]
  dsimp only
  rw [hrec]

theorem reached_of_cut {op : Op} {b : Batch} (h : op.batch = some b) {x y : Mem Store} {e : Stop}
    (hrec : Store.recordBatch p b x = .error e y) : op.reached p x m = m := by
  unfold Op.reached
  rw [h]
  dsimp only
  rw [hrec]

/-- The states of sessions. A session starts where a directory of whole tables opened, whatever its log
holds, and `m` is what its keys read as; any call of the operations that follow may fail. -/
inductive Session (p : Prost) (dir : String) : Store → Disk → (Bytes → Option Value) → Prop
  | opened {s₀ : Store} {d : Disk} {n : ℕ} {x : Mem Store} {m : Bytes → Option Value}
      (free : d.locked = false) (whole : d.Whole p)
      (run : Store.openWithDir p dir ⟨s₀, d, Env.quiet, n⟩ = .ok () x)
      (reads : ∀ key, Returns (Store.getValue p key) x.self x.disk fun r _ _ => r = m key) :
      Session p dir x.self x.disk m
  | stepped {s : Store} {d : Disk} {m : Bytes → Option Value} {op : Op} {env : Env} {n : ℕ} {x : Mem Store}
      (before : Session p dir s d m) (session : op ≠ .reopen) (fits : SessionFits p s d op)
      (run : op.Ends p dir ⟨s, d, env, n⟩ x) :
      Session p dir x.self x.disk (op.reached p ⟨s, d, env, n⟩ m)

/-! ## One operation -/

/-- An operation that is not a write reads as before, whether it returns or fails. -/
theorem Running.does_other (hp : p.Lawful) (h : Running p s d L) {op : Op} (hb : op.batch = none)
    (hopen : op ≠ .reopen) (hfits : op.TablesFit p L) :
    Does env (op.run p dir) s d (fun _ s' d' => Reads p L.get s' d') fun _ s' d' => Reads p L.get s' d' := by
  cases op with
  | setValue key value => cases hb
  | deleteValue key => cases hb
  | reopen => exact absurd rfl hopen
  | getValue key =>
    refine Does.bind (h.does_getValue hp (fun s' h' => ?_) fun _ _ s' h' => ⟨L, h', rfl⟩)
    exact .pure ⟨L, h', rfl⟩
  | commit calls =>
    have hemp : (buffered calls).pending.isEmpty = true := by
      unfold Op.batch at hb
      dsimp only at hb
      split at hb
      · next hemp => exact hemp
      · cases hb
    show Does env (Transaction.commit p (buffered calls)) _ _ _ _
    rw [commit_eq, if_pos hemp]
    exact .pure ⟨L, h, rfl⟩
  | rollback calls => exact .pure ⟨L, h, rfl⟩
  | flush =>
    exact h.does_flush hp (hfits.2.1 rfl) (fun s' d' h' => ⟨_, h', get_flush L⟩) fun _ _ _ h' => h'
  | compact =>
    refine h.does_compact hp (hfits.2.2 rfl) (fun s' d' h' => ⟨_, h', get_compact L⟩) fun _ s' d' h' => ?_
    rcases h' with h' | h'
    · exact ⟨L, h', rfl⟩
    · exact ⟨L.compact, h', get_compact L⟩
  | setMemtableBudget bytes =>
    have h' : Running p { s with memtableMaxBytes := bytes } d { L with budget := bytes } :=
      { h.toImplements, h.toOnLog with budget := rfl, table := h.table, descending := h.descending }
    exact fun _ => ⟨rfl, _, h', rfl⟩

/-- **One operation.** It reads as before, or as the operation says if its batch was recorded. -/
theorem Running.reads_reached (hp : p.Lawful) (h : Running p s d L) {op : Op} (hopen : op ≠ .reopen)
    (hfits : op.TablesFit p L) {n : ℕ} {x : Mem Store} (hrun : op.Ends p dir ⟨s, d, env, n⟩ x) :
    Reads p (op.reached p ⟨s, d, env, n⟩ L.get) x.self x.disk := by
  cases hb : op.batch with
  | none =>
    have hop : Does env (op.run p dir) s d _ _ := h.does_other hp hb hopen hfits
    rw [reached_of_batch_eq_none hb]
    rcases hrun with hok | ⟨e, herr⟩
    · exact hop.of_ok hok
    · exact hop.of_error herr
  | some b =>
    have hbatch := hfits.1 b hb
    unfold Op.Ends at hrun
    rw [run_of_batch hb, writeBatch_eq] at hrun
    have hrecord : Does env (Store.recordBatch p b) s d (fun _ s' d' => Running p s' d' (L.write b))
        fun _ s' d' => Reads p L.get s' d' :=
      h.does_recordBatch hbatch.sequence (fun _ _ h' => h') fun _ _ _ h' => h'
    cases hrec : Store.recordBatch p b ⟨s, d, env, n⟩ with
    | error e y =>
      -- the write stops where the log did
      have hstop : x = y := by
        rcases hrun with hok | ⟨e', herr⟩
        · rw [bind_error hrec] at hok
          cases hok
        · rw [bind_error hrec] at herr
          exact (EStateM.Result.error.inj herr).2.symm
      rw [hstop, reached_of_cut hb hrec]
      exact hrecord.of_error hrec
    | ok r y =>
      have hget : (L.write b).get = op.apply L.get := by rw [get_write, apply_of_batch hb]
      have hflush : Does y.env (Store.maybeFlush p) y.self y.disk
          (fun _ s' d' => Reads p (op.apply L.get) s' d') fun _ s' d' => Reads p (op.apply L.get) s' d' := by
        rw [← hget]
        refine (hrecord.of_ok hrec).does_maybeFlush hp hbatch.flush (fun s' d' h' => ?_) fun _ _ _ h' => h'
        exact ⟨_, h', get_maybeFlush _⟩
      rw [reached_of_recorded hb hrec]
      rcases hrun with hok | ⟨e, herr⟩
      · rw [bind_ok hrec] at hok
        exact hflush.of_ok hok
      · rw [bind_ok hrec] at herr
        exact hflush.of_error herr

/-- **The invariant of a session.** -/
theorem Session.reads (hp : p.Lawful) (h : Session p dir s d m) : Reads p m s d := by
  induction h with
  | @opened s₀ d n x m hfree hwhole hrun hreads =>
    obtain ⟨tables, htables⟩ := hwhole
    obtain ⟨L, hL, -⟩ := (does_openWithDir_whole htables hfree).of_ok hrun
    refine ⟨L, hL, funext fun key => ?_⟩
    exact (Reads.returns_getValue hp ⟨L, hL, rfl⟩ key).unique (hreads key)
  | stepped _ hopen hfits hrun ih =>
    obtain ⟨L, hL, rfl⟩ := ih
    exact hL.reads_reached hp hopen (hfits L hL) hrun

/-! ## Failing flushes and compactions -/

/-- Every key reads as `m`; the tables are newest first, with ids below the next one, so the file of the
next table is none of theirs. -/
structure Undisturbed (p : Prost) (s : Store) (d : Disk) (m : Bytes → Option Value) : Prop where
  reads : ∀ key, Returns (Store.getValue p key) s d fun r _ _ => r = m key
  ids : ∃ ids : List ℕ, s.sstables.map SsTable.path = ids.map sstName ∧
    (ids.Pairwise fun x y => y < x) ∧ ∀ id ∈ ids, id < s.nextSstableId
  fresh : ∀ t ∈ s.sstables, t.path ≠ sstName s.nextSstableId

theorem Reads.undisturbed (hp : p.Lawful) (h : Reads p m s d) : Undisturbed p s d m := by
  have hget := h.returns_getValue hp
  obtain ⟨L, hL, rfl⟩ := h
  have hpaths : s.sstables.map SsTable.path = (L.tables.map Prod.fst).map sstName := by
    rw [map_path hL.handles, List.map_map]
    rfl
  refine ⟨hget, ⟨_, hpaths, List.pairwise_map.2 hL.descending, fun id hid => ?_⟩, fun t ht heq => ?_⟩
  · obtain ⟨x, hx, rfl⟩ := List.mem_map.1 hid
    rw [hL.nextId]
    exact hL.below x hx
  · have hmem : t.path ∈ s.sstables.map SsTable.path := List.mem_map_of_mem ht
    rw [map_path hL.handles] at hmem
    obtain ⟨x, hx, hxt⟩ := List.mem_map.1 hmem
    rw [heq, hL.nextId] at hxt
    exact hL.fresh x hx hxt

/-- **Failing calls do not disturb the session**: in every state of a session whose lengths fit, every
key reads as the operations applied say, and the next table takes a file of its own. -/
theorem session_undisturbed (hp : p.Lawful) (h : Session p dir s d m) : Undisturbed p s d m :=
  (h.reads hp).undisturbed hp

/-- One call fails whenever it is made. -/
def Env.failsOn (c : IoCall) : Env := fun _ c' => if c' = c then some (.error noSpace 0) else none

/-- The session that a new table starts. -/
theorem session_new {s₀ : Store} {n : ℕ} {x : Mem Store}
    (hrun : Store.openWithDir Prost.wire "db" ⟨s₀, Disk.empty, Env.quiet, n⟩ = .ok () x) :
    Session Prost.wire "db" x.self x.disk fun _ => none := by
  have hagrees := stored_empty.agrees_of_open wire_lawful rfl hrun
  refine .opened rfl ⟨[], stored_empty.toTablesStored⟩ hrun fun key => ?_
  exact does_getValue wire_lawful hagrees.toFollows (fun _ _ => congrFun get_empty key)
    fun _ he => absurd he Env.not_faults_quiet

theorem sessionFits_of_memory (hnil : s.sstables.length = 0) {op : Op} (hfits : op.Fits p s.memory) :
    SessionFits p s d op := fun _ hL => hL.fits_of_memory hnil hfits

set_option synthInstance.maxSize 1000 in
/-- A put, a flush that fails, and the same flush again. -/
theorem session_undisturbed_retry : ∃ s d m, Session Prost.wire "db" s d m ∧ s.sstables.length = 1 ∧
    Undisturbed Prost.wire s d m := by
  have hruns : wp (Store.openWithDir Prost.wire "db")
      ⟨Store.fresh "db" ⟨walName, false⟩, Disk.empty, Env.quiet, 0⟩
      (fun _ x => (samplePut 1).Fits Prost.wire x.self.memory ∧ x.self.sstables.length = 0 ∧
        wp ((samplePut 1).run Prost.wire "db") ⟨x.self, x.disk, Env.quiet, 0⟩
          (fun _ y => Op.flush.Fits Prost.wire y.self.memory ∧ y.self.sstables.length = 0 ∧
            wp (Op.flush.run Prost.wire "db") ⟨y.self, y.disk, Env.failsOn ⟨.createDirAll, ""⟩, 0⟩
              (fun _ _ => False)
              fun e z => e = .err (.ioError noSpace) ∧ Op.flush.Fits Prost.wire z.self.memory ∧
                z.self.sstables.length = 0 ∧
                wp (Op.flush.run Prost.wire "db") ⟨z.self, z.disk, Env.quiet, 0⟩
                  (fun _ w => w.self.sstables.length = 1) fun _ _ => False)
          fun _ _ => False)
      fun _ _ => False := by decide +kernel
  obtain ⟨_, x, hopen, hfits, hnil, hruns⟩ := hruns.returns
  obtain ⟨_, y, hput, hfits', hnil', hruns⟩ := hruns.returns
  obtain ⟨_, z, hfail, rfl, hfits'', hnil'', hruns⟩ := hruns.stops
  obtain ⟨_, w, hflush, hone⟩ := hruns.returns
  have hsession : Op.flush ≠ .reopen := nofun
  have hnew := session_new hopen
  have hwritten := hnew.stepped (samplePut_ne_reopen 1) (sessionFits_of_memory hnil hfits) (Or.inl hput)
  have hfailed := hwritten.stepped hsession (sessionFits_of_memory hnil' hfits') (Or.inr ⟨_, hfail⟩)
  have hflushed := hfailed.stepped hsession (sessionFits_of_memory hnil'' hfits'') (Or.inl hflush)
  exact ⟨_, _, _, hflushed, hone, session_undisturbed wire_lawful hflushed⟩

theorem does_createDirAll_fails {σ : Type} {a : σ} {Q : Unit → σ → Disk → Prop} {E : Stop → σ → Disk → Prop}
    (hE : E (.err (.ioError noSpace)) a d) : Does (Env.failsOn ⟨.createDirAll, ""⟩) createDirAll a d Q E :=
  fun _ => ⟨rfl, hE⟩

/-- The put of the big value fails in its flush, and leaves the value in the memtable. -/
theorem does_writeBatch_big_fails {k : ℕ} (hk : k = 2 ^ 32) (h : Agrees Prost.wire s d Layers.empty [] []) :
    Does (Env.failsOn ⟨.createDirAll, ""⟩) (Store.writeBatch Prost.wire (bigBatch k)) s d (fun _ _ _ => False)
      fun e s' d' => e = .err (.ioError noSpace) ∧ Follows Prost.wire s' d' (Layers.empty.write (bigBatch k)) := by
  have henv : (Env.failsOn ⟨.createDirAll, ""⟩).Spares (onPath walName) := by
    rintro n c hc
    refine if_neg ?_
    rintro rfl
    exact absurd hc (by decide : ("" : FileName) ≠ walName)
  refine does_writeBatch (b := bigBatch k) h.toFollows (show 0 + 1 < 2 ^ 64 by decide) (fun s' d' bs h' _ _ => ?_)
    fun e s' d' u _ hc => (not_logCut_big hk h henv hc).elim
  have hne : s'.data.isEmpty = false := by
    rw [← Std.ExtTreeMap.isEmpty_toList, toList_put h']; rfl
  unfold Store.maybeFlush
  refine .withSelf ?_
  rw [if_pos (memtableBytes_big hk h')]
  unfold Store.flush
  refine .withSelf ?_
  rw [hne, if_neg (by simp)]
  unfold Store.flushTable
  refine Does.bind (.withSelf (Does.bind ?_))
  unfold SsTable.flush
  exact Does.bind (does_createDirAll_fails ⟨rfl, h'⟩)

/-- A put of 4 GiB whose flush fails leaves the value readable, but the flush that is retried succeeds
and no longer gives it back. -/
theorem retried_flush_disturbs_big :
    Returns (Store.openWithDir Prost.wire "db") (Store.fresh "db" ⟨walName, false⟩) Disk.empty fun _ s d =>
      Does (Env.failsOn ⟨.createDirAll, ""⟩) (Store.setValue Prost.wire bigKey (bigValue (2 ^ 32))) s d
        (fun _ _ _ => False) fun e s' d' => e = .err (.ioError noSpace) ∧
          Returns (Store.getValue Prost.wire bigKey) s' d' (fun r _ _ => r = some (bigValue (2 ^ 32))) ∧
          Returns (Store.flush Prost.wire) s' d' fun _ s'' d'' =>
            ¬ Undisturbed Prost.wire s'' d'' (Function.update (fun _ => none) bigKey (some (bigValue (2 ^ 32)))) := by
  refine does_openWithDir wire_lawful stored_empty rfl fun s d hagrees => ?_
  rw [setValue_eq]
  refine Does.bind ((does_writeBatch_big_fails rfl hagrees).mono (fun _ _ _ hfalse => hfalse.elim) ?_)
  rintro e s' d' ⟨rfl, hwritten⟩
  refine ⟨rfl, does_getValue wire_lawful hwritten (fun _ _ => ?_) fun _ he => absurd he Env.not_faults_quiet, ?_⟩
  · rw [get_write, get_empty]
    exact Function.update_self bigKey (some (bigValue (2 ^ 32))) fun _ => none
  · refine (returns_flush_big rfl hwritten).mono (fun _ s'' d'' hbig hundisturbed => ?_) fun _ _ _ he => he
    exact (hundisturbed.reads bigKey).not_stops (E := fun _ _ _ => True)
      (does_getValue_big rfl hbig (fun _ => trivial) fun _ => Env.not_faults_quiet)

/-! ## Failing writes -/

/-- If the operation returned, every key reads as it says; if it failed, every key reads as before. -/
structure AllOrError (p : Prost) (dir : String) (op : Op) (x : Mem Store) (m : Bytes → Option Value) :
    Prop where
  done : ∀ y, op.run p dir x = .ok () y →
    ∀ key, Returns (Store.getValue p key) y.self y.disk fun r _ _ => r = op.apply m key
  undone : ∀ e y, op.run p dir x = .error (.err e) y →
    ∀ key, Returns (Store.getValue p key) y.self y.disk fun r _ _ => r = m key

/-- The flush that the write triggers fails, by the state before the write: the memtable with the batch reaches
the budget, the log has room for the batch, no call that records it fails, and the first call of the flush that
does not succeed fails with an error. The merged table is written only if some key has a value. -/
structure FlushFails (p : Prost) (op : Op) (x : Mem Store) (m : Bytes → Option Value) (b : Batch) : Prop where
  batch : op.batch = some b
  budget : OrderedMap.total entryFootprint (applyBatch x.self.data b) ≥ x.self.memtableMaxBytes
  room : x.self.LogRoom p x.disk b
  recorded : x.env.firstFault x.clock (x.self.recordIo b) = none
  fails : x.env.FailsIn (x.clock + (x.self.recordIo b).length) (x.self.flushIo p (applyBatch x.self.data b)) ∨
    (∃ key, op.apply m key ≠ none) ∧ x.env.FailsIn (x.clock + (x.self.recordIo b).length)
      (x.self.flushIo p (applyBatch x.self.data b) ++ x.self.mergeIo)

/-- The batch is recorded, and then the flush fails. -/
def FlushStops (p : Prost) (op : Op) (x : Mem Store) : Prop :=
  ∃ b y e z, op.batch = some b ∧ Store.recordBatch p b x = .ok () y ∧
    Store.maybeFlush p y = .error (.err e) z

/-- A write whose flush fails, fails. -/
theorem FlushStops.run {op : Op} {x : Mem Store} (h : FlushStops p op x) :
    ∃ e z, op.run p dir x = .error (.err e) z ∧ op.reached p x m = op.apply m := by
  obtain ⟨b, y, e, z, hb, hrec, hflush⟩ := h
  refine ⟨e, z, ?_, reached_of_recorded hb hrec⟩
  rw [run_of_batch hb, writeBatch_eq, bind_ok hrec, hflush]

theorem isEmpty_applyBatch {b : Batch} (hb : b ≠ []) (data : Memtable) : (applyBatch data b).isEmpty = false := by
  obtain ⟨b, e, rfl⟩ := (List.eq_nil_or_concat b).resolve_left hb
  unfold applyBatch
  rw [List.concat_eq_append, List.foldl_append, List.foldl_cons, List.foldl_nil]
  exact Std.ExtTreeMap.isEmpty_eq_false_iff.2 Std.ExtTreeMap.insert_ne_empty

/-- The flush after the batch writes a merged table exactly if some key has a value then. -/
theorem isEmpty_merged_iff {op : Op} {b : Batch} (hb : op.batch = some b) (L : Layers) :
    (mergedTables (L.write b).flushTable.tables).isEmpty = true ↔ ∀ key, op.apply L.get key = none := by
  have hget : op.apply L.get = (L.write b).flushTable.get := by rw [get_flushTable, get_write, apply_of_batch hb]
  have hnone : ∀ key, layer (L.write b).flushTable.data key = none := fun _ => Std.ExtTreeMap.getElem?_empty
  rw [isEmpty_mergedTables_iff, hget]
  refine forall_congr' fun key => ?_
  unfold Layers.get Layers.stack
  rw [Overlay.resolve_cons_none (hnone key)]

/-- Once the batch is recorded, what the state before the write says of its flush becomes of it. -/
theorem Running.recorded_flush_fails_iff (hp : p.Lawful) (h : Running p s d L) {op : Op} {b : Batch} (hb : op.batch = some b)
    (hfits : op.TablesFit p L) {n : ℕ} {y : Mem Store} (hrec : Store.recordBatch p b ⟨s, d, env, n⟩ = .ok () y) :
    (∃ e z, Store.maybeFlush p y = .error (.err e) z) ↔
      OrderedMap.total entryFootprint (applyBatch s.data b) ≥ s.memtableMaxBytes ∧
        (env.FailsIn (n + (s.recordIo b).length) (s.flushIo p (applyBatch s.data b)) ∨
          (∃ key, op.apply L.get key ≠ none) ∧ env.FailsIn (n + (s.recordIo b).length)
            (s.flushIo p (applyBatch s.data b) ++ s.mergeIo)) := by
  have hbatch := hfits.1 b hb
  have hne := batch_ne_nil hb
  have hseq : s.sequence.toNat + b.length < 2 ^ 64 := by rw [h.sequence]; exact hbatch.sequence
  obtain ⟨hroom, -⟩ := (recordBatch_ok_iff hne h.toOnLog h.counted hseq n).1 ⟨y, hrec⟩
  have hclock := ((runs_recordBatch hne h.toOnLog h.counted hseq hroom n).of_ok hrec).1
  have hrecord : Does env (Store.recordBatch p b) s d (fun _ s' d' => Running p s' d' (L.write b)) fun _ _ _ => True :=
    h.does_recordBatch hbatch.sequence (fun _ _ h' => h') fun _ _ _ _ => trivial
  have hrun := hrecord.of_ok hrec
  obtain ⟨s', d', env', n'⟩ := y
  obtain ⟨rfl, rfl, -⟩ := hclock
  have hdata : (L.write b).data.isEmpty = false := isEmpty_applyBatch hne L.data
  -- the calls depend on the layers, and the record changes the memtable only
  have hflushIo : s'.flushIo p (L.write b).data = s.flushIo p (applyBatch s.data b) := by
    rw [hrun.toImplements.flushIo_eq, h.toImplements.flushIo_eq, h.data]
    rfl
  have hmergeIo : s'.mergeIo = s.mergeIo := by
    rw [hrun.toImplements.mergeIo_eq, h.toImplements.mergeIo_eq]
    rfl
  rw [hrun.maybeFlush_fails_iff hp hdata hbatch.flush, hflushIo, hmergeIo, h.data, h.budget]
  refine and_congr Iff.rfl ?_
  cases hemp : (mergedTables (L.write b).flushTable.tables).isEmpty with
  | true =>
    have hnone := (isEmpty_merged_iff hb L).1 hemp
    rw [if_pos rfl, List.append_nil]
    exact ⟨Or.inl, fun hfails => hfails.resolve_right fun ⟨⟨key, hne⟩, _⟩ => hne (hnone key)⟩
  | false =>
    have hsome : ∃ key, op.apply L.get key ≠ none := by
      by_contra hall
      rw [not_exists_not] at hall
      rw [(isEmpty_merged_iff hb L).2 hall] at hemp
      cases hemp
    rw [if_neg Bool.false_ne_true]
    exact ⟨fun hfails => Or.inr ⟨hsome, hfails⟩, fun hfails => hfails.elim (fun hfails => hfails.append _) And.right⟩

/-- **The first failing call.** What the state before the write and the environment say of its flush is what
becomes of it. -/
theorem Running.flushFails_iff (hp : p.Lawful) (h : Running p s d L) {op : Op} (hfits : op.TablesFit p L) (n : ℕ) :
    (∃ b, FlushFails p op ⟨s, d, env, n⟩ L.get b) ↔ FlushStops p op ⟨s, d, env, n⟩ := by
  have hrecorded : ∀ b, op.batch = some b → ((∃ y, Store.recordBatch p b ⟨s, d, env, n⟩ = .ok () y) ↔
      s.LogRoom p d b ∧ env.firstFault n (s.recordIo b) = none) := fun b hb =>
    recordBatch_ok_iff (batch_ne_nil hb) h.toOnLog h.counted (by rw [h.sequence]; exact (hfits.1 b hb).sequence) n
  constructor
  · rintro ⟨b, hfails⟩
    obtain ⟨y, hrec⟩ := (hrecorded b hfails.batch).2 ⟨hfails.room, hfails.recorded⟩
    obtain ⟨e, z, hflush⟩ := (h.recorded_flush_fails_iff hp hfails.batch hfits hrec).2 ⟨hfails.budget, hfails.fails⟩
    exact ⟨b, y, e, z, hfails.batch, hrec, hflush⟩
  · rintro ⟨b, y, e, z, hb, hrec, hflush⟩
    obtain ⟨hroom, hnone⟩ := (hrecorded b hb).1 ⟨y, hrec⟩
    obtain ⟨hbudget, hfails⟩ := (h.recorded_flush_fails_iff hp hb hfits hrec).1 ⟨e, z, hflush⟩
    exact ⟨b, hb, hbudget, hroom, hnone, hfails⟩

/-- An operation that returned did all it says. -/
theorem reached_of_ok {op : Op} {x y : Mem Store} (h : op.run p dir x = .ok () y) :
    op.reached p x m = op.apply m := by
  cases hb : op.batch with
  | none => rw [reached_of_batch_eq_none hb, apply_of_batch_eq_none hb]
  | some b =>
    cases hrec : Store.recordBatch p b x with
    | ok r z => exact reached_of_recorded hb hrec
    | error e z =>
      rw [run_of_batch hb, writeBatch_eq, bind_error hrec] at h
      cases h

/-- An operation that failed before its flush did nothing. -/
theorem reached_of_error {op : Op} {x y : Mem Store} {e : AppError} (h : op.run p dir x = .error (.err e) y) :
    op.reached p x m = m ∨ FlushStops p op x := by
  cases hb : op.batch with
  | none => exact Or.inl (reached_of_batch_eq_none hb x)
  | some b =>
    cases hrec : Store.recordBatch p b x with
    | error e z => exact Or.inl (reached_of_cut hb hrec)
    | ok r z =>
      rw [run_of_batch hb, writeBatch_eq, bind_ok hrec] at h
      exact Or.inr ⟨b, z, e, y, hb, hrec, h⟩

/-- **An error means that the write did not happen** exactly if the write changes no read, or no call of the
flush that it triggers fails. -/
theorem write_errors_iff (hp : p.Lawful) (h : Session p dir s d m) {op : Op} (hopen : op ≠ .reopen)
    (hfits : SessionFits p s d op) (env : Env) (n : ℕ) :
    AllOrError p dir op ⟨s, d, env, n⟩ m ↔ ((∃ b, FlushFails p op ⟨s, d, env, n⟩ m b) → op.apply m = m) := by
  have hreads : ∀ y, op.Ends p dir ⟨s, d, env, n⟩ y → ∀ key,
      Returns (Store.getValue p key) y.self y.disk fun r _ _ => r = op.reached p ⟨s, d, env, n⟩ m key := by
    intro y hy
    exact ((h.stepped hopen hfits hy).reads hp).returns_getValue hp
  have hstops : (∃ b, FlushFails p op ⟨s, d, env, n⟩ m b) ↔ FlushStops p op ⟨s, d, env, n⟩ := by
    obtain ⟨L, hL, rfl⟩ := h.reads hp
    exact hL.flushFails_iff hp (hfits L hL) n
  rw [hstops]
  constructor
  · intro hall hflush
    have hran : ∃ e z, op.run p dir ⟨s, d, env, n⟩ = .error (.err e) z ∧
        op.reached p ⟨s, d, env, n⟩ m = op.apply m := hflush.run
    obtain ⟨e, z, hrun, hreached⟩ := hran
    funext key
    have happlied := hreads z (Or.inr ⟨e, hrun⟩) key
    rw [hreached] at happlied
    exact happlied.unique (hall.undone e z hrun key)
  · intro hflush
    constructor
    · intro y hrun key
      have hkey := hreads y (Or.inl hrun) key
      rwa [reached_of_ok hrun] at hkey
    · intro e y hrun key
      have hkey := hreads y (Or.inr ⟨e, hrun⟩) key
      rcases reached_of_error hrun with hsame | hfails
      · rwa [hsame] at hkey
      · have hran : ∃ e z, op.run p dir ⟨s, d, env, n⟩ = .error (.err e) z ∧
            op.reached p ⟨s, d, env, n⟩ m = op.apply m := hfails.run
        obtain ⟨-, -, -, hreached⟩ := hran
        rwa [hreached, hflush hfails] at hkey

/-- A put on a new table. -/
theorem write_errors_iff_put : ∃ s d, Session Prost.wire "db" s d (fun _ => none) ∧
    (AllOrError Prost.wire "db" (samplePut 1) ⟨s, d, Env.failsOn ⟨.sync, walName⟩, 0⟩ (fun _ => none) ↔
      ((∃ b, FlushFails Prost.wire (samplePut 1) ⟨s, d, Env.failsOn ⟨.sync, walName⟩, 0⟩ (fun _ => none) b) →
        (samplePut 1).apply (fun _ => none) = fun _ => none)) := by
  have hruns : wp (Store.openWithDir Prost.wire "db")
      ⟨Store.fresh "db" ⟨walName, false⟩, Disk.empty, Env.quiet, 0⟩
      (fun _ x => (samplePut 1).Fits Prost.wire x.self.memory ∧ x.self.sstables.length = 0)
      fun _ _ => False := by decide +kernel
  obtain ⟨_, x, hopen, hfits, hnil⟩ := hruns.returns
  have hnew := session_new hopen
  exact ⟨_, _, hnew, write_errors_iff wire_lawful hnew (samplePut_ne_reopen 1)
    (sessionFits_of_memory hnil hfits) _ 0⟩

set_option synthInstance.maxSize 1000 in
/-- With a budget of zero every write flushes. There is no space for the new table, so the put fails; but its
value is there. -/
theorem failed_write_visible : wp (Store.openWithDir Prost.wire "db")
    ⟨Store.fresh "db" ⟨walName, false⟩, Disk.empty, Env.quiet, 0⟩
    (fun _ x => wp (Store.setMemtableBudget 0) ⟨x.self, x.disk, Env.quiet, 0⟩
      (fun _ y => wp (Store.setValue Prost.wire [1] (.integer 1))
        ⟨y.self, y.disk, Env.failsOn ⟨.write, sstName 1⟩, 0⟩ (fun _ _ => False)
        fun e z => e = .err (.ioError noSpace) ∧
          wp (Store.getValue Prost.wire [1]) ⟨y.self, y.disk, Env.quiet, 0⟩ (fun r _ => r = none)
            (fun _ _ => False) ∧
          wp (Store.getValue Prost.wire [1]) ⟨z.self, z.disk, Env.quiet, 0⟩
            (fun r _ => r = some (.integer 1)) fun _ _ => False)
      fun _ _ => False)
    fun _ _ => False := by decide +kernel

end FerrumDB
