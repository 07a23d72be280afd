import FerrumDB.Oversize

/-!
# Crash atomicity and durability of writes

A `CrashRun` is a run of operations on a table, cut by crashes: a crash falls on any call on the log,
in the middle of a write at any byte, and leaves of the log what was fsynced and any prefix of what
was appended since; then the directory is opened again. In every state of such a run the keys read as
in the map of all acknowledged operations, and so they do after the next crash, with all or none of
the operation in flight (`crash_safe`).
-/

namespace FerrumDB

open Overlay

variable {env : Env} {s : Store} {d : Disk} {L : Layers} {p : Prost} {dir : String}
  {m : Bytes → Option Value}

/-! ## Runs with crashes -/

/-- A run of operations that fit, with crashes on the calls on the log and a reopening after each.
`m` is the map after the acknowledged operations, and after those operations in flight at a crash that
the reopened store shows. -/
inductive CrashRun (p : Prost) (dir : String) : Store → Disk → (Bytes → Option Value) → Prop
  | opened {s₀ : Store} {n : ℕ} {x : Mem Store}
      (run : Store.openWithDir p dir ⟨s₀, Disk.empty, Env.quiet, n⟩ = .ok () x) :
      CrashRun p dir x.self x.disk fun _ => none
  | acked {s : Store} {d : Disk} {m : Bytes → Option Value} {op : Op} {env : Env} {n : ℕ} {x : Mem Store}
      (before : CrashRun p dir s d m) (session : op ≠ .reopen) (onLog : env.Spares offLog)
      (fits : StepFits p s d op) (run : op.run p dir ⟨s, d, env, n⟩ = .ok () x) :
      CrashRun p dir x.self x.disk (op.apply m)
  | idle {s s₀ : Store} {d : Disk} {m : Bytes → Option Value} {n : ℕ} {y : Mem Store}
      (before : CrashRun p dir s d m) (keep : FileName → ℕ)
      (reopen : Store.openWithDir p dir ⟨s₀, d.crash keep, Env.quiet, n⟩ = .ok () y) :
      CrashRun p dir y.self y.disk m
  | inFlight {s s₀ : Store} {d : Disk} {m m' : Bytes → Option Value} {op : Op} {env : Env} {n k : ℕ}
      {x y : Mem Store} (before : CrashRun p dir s d m) (session : op ≠ .reopen)
      (onLog : env.Spares offLog) (fits : StepFits p s d op)
      (run : op.run p dir ⟨s, d, env, n⟩ = .error .crash x) (keep : FileName → ℕ)
      (reopen : Store.openWithDir p dir ⟨s₀, x.disk.crash keep, Env.quiet, k⟩ = .ok () y)
      (all_or_none : m' = m ∨ m' = op.apply m)
      (reads : ∀ key, Returns (Store.getValue p key) y.self y.disk fun r _ _ => r = m' key) :
      CrashRun p dir y.self y.disk m'

/-- Every key reads as in `m`; a crash between operations loses nothing; and a crash in an operation
leaves all or none of it. -/
structure CrashSafe (p : Prost) (dir : String) (s : Store) (d : Disk) (m : Bytes → Option Value) :
    Prop where
  reads : ∀ key, Returns (Store.getValue p key) s d fun r _ _ => r = m key
  idle : ∀ keep, Reopens p dir (d.crash keep) m
  inFlight : ∀ op env n x, op ≠ .reopen → env.Spares offLog → StepFits p s d op →
    op.run p dir ⟨s, d, env, n⟩ = .error .crash x →
    ∀ keep, Reopens p dir (x.disk.crash keep) m ∨ Reopens p dir (x.disk.crash keep) (op.apply m)

/-! ## One operation -/

/-- After a crash the directory holds layers that read as before the operation, or as after it. -/
def CrashLeaves (p : Prost) (d : Disk) (L : Layers) (op : Op) : Prop :=
  ∀ keep, ∃ L' junk t, Stored p (d.crash keep) L' junk t ∧ (L'.get = L.get ∨ L'.get = op.apply L.get)

/-- The memtable may be in a table and in the log at the same time. -/
theorem get_tabled (L : Layers) : Layers.get { L with tables := (L.nextId, L.data) :: L.tables } = L.get := by
  funext key
  exact resolve_cons_self _

/-- The layers that a crash in an operation can leave: those before it, those of the log it wrote, and,
if the flush was stopped while it cleared the log, those with the new table. -/
inductive Layers.CrashesTo (L : Layers) (op : Op) : Layers → Prop
  | before : L.CrashesTo op L
  | logged {b : Batch} (hb : op.batch = some b) : L.CrashesTo op (L.write b)
  | tabled {L₁ : Layers} (h : L.CrashesTo op L₁) :
      L.CrashesTo op { L₁ with tables := (L₁.nextId, L₁.data) :: L₁.tables }
  | flushed {L₁ : Layers} (h : L.CrashesTo op L₁) : L.CrashesTo op L₁.flushTable

theorem Layers.CrashesTo.get_eq {op : Op} {L' : Layers} (h : L.CrashesTo op L') :
    L'.get = L.get ∨ L'.get = op.apply L.get := by
  induction h with
  | before => exact Or.inl rfl
  | logged hb => exact Or.inr (by rw [get_write, apply_of_batch hb])
  | tabled _ ih => rwa [get_tabled]
  | flushed _ ih => rwa [get_flushTable]

/-- A flush stopped while it cleared the log leaves the new table, and the log or none. -/
theorem ClearCut.crashesTo {d' : Disk} {L₁ : Layers} {op : Op} (h : ClearCut p s d d' L₁)
    (hlog : LogStored p d L₁.log L₁.data [] []) (hreached : L.CrashesTo op L₁) (keep : FileName → ℕ) :
    ∃ L' junk t, Stored p (d'.crash keep) L' junk t ∧ L.CrashesTo op L' := by
  rcases h.stored hlog with hst | hst
  · obtain ⟨junk, t, hst⟩ := hst.crash keep
    exact ⟨_, junk, t, hst, hreached.tabled⟩
  · obtain ⟨junk, t, hst⟩ := hst.crash keep
    exact ⟨_, junk, t, hst, hreached.flushed⟩

/-- **One operation** on a clean log, when only calls on the log may fault: it runs through, or a crash
leaves one of its layers. -/
theorem does_op_crashesTo (hp : p.Lawful) (h : Agrees p s d L [] []) {op : Op} (hopen : op ≠ .reopen)
    (henv : env.Spares offLog) (hfits : op.TablesFit p L) :
    Does env (op.run p dir) s d (fun _ s' d' => Agrees p s' d' (op.step L) [] []) fun e _ d' =>
      e = .crash → ∀ keep, ∃ L' junk t, Stored p (d'.crash keep) L' junk t ∧ L.CrashesTo op L' := by
  have hclean : d.bytesOf walName = logBytes p L.log := by
    rw [h.bytes, List.append_nil, List.append_nil]
  cases hb : op.batch with
  | some b =>
    have hbatch := hfits.1 b hb
    rw [step_of_batch hb]
    refine does_batch_op hb (does_writeBatch_clean hp h hbatch.sequence hbatch.flush henv
      (fun _ _ h' => h') (fun e s' d' u hcut hlogCut _ keep => ?_)
      fun e s' d' d'' _ hlogged hclear _ keep => ?_)
    · -- cut in the log
      have hbytes := hcut.log.bytes
      have hsynced := h.synced
      rw [hclean] at hbytes
      rw [← hcut.log.synced] at hsynced
      have htables := hcut.follows.toTablesStored.crash keep
      rcases h.toLogStored.crash_batch hbytes hsynced hlogCut.isPrefix hbatch.entries keep with
        ⟨junk, t, hlog⟩ | hlog
      · exact ⟨L, junk, t, { htables, hlog with }, .before⟩
      · exact ⟨L.write b, [], [], { htables, hlog with }, .logged hb⟩
    · -- cut in the flush
      exact hclear.crashesTo hlogged (.logged hb) keep
  | none =>
    refine does_other_op hp h.toFollows hb hopen hfits henv (fun s' d' _ hq => ?_)
      (fun s' d' _ _ h' => h')
      fun e s' d' _ _ hclear _ keep => hclear.crashesTo h.toLogStored .before keep
    have hstored := h.toLogStored.frame hq.wal
    rw [← hq.log, ← hq.memtable] at hstored
    exact { hq.toFollows, hstored with }

/-- A crash in an operation leaves all or none of it. -/
theorem does_op_crash (hp : p.Lawful) (h : Agrees p s d L [] []) {op : Op} (hopen : op ≠ .reopen)
    (henv : env.Spares offLog) (hfits : op.TablesFit p L) :
    Does env (op.run p dir) s d (fun _ s' d' => Agrees p s' d' (op.step L) [] [])
      fun e _ d' => e = .crash → CrashLeaves p d' L op := by
  refine (does_op_crashesTo hp h hopen henv hfits).mono (fun _ _ _ h' => h') fun e _ d' hleft he keep => ?_
  obtain ⟨L', junk, t, hst, hreached⟩ := hleft he keep
  exact ⟨L', junk, t, hst, hreached.get_eq⟩

/-! ## Runs -/

theorem Agrees.crashSafe (hp : p.Lawful) (h : Agrees p s d L [] []) : CrashSafe p dir s d L.get where
  reads _ := does_getValue hp h.toFollows (fun _ _ => rfl) fun _ he => absurd he Env.not_faults_quiet
  idle keep := by
    obtain ⟨junk, t, hst⟩ := h.stored.crash keep
    exact hst.reopens hp rfl
  inFlight op env n x hopen henv hfits hrun keep := by
    have hop : Does env (op.run p dir) _ _ _ _ := does_op_crash hp h hopen henv (hfits L h.toFollows)
    obtain ⟨L', junk, t, hst, hget⟩ := hop.of_error hrun rfl keep
    have hreopens : Reopens p dir _ _ := hst.reopens hp rfl
    exact hget.imp (fun he => by rwa [← he]) fun he => by rwa [← he]

/-- **The invariant of a run**: the store agrees with layers that read as the map. -/
theorem CrashRun.agrees (hp : p.Lawful) (h : CrashRun p dir s d m) :
    ∃ L, Agrees p s d L [] [] ∧ L.get = m := by
  induction h with
  | opened hrun =>
    exact ⟨_, stored_empty.agrees_of_open hp rfl hrun, get_empty⟩
  | @acked s d m op env n x _ hopen henv hfits hrun ih =>
    obtain ⟨L, hagrees, rfl⟩ := ih
    have hop : Does env (op.run p dir) _ _ _ _ := does_op_crash hp hagrees hopen henv (hfits L hagrees.toFollows)
    exact ⟨op.step L, hop.of_ok hrun, get_step L op⟩
  | idle _ keep hopen ih =>
    obtain ⟨L, hagrees, rfl⟩ := ih
    obtain ⟨junk, t, hst⟩ := hagrees.stored.crash keep
    exact ⟨L.reopen, hst.agrees_of_open hp rfl hopen, rfl⟩
  | @inFlight s s₀ d m m' op env n k x y _ hsession henv hfits hrun keep hopen _ hreads ih =>
    obtain ⟨L, hagrees, rfl⟩ := ih
    have hop : Does env (op.run p dir) _ _ _ _ := does_op_crash hp hagrees hsession henv (hfits L hagrees.toFollows)
    obtain ⟨L', junk, t, hst, -⟩ := hop.of_error hrun rfl keep
    have hreopened := hst.agrees_of_open hp rfl hopen
    refine ⟨L'.reopen, hreopened, ?_⟩
    funext key
    have hget : Returns (Store.getValue p key) y.self y.disk fun r _ _ => r = L'.reopen.get key :=
      does_getValue hp hreopened.toFollows (fun _ _ => rfl) fun _ he => absurd he Env.not_faults_quiet
    exact hget.unique (hreads key)

/-- **Writes are atomic and durable across crashes.** In every state of a run cut by crashes, every key
reads as in the map of the acknowledged operations, and whenever the process stops next, opening the
directory succeeds and shows that map, with all or none of the operation in flight. -/
theorem crash_safe (hp : p.Lawful) (h : CrashRun p dir s d m) : CrashSafe p dir s d m := by
  obtain ⟨L, hagrees, rfl⟩ := h.agrees hp
  exact hagrees.crashSafe hp

theorem crash_safe_setValue : ∃ s d,
    CrashRun Prost.wire "db" s d (Op.apply (fun _ => none) (.setValue [1] (.integer 5))) ∧
      CrashSafe Prost.wire "db" s d (Op.apply (fun _ => none) (.setValue [1] (.integer 5))) := by
  have hopen : Returns (Store.openWithDir Prost.wire "db") (Store.fresh "db" ⟨walName, false⟩) Disk.empty
      fun _ s d => Agrees Prost.wire s d Layers.empty [] [] :=
    does_openWithDir wire_lawful stored_empty rfl fun _ _ h => h
  obtain ⟨_, x, hrun, hagrees⟩ := hopen.run 0
  have hfits : Op.Fits Prost.wire Layers.empty (.setValue [1] (.integer 5)) := by decide +kernel
  have hset : Returns (Op.run Prost.wire "db" _) _ _ _ := returns_op wire_lawful hagrees hfits
  obtain ⟨_, y, hrun', -⟩ := hset.run 0
  have hsession : Op.setValue [1] (.integer 5) ≠ .reopen := nofun
  have hcrash : CrashRun Prost.wire "db" y.self y.disk _ :=
    .acked (.opened hrun) hsession (Env.quiet_spares _)
      (hfits.tablesFit.stepFits wire_lawful hagrees.toFollows) hrun'
  exact ⟨y.self, y.disk, hcrash, crash_safe wire_lawful hcrash⟩

/-- An acknowledged value of 4 GiB is gone once the directory is opened again. -/
theorem not_reopens_big : Returns (runOps Prost.wire "db" [.setValue bigKey (bigValue (2 ^ 32))])
    (Store.fresh "db" ⟨walName, false⟩) Disk.empty fun _ _ d' => ∀ keep,
      ¬ Reopens Prost.wire "db" (d'.crash keep)
        (Op.apply (fun _ => none) (.setValue bigKey (bigValue (2 ^ 32)))) := by
  refine (returns_runOps_big rfl).mono (fun _ s' d' h keep hreopens => ?_) fun _ _ _ he => he
  have hopen := returns_openWithDir_big (s := s') (h.toOversizedDisk.crash keep) rfl "db"
  obtain ⟨_, x, hrun, hbig⟩ := hopen.run 0
  have hget := (hreopens s').of_ok hrun bigKey
  exact hget.not_stops (E := fun _ _ _ => True)
    (does_getValue_big rfl hbig (fun _ => trivial) fun _ => Env.not_faults_quiet)

end FerrumDB
