import FerrumDB.CrashSafety

/-!
# Openings that are cut short

A directory may be opened many times before that succeeds: any I/O call of an attempt may fail, the process
may stop at any of them, and it may stop again right after the opening. Opening only cuts from the log what no
COMMIT covers, so all that leaves the layers of the directory (`Stored.does_openWithDir`). After a run with
crashes, and any such attempts, the directory still opens to the map that the run left, and so does each
attempt that gets through, unless the listing of the directory or the look for the log failed, whose errors
the code swallows (`interrupted_recovery`).
-/

namespace FerrumDB

variable {env : Env} {s : Store} {d d' : Disk} {L : Layers} {p : Prost} {dir : String} {junk : List WalEntry}
  {t : Bytes} {m : Bytes → Option Value}

/-! ## One opening -/

/-- An I/O error or a crash. -/
def Stop.IsIo (e : Stop) : Prop := (∃ msg, e = .err (.ioError msg)) ∨ e = .crash

/-- No store is open on the directory, which holds the layers. -/
def Disk.Rests (p : Prost) (L : Layers) (d : Disk) : Prop := d.locked = false ∧ ∃ junk t, Stored p d L junk t

/-- A lock file, and whether it is held, are no part of the layers. -/
theorem Stored.ofLock (h : Stored p d L junk t) (hf : ∀ n ≠ "LOCK", d'.files[n]? = d.files[n]?) :
    Stored p d' L junk t :=
  { h.toLogStored.frame (hf walName (by decide)) with
    table := fun x hx => by rw [hf _ (sstName_ne_lock _)]; exact h.table x hx
    descending := h.descending
    ids := h.ids
    files := fun name f hname => by
      by_cases hl : name = "LOCK"
      · exact Or.inl hl
      · rw [hf name hl] at hname
        exact h.files name f hname }

/-- **One opening**, whatever fails. It leaves the layers of the directory, and the store it returns agrees
with them unless a look failed. -/
theorem Stored.does_openWithDir (hp : p.Lawful) (h : Stored p d L junk t) (hfree : d.locked = false) :
    Does env (Store.openWithDir p dir) s d
      (fun _ s' d' => (env.Looks → Agrees p s' d' L.reopen [] []) ∧ ∃ junk t, Stored p d' L junk t)
      fun e _ d' => e.IsIo ∧ d'.Rests p L := by
  have hrests : d.Rests p L := ⟨hfree, junk, t, h⟩
  have hlockFile : d.withLockFile.Rests p L :=
    ⟨d.locked_withLockFile.trans hfree, junk, t, h.ofLock fun _ hn => files_lock d hn⟩
  have hlocked : Stored p d.lockedBy L junk t := h.ofLock fun _ hn => d.files_lockedBy hn
  have hload : Does env (do Store.loadSstables; Store.replayWal p) (Store.fresh dir ⟨walName, false⟩) d.lockedBy
      (fun _ s' d' => (env.Looks → Agrees p s' d' L.reopen [] []) ∧ ∃ junk t, Stored p d' L junk t)
      fun e _ d' => e.IsIo ∧ Disk.Rests p L { d' with locked := false } :=
    does_load_faulty hp hlocked rfl (fun _ _ junk' t' hagrees hst => ⟨hagrees, junk', t', hst⟩)
      fun _ _ _ junk' t' he hst => ⟨he.cases, rfl, junk', t', hst.ofLock fun _ _ => rfl⟩
  unfold Store.openWithDir
  refine Does.bind (does_createDirAll ?_ fun e he => ⟨he.cases, hrests⟩)
  refine Does.bind (.ioCall_noEffect ?_ fun e he => ⟨he.cases, hrests⟩)
  refine Does.bind (does_flock_faulty ?_ fun e he => ?_)
  · have hfree' : d.withLockFile.locked = false := hlockFile.1
    unfold Disk.withLockFile at hfree'
    rw [hfree', if_neg (by simp)]
    refine .dropOnStop (Does.bind (Does.bind (.ignoreErr (does_createDirAll ?_ fun e he => ?_))))
    · exact .pure (Does.bind (.setSelf hload))
    · have hstop : e.IsIo ∧ Disk.Rests p L { d.lockedBy with locked := false } :=
        ⟨he.cases, rfl, junk, t, hlocked.ofLock fun _ _ => rfl⟩
      cases e with
      | err e => exact .pure (Does.bind (.setSelf hload))
      | panic => exact hstop
      | crash => exact hstop
  · cases e with
    | err e =>
      rw [if_pos (by simp)]
      exact .throw ⟨Or.inl ⟨_, rfl⟩, hlockFile⟩
    | panic => exact ⟨he.cases, hlockFile⟩
    | crash => exact ⟨he.cases, hlockFile⟩

/-! ## Attempts -/

/-- The directories that attempts to open `d` can leave: each attempt fails, or the process stops in it, or it
gets through and the process stops before it does anything else. -/
inductive Attempts (p : Prost) (dir : String) (d : Disk) : Disk → Prop
  | start : Attempts p dir d d
  | failed {s : Store} {d₁ : Disk} {env : Env} {n : ℕ} {e : Stop} {x : Mem Store} (before : Attempts p dir d d₁)
      (run : Store.openWithDir p dir ⟨s, d₁, env, n⟩ = .error e x) (alive : e ≠ .crash) : Attempts p dir d x.disk
  | crashed {s : Store} {d₁ : Disk} {env : Env} {n : ℕ} {x : Mem Store} (before : Attempts p dir d d₁)
      (run : Store.openWithDir p dir ⟨s, d₁, env, n⟩ = .error .crash x) (keep : FileName → ℕ) :
      Attempts p dir d (x.disk.crash keep)
  | opened {s : Store} {d₁ : Disk} {env : Env} {n : ℕ} {x : Mem Store} (before : Attempts p dir d d₁)
      (run : Store.openWithDir p dir ⟨s, d₁, env, n⟩ = .ok () x) (keep : FileName → ℕ) :
      Attempts p dir d (x.disk.crash keep)

/-- The directory opens, and its keys read as in `m`, now and after any further attempts. An attempt fails with
an I/O error or a crash only, and if it gets through and no look failed, its store reads as `m` too. -/
structure OpensAs (p : Prost) (dir : String) (d : Disk) (m : Bytes → Option Value) : Prop where
  reopens : ∀ d', Attempts p dir d d' → Reopens p dir d' m
  attempt : ∀ d', Attempts p dir d d' → ∀ env s, Does env (Store.openWithDir p dir) s d'
    (fun _ s' d'' => env.Looks → ∀ key, Returns (Store.getValue p key) s' d'' fun r _ _ => r = m key)
    fun e _ _ => e.IsIo

theorem Disk.Rests.crash {keep : FileName → ℕ} (h : Stored p d L junk t) : (d.crash keep).Rests p L := by
  obtain ⟨junk', t', hst⟩ := h.crash keep
  exact ⟨rfl, junk', t', hst⟩

/-- **The invariant of the attempts**: the directory keeps its layers. -/
theorem Attempts.rests (hp : p.Lawful) (h : Attempts p dir d d') (hd : d.Rests p L) : d'.Rests p L := by
  induction h with
  | start => exact hd
  | failed _ hrun _ ih =>
    obtain ⟨hfree, junk, t, hst⟩ := ih
    exact ((hst.does_openWithDir hp hfree).of_error hrun).2
  | crashed _ hrun keep ih =>
    obtain ⟨hfree, junk, t, hst⟩ := ih
    obtain ⟨-, -, junk', t', hst'⟩ := (hst.does_openWithDir hp hfree).of_error hrun
    exact .crash hst'
  | opened _ hrun keep ih =>
    obtain ⟨hfree, junk, t, hst⟩ := ih
    obtain ⟨-, junk', t', hst'⟩ := (hst.does_openWithDir hp hfree).of_ok hrun
    exact .crash hst'

theorem Disk.Rests.opensAs (hp : p.Lawful) (h : d.Rests p L) : OpensAs p dir d L.get where
  reopens d' hattempts := by
    obtain ⟨hfree, junk, t, hst⟩ := hattempts.rests hp h
    exact hst.reopens hp hfree
  attempt d' hattempts env s := by
    obtain ⟨hfree, junk, t, hst⟩ := hattempts.rests hp h
    refine (hst.does_openWithDir hp hfree).mono (fun _ s' d'' hopen hlooks key => ?_) fun _ _ _ he => he.1
    refine does_getValue hp (hopen.1 hlooks).toFollows (fun _ _ => rfl) fun _ he => ?_
    exact absurd he Env.not_faults_quiet

/-! ## After a run -/

/-- Whenever the process stops, the directory opens to the map, with all or none of the operation in flight;
whichever it is, attempts that are cut short do not change it. -/
structure SurvivesOpening (p : Prost) (dir : String) (s : Store) (d : Disk) (m : Bytes → Option Value) : Prop where
  idle : ∀ keep, OpensAs p dir (d.crash keep) m
  inFlight : ∀ op env n x, op ≠ .reopen → env.Spares offLog → StepFits p s d op →
    op.run p dir ⟨s, d, env, n⟩ = .error .crash x →
    ∀ keep, OpensAs p dir (x.disk.crash keep) m ∨ OpensAs p dir (x.disk.crash keep) (op.apply m)

/-- **Recovery can be interrupted.** In every state of a run cut by crashes, however often the next openings
fail or are cut short by further crashes, at whatever call, the directory still opens to what the run left. -/
theorem interrupted_recovery (hp : p.Lawful) (h : CrashRun p dir s d m) : SurvivesOpening p dir s d m := by
  obtain ⟨L, hagrees, rfl⟩ := h.agrees hp
  refine ⟨fun keep => (Disk.Rests.crash hagrees.stored).opensAs hp, fun op env n x hopen henv hfits hrun keep => ?_⟩
  have hop : Does env (op.run p dir) _ _ _ _ := does_op_crash hp hagrees hopen henv (hfits L hagrees.toFollows)
  obtain ⟨L', junk, t, hst, hget⟩ := hop.of_error hrun rfl keep
  have hopens : OpensAs p dir (x.disk.crash keep) L'.get := Disk.Rests.opensAs hp ⟨rfl, junk, t, hst⟩
  exact hget.imp (fun he => by rwa [← he]) fun he => by rwa [← he]

/-- A value, and then whatever happens to the openings. -/
theorem interrupted_recovery_setValue : ∃ s d,
    CrashRun Prost.wire "db" s d (Op.apply (fun _ => none) (.setValue [1] (.integer 5))) ∧
      SurvivesOpening Prost.wire "db" s d (Op.apply (fun _ => none) (.setValue [1] (.integer 5))) := by
  have hopen : Returns (Store.openWithDir Prost.wire "db") (Store.fresh "db" ⟨walName, false⟩) Disk.empty
      fun _ s d => Agrees Prost.wire s d Layers.empty [] [] :=
    does_openWithDir wire_lawful stored_empty rfl fun _ _ h => h
  obtain ⟨_, x, hrun, hagrees⟩ := hopen.run 0
  have hfits : Op.Fits Prost.wire Layers.empty (.setValue [1] (.integer 5)) := by decide +kernel
  have hset : Returns (Op.run Prost.wire "db" _) _ _ _ := returns_op wire_lawful hagrees hfits
  obtain ⟨_, y, hrun', -⟩ := hset.run 0
  have hcrash : CrashRun Prost.wire "db" y.self y.disk _ := .acked (.opened hrun)
    (nofun : Op.setValue [1] (.integer 5) ≠ .reopen) (Env.quiet_spares _)
    (hfits.tablesFit.stepFits wire_lawful hagrees.toFollows) hrun'
  exact ⟨y.self, y.disk, hcrash, interrupted_recovery wire_lawful hcrash⟩

end FerrumDB
