import FerrumDB.Store.Methods

/-!
# The lock file is left alone

No method of a store makes a call on the `LOCK` file of its directory, whatever call fails and whatever
the other files hold: the handles of a store are on its log and on table files, and stay there
(`LockIs`, a steady assertion). Loading starts such a store (`does_openLocked`).
-/

namespace FerrumDB

variable {p : Prost} {lock : Option File}

/-- No handle of the store is on the lock file. -/
structure Store.OffLock (s : Store) : Prop where
  wal : s.wal.filePath = walName
  paths : ∀ t ∈ s.sstables, t.path ≠ "LOCK"

/-- Nor does its directory have another lock file than `lock`. -/
structure LockIs (lock : Option File) (s : Store) (d : Disk) : Prop extends s.OffLock where
  file : d.files["LOCK"]? = lock

theorem handles_memtableInsert {s s' : Store} {key : Bytes} {entry : Entry}
    (h : s.memtableInsert key entry = .ok s') : s'.wal = s.wal ∧ s'.sstables = s.sstables := by
  unfold Store.memtableInsert at h
  dsimp only at h
  split at h
  · split at h
    · cases h
    · cases h
      exact ⟨rfl, rfl⟩
  · cases h
    exact ⟨rfl, rfl⟩

theorem Store.OffLock.memtableInsert {s s' : Store} (h : s.OffLock) {key : Bytes} {entry : Entry}
    (hins : s.memtableInsert key entry = .ok s') : s'.OffLock := by
  obtain ⟨hwal, hsst⟩ := handles_memtableInsert hins
  exact ⟨by rw [hwal]; exact h.wal, by rw [hsst]; exact h.paths⟩

theorem steady_lockIs : Steady "LOCK" (LockIs lock) where
  name := offTableNames_lock
  handles _ _ _ _ hpaths h := ⟨⟨h.wal, hpaths⟩, h.file⟩
  files _ _ _ hd h := ⟨h.toOffLock, hd.trans h.file⟩
  paths _ _ h := h.paths
  wal s := {
    path := fun w d h => by
      intro w' d d' hd h'
      have hwal : w.filePath = walName := h.wal
      refine ⟨h'.toOffLock, (hd "LOCK" ?_).trans h'.file⟩
      rw [hwal]
      decide
    file := fun _ _ _ h => ⟨⟨h.wal, h.paths⟩, h.file⟩ }
  sequence _ _ _ h := ⟨⟨h.wal, h.paths⟩, h.file⟩
  insert _ _ _ _ _ hins h := ⟨h.toOffLock.memtableInsert hins, h.file⟩
  clear _ _ h := ⟨⟨h.wal, h.paths⟩, h.file⟩

/-- **Loading** starts a store that is off the lock file, and leaves that file alone if it fails. -/
theorem does_openLocked {env : Env} {s : Store} {d : Disk} {dir : String} (h : d.files["LOCK"]? = lock) :
    Does env (Store.openLocked p dir) s d (fun _ s' d' => LockIs lock s' d') fun _ _ d' =>
      d'.files["LOCK"]? = lock := by
  have hpath : Keeps (fun (_ : Store) d => d.files["LOCK"]? = lock) (Wal.withPath walName) fun w =>
      w = ⟨walName, false⟩ := by
    unfold Wal.withPath
    exact (Keeps.ignoreErr keeps_createDirAll).bind fun _ => .pure rfl
  unfold Store.openLocked
  refine Does.bind ((hpath env s d h).mono (fun w s' d' hw => ?_) fun _ _ _ he => he)
  obtain ⟨hd', rfl⟩ := hw
  refine Does.bind (.setSelf ?_)
  have hfresh : LockIs lock (Store.fresh dir ⟨walName, false⟩) d' := ⟨⟨rfl, nofun⟩, hd'⟩
  exact ((keeps_loadSstables steady_lockIs.toOffTables).bind (fun _ => keeps_replayWal steady_lockIs) env _ d' hfresh).mono
    (fun _ _ _ hr => hr.1) fun _ _ _ he => he.file

end FerrumDB
