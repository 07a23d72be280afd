import FerrumDB.Database.Inodes
import FerrumDB.Store.LockFile
import FerrumDB.Store.Open

/-!
# The steps of a handle

The path of every table that a handle has open leads to the lock file which its store has locked
(`Handle.Ok`). A step keeps that, and spares the tables of the other handles (`Spares`, `Handle.step_ok`),
unless it removes files beside a lock that is held. A handle that runs alone opens a table as
`open_with_dir` does (`steps_openWithDir`).
-/

namespace FerrumDB

open CrashLogic

variable {p : Prost} {lossy : Path → String} {fs fs' : Fs} {x x' : Handle} {P Q : Path} {dir dir' i j : Inode}

/-! ## The invariant -/

/-- A store of the handle holds the lock on the inode. -/
def Handle.Owns (x : Handle) (i : Inode) : Prop :=
  ∃ (name : String) (live : OpenStore), x.db.opened[name]? = some live ∧ live.lock = i

/-- The path of every open table leads to the lock file that its store has locked, and that of a table
which is being opened to the lock file that the handle has opened. -/
structure Handle.Ok (lossy : Path → String) (x : Handle) (fs : Fs) : Prop where
  lockAt : ∀ (name : String) (live : OpenStore), x.db.opened[name]? = some live →
    fs.LockAt (x.db.storePath lossy name) live.lock
  locked : ∀ i, x.Owns i → fs.locked i = true
  offLock : ∀ (name : String) (live : OpenStore), x.db.opened[name]? = some live → live.store.OffLock
  opening : ∀ name i, x.phase = .flock name i → fs.LockAt (x.db.storePath lossy name) i
  apart : ∀ (name name' : String) (live live' : OpenStore), x.db.opened[name]? = some live →
    x.db.opened[name']? = some live' → live.lock = live'.lock → name = name'

/-- What the other handles can rely on while `x` becomes `x'`: the lock files they have locked or opened
stay at their paths, what they have locked stays locked, and the files beside it stay as they are. -/
structure Spares (wanted : Inode → Prop) (x : Handle) (fs : Fs) (x' : Handle) (fs' : Fs) : Prop where
  root : x'.db.root = x.db.root
  lockAt : ∀ P i, fs.LockAt P i → fs.locked i = true ∧ ¬ x.Owns i ∨ wanted i → fs'.LockAt P i
  locked : ∀ i, fs.locked i = true → ¬ x.Owns i → fs'.locked i = true
  gained : ∀ i, x'.Owns i → x.Owns i ∨ fs.locked i = false
  files : ∀ (P : Path) (i dir : Inode), fs.LockAt P i → fs.locked i = true → ¬ x.Owns i →
    fs.dirs[P]? = some dir → fs'.dirs[P]? = some dir ∧ fs'.files dir = fs.files dir

/-- A step that keeps the handle and the file system in order, and spares the others. -/
structure StepOk (lossy : Path → String) (wanted : Inode → Prop) (x : Handle) (fs : Fs) (x' : Handle)
    (fs' : Fs) : Prop extends Spares wanted x fs x' fs' where
  sound : fs'.Sound
  ok : x'.Ok lossy fs'

/-! ## One step -/

section Steps

variable {wanted : Inode → Prop} {name : String}

/-- Only the phase changes, and nothing is about to be locked. -/
theorem Handle.Ok.phase (h : x.Ok lossy fs) (hdb : x'.db = x.db)
    (hphase : ∀ n i, x'.phase = .flock n i → x.phase = .flock n i) : x'.Ok lossy fs where
  lockAt n live hn := by
    rw [hdb] at hn ⊢
    exact h.lockAt n live hn
  locked i hi := by
    unfold Handle.Owns at hi
    rw [hdb] at hi
    exact h.locked i hi
  offLock n live hn := by
    rw [hdb] at hn
    exact h.offLock n live hn
  opening n i hi := by
    rw [hdb]
    exact h.opening n i (hphase n i hi)
  apart n n' live live' hn hn' := by
    rw [hdb] at hn hn'
    exact h.apart n n' live live' hn hn'

theorem Spares.refl (hdb : x'.db = x.db) : Spares wanted x fs x' fs where
  root := by rw [hdb]
  lockAt _ _ h _ := h
  locked _ h _ := h
  gained i hi := by
    unfold Handle.Owns at hi
    rw [hdb] at hi
    exact Or.inl hi
  files _ _ _ _ _ _ h := ⟨h, rfl⟩

/-- A step that leaves the file system alone. -/
theorem StepOk.quiet (hs : fs.Sound) (hx : x.Ok lossy fs) (hdb : x'.db = x.db)
    (hphase : ∀ n i, x'.phase = .flock n i → x.phase = .flock n i) : StepOk lossy wanted x fs x' fs where
  toSpares := .refl hdb
  sound := hs
  ok := hx.phase hdb hphase

/-- The call may return in the same step, or go on. -/
theorem StepOk.phase {y : Handle} (h : StepOk lossy wanted x fs x' fs') (hdb : y.db = x'.db)
    (hphase : ∀ n i, y.phase ≠ .flock n i) : StepOk lossy wanted x fs y fs' where
  root := by rw [hdb, h.root]
  lockAt := h.lockAt
  locked := h.locked
  gained i hi := by
    unfold Handle.Owns at hi
    rw [hdb] at hi
    exact h.gained i hi
  files := h.files
  sound := h.sound
  ok := h.ok.phase hdb fun n i hi => absurd hi (hphase n i)

theorem stepOk_createDirAll (hs : fs.Sound) (hx : x.Ok lossy fs) (Q : Path) :
    StepOk lossy wanted x fs x (fs.createDirAll Q) where
  root := rfl
  lockAt _ _ h _ := h.createDirAll hs Q
  locked i hi _ := by
    rw [locked_createDirAll]
    exact hi
  gained _ hi := Or.inl hi
  files _ _ _ _ _ _ hP := createDirAll_dir hs Q hP
  sound := hs.createDirAll Q
  ok := { hx with
    lockAt := fun n live hn => (hx.lockAt n live hn).createDirAll hs Q
    locked := fun i hi => by
      rw [locked_createDirAll]
      exact hx.locked i hi
    opening := fun n i hi => (hx.opening n i hi).createDirAll hs Q }

theorem stepOk_openLock (hs : fs.Sound) (hx : x.Ok lossy fs)
    (hdir : fs.dirs[x.db.storePath lossy name]? = some dir) :
    StepOk lossy wanted x fs { x with phase := .flock name ((fs.openLock dir).lock dir) } (fs.openLock dir) where
  root := rfl
  lockAt _ _ h _ := h.openLock dir
  locked _ hi _ := hs.locked_openLock dir hi
  gained _ hi := Or.inl hi
  files P i dir' h _ _ hP := by
    obtain ⟨dir'', f, hP', hf, -⟩ := h
    rw [hP] at hP'
    cases hP'
    rw [dirs_openLock]
    exact ⟨hP, files_openLock hf dir⟩
  sound := hs.openLock dir
  ok := {
    lockAt := fun n live hn => (hx.lockAt n live hn).openLock dir
    locked := fun i hi => hs.locked_openLock dir (hx.locked i hi)
    offLock := hx.offLock
    opening := fun n i hi => by
      cases hi
      exact lockAt_openLock hdir
    apart := hx.apart }

theorem Handle.owns_of_opened {live : OpenStore} (h : x.db.opened[name]? = some live) : x.Owns live.lock :=
  ⟨name, live, h, rfl⟩

/-- **Closing** a store gives its lock back. -/
theorem stepOk_close (hs : fs.Sound) (hx : x.Ok lossy fs) (name : String) :
    StepOk lossy wanted x fs (x.close fs name).1 (x.close fs name).2 := by
  unfold Handle.close
  cases hlive : x.db.opened[name]? with
  | none => exact .quiet hs hx rfl fun _ _ h => h
  | some live =>
    have hopened : ∀ (n : String) (l : OpenStore), (x.db.opened.erase name)[n]? = some l →
        n ≠ name ∧ x.db.opened[n]? = some l := by
      intro n l hn
      rw [Std.ExtTreeMap.getElem?_erase] at hn
      split_ifs at hn with heq
      exact ⟨fun h => heq (Std.compare_eq_iff_eq.2 h.symm), hn⟩
    have hother : ∀ i, i ≠ live.lock → fs.locked i = true → (fs.setLocked live.lock false).locked i = true := by
      intro i hi hlocked
      rw [locked_setLocked_of_ne _ hi]
      exact hlocked
    refine ⟨⟨rfl, fun _ _ h _ => h, fun i hi hown => ?_, fun i hi => ?_, fun _ _ _ _ _ _ hP => ⟨hP, rfl⟩⟩,
      hs.setLocked _ _ nofun, ⟨fun n l hn => ?_, fun i hi => ?_, fun n l hn => ?_, hx.opening, ?_⟩⟩
    · refine hother i ?_ hi
      rintro rfl
      exact hown (Handle.owns_of_opened hlive)
    · obtain ⟨n, l, hn, hl⟩ := hi
      exact Or.inl ⟨n, l, (hopened n l hn).2, hl⟩
    · exact hx.lockAt n l (hopened n l hn).2
    · obtain ⟨n, l, hn, rfl⟩ := hi
      obtain ⟨hne, hn⟩ := hopened n l hn
      exact hother _ (fun heq => hne (hx.apart n name l live hn hlive heq)) (hx.locked _ (Handle.owns_of_opened hn))
    · exact hx.offLock n l (hopened n l hn).2
    · intro n n' l l' hn hn'
      exact hx.apart n n' l l' (hopened n l hn).2 (hopened n' l' hn').2

/-- New files beside a lock file that no other handle holds. -/
theorem spares_setFiles {f f' : File} {files : Std.ExtTreeMap FileName File}
    (hf : (fs.files dir)["LOCK"]? = some f) (hfiles : files["LOCK"]? = some f')
    (hmine : fs.locked (fs.lock dir) = true → x.Owns (fs.lock dir)) :
    Spares wanted x fs x (fs.setFiles dir files) where
  root := rfl
  lockAt _ _ h _ := h.setFiles fun _ _ _ => ⟨f', hfiles⟩
  locked _ hi _ := hi
  gained _ hi := Or.inl hi
  files P i dir' h hlocked hown hP := by
    refine ⟨hP, files_setFiles_of_ne _ ?_⟩
    rintro rfl
    obtain ⟨dir'', f'', hP', -, rfl⟩ := h
    rw [hP] at hP'
    cases hP'
    exact hown (hmine hlocked)

theorem ok_setFiles (hx : x.Ok lossy fs) {f' : File} {files : Std.ExtTreeMap FileName File}
    (hfiles : files["LOCK"]? = some f') : x.Ok lossy (fs.setFiles dir files) := { hx with
  lockAt := fun n live hn => (hx.lockAt n live hn).setFiles fun _ _ _ => ⟨f', hfiles⟩
  opening := fun n i hi => (hx.opening n i hi).setFiles fun _ _ _ => ⟨f', hfiles⟩ }

/-- The store of an open table, and its files, change; the lock file stays. -/
theorem stepOk_keep (hs : fs.Sound) (hx : x.Ok lossy fs) {live : OpenStore} (hlive : x.db.opened[name]? = some live)
    (hdir : fs.dirs[x.db.storePath lossy name]? = some dir) {f f' : File}
    (hf : (fs.files dir)["LOCK"]? = some f) {files : Std.ExtTreeMap FileName File}
    (hfiles : files["LOCK"]? = some f') {s : Store} (hoff : s.OffLock) :
    StepOk lossy wanted x fs
      { x with db := { x.db with opened := x.db.opened.insert name { live with store := s } } }
      (fs.setFiles dir files) := by
  have hlock : fs.lock dir = live.lock := Fs.LockAt.unique ⟨dir, f, hdir, hf, rfl⟩ (hx.lockAt name live hlive)
  have hopened : ∀ (n : String) (l : OpenStore),
      (x.db.opened.insert name { live with store := s })[n]? = some l →
        ∃ l', x.db.opened[n]? = some l' ∧ l.lock = l'.lock ∧ l.store.OffLock := by
    intro n l hn
    rw [Std.ExtTreeMap.getElem?_insert] at hn
    split_ifs at hn with heq
    · cases hn
      obtain rfl := Std.compare_eq_iff_eq.1 heq
      exact ⟨live, hlive, rfl, hoff⟩
    · exact ⟨l, hn, rfl, hx.offLock n l hn⟩
  have hspares : Spares wanted x fs x (fs.setFiles dir files) := spares_setFiles hf hfiles fun _ => by
    rw [hlock]
    exact Handle.owns_of_opened hlive
  have hok : x.Ok lossy (fs.setFiles dir files) := ok_setFiles hx hfiles
  refine ⟨{ hspares with gained := fun i hi => ?_ }, hs.setFiles fun _ _ => ⟨f, hf⟩,
    ⟨fun n l hn => ?_, fun i hi => ?_, fun n l hn => ?_, hok.opening, ?_⟩⟩
  · obtain ⟨n, l, hn, rfl⟩ := hi
    obtain ⟨l', hn', hlock', -⟩ := hopened n l hn
    rw [hlock']
    exact Or.inl (Handle.owns_of_opened hn')
  · obtain ⟨l', hn', hlock', -⟩ := hopened n l hn
    rw [hlock']
    exact hok.lockAt n l' hn'
  · obtain ⟨n, l, hn, rfl⟩ := hi
    obtain ⟨l', hn', hlock', -⟩ := hopened n l hn
    rw [hlock']
    exact hok.locked _ (Handle.owns_of_opened hn')
  · obtain ⟨-, -, -, hoff'⟩ := hopened n l hn
    exact hoff'
  · intro n n' l₁ l₂ hn hn' heq
    obtain ⟨l₁', hn₁, hlock₁, -⟩ := hopened n l₁ hn
    obtain ⟨l₂', hn₂, hlock₂, -⟩ := hopened n' l₂ hn'
    exact hx.apart n n' l₁' l₂' hn₁ hn₂ (by rw [← hlock₁, ← hlock₂, heq])

theorem phase_failed (x : Handle) (e : Failure) (n : String) (i : Inode) : (x.failed e).phase ≠ .flock n i := by
  cases e <;> exact nofun

theorem db_failed (x : Handle) (e : Failure) : (x.failed e).db = x.db := by
  cases e <;> rfl

/-- **Calls** on an open table. -/
theorem stepOk_access (hs : fs.Sound) (hx : x.Ok lossy fs) (name : String) (c : Call) (env : Env) (clock : ℕ) :
    StepOk lossy wanted x fs (x.access p lossy fs name c env clock).1 (x.access p lossy fs name c env clock).2 := by
  unfold Handle.access
  cases hlive : x.db.opened[name]? with
  | none => exact .quiet hs hx rfl fun _ _ h => h
  | some live =>
    obtain ⟨dir, f, hdir, hf, -⟩ := hx.lockAt name live hlive
    have hcall := keeps_call (p := p) steady_lockIs c ⟨live.store, fs.disk (x.db.storePath lossy name), env, clock⟩
      (show LockIs (some f) live.store (fs.disk (x.db.storePath lossy name)) from
        ⟨hx.offLock name live hlive, by rw [disk_of_dir hdir]; exact hf⟩)
    have hkeep : ∀ y : Mem Store, LockIs (some f) y.self y.disk → StepOk lossy wanted x fs
        { x with db := { x.db with opened := x.db.opened.insert name { live with store := y.self } } }
        (fs.putDisk (x.db.storePath lossy name) y.disk) := by
      intro y hy
      rw [putDisk_of_dir hdir]
      exact stepOk_keep hs hx hlive hdir hf hy.file hy.toOffLock
    unfold wp at hcall
    dsimp only
    cases hrun : c.run p ⟨live.store, fs.disk (x.db.storePath lossy name), env, clock⟩ with
    | ok r y =>
      rw [hrun] at hcall
      exact (hkeep y hcall).phase rfl nofun
    | error e y =>
      rw [hrun] at hcall
      exact (hkeep y hcall).phase (db_failed _ e) (phase_failed _ e)

/-- A table has been locked and loaded. -/
theorem stepOk_insert (hs : fs.Sound) (hx : x.Ok lossy fs) (hnone : x.db.opened[name]? = none)
    (hdir : fs.dirs[x.db.storePath lossy name]? = some dir) {f f' : File}
    (hf : (fs.files dir)["LOCK"]? = some f) {files : Std.ExtTreeMap FileName File}
    (hfiles : files["LOCK"]? = some f') {s : Store} (hoff : s.OffLock) (hfree : fs.locked (fs.lock dir) = false) :
    StepOk lossy wanted x fs
      { x with db := { x.db with opened := x.db.opened.insert name ⟨s, fs.lock dir⟩ } }
      ((fs.setFiles dir files).setLocked (fs.lock dir) true) := by
  have hopened : ∀ (n : String) (l : OpenStore), (x.db.opened.insert name ⟨s, fs.lock dir⟩)[n]? = some l →
      (n = name ∧ l = ⟨s, fs.lock dir⟩) ∨ n ≠ name ∧ x.db.opened[n]? = some l := by
    intro n l hn
    rw [Std.ExtTreeMap.getElem?_insert] at hn
    split_ifs at hn with heq
    · cases hn
      exact Or.inl ⟨(Std.compare_eq_iff_eq.1 heq).symm, rfl⟩
    · exact Or.inr ⟨fun h => heq (Std.compare_eq_iff_eq.2 h.symm), hn⟩
  have hnew : ∀ i, x.Owns i → i ≠ fs.lock dir := by
    rintro i hi rfl
    rw [hx.locked _ hi] at hfree
    cases hfree
  have hlocked : ∀ i, fs.locked i = true → ((fs.setFiles dir files).setLocked (fs.lock dir) true).locked i = true := by
    intro i hi
    by_cases heq : i = fs.lock dir
    · rw [heq, locked_setLocked_self]
    · rw [locked_setLocked_of_ne _ heq]
      exact hi
  have hspares : Spares wanted x fs x (fs.setFiles dir files) := spares_setFiles hf hfiles fun h => by
    rw [hfree] at h
    cases h
  have hok : x.Ok lossy (fs.setFiles dir files) := ok_setFiles hx hfiles
  refine ⟨⟨rfl, hspares.lockAt, fun i hi _ => hlocked i hi, fun i hi => ?_, hspares.files⟩,
    (hs.setFiles fun _ _ => ⟨f, hf⟩).setLocked _ _ fun _ => hs.lock_lt dir f hf,
    ⟨fun n l hn => ?_, fun i hi => ?_, fun n l hn => ?_, hok.opening, fun n n' l l' hn hn' heq => ?_⟩⟩
  · obtain ⟨n, l, hn, rfl⟩ := hi
    rcases hopened n l hn with ⟨-, rfl⟩ | ⟨-, hold⟩
    · exact Or.inr hfree
    · exact Or.inl (Handle.owns_of_opened hold)
  · rcases hopened n l hn with ⟨rfl, rfl⟩ | ⟨-, hold⟩
    · exact ⟨dir, f', hdir, by rw [← hfiles]; exact congrArg (·["LOCK"]?) (files_setFiles_self files), rfl⟩
    · exact hok.lockAt n l hold
  · obtain ⟨n, l, hn, rfl⟩ := hi
    rcases hopened n l hn with ⟨-, rfl⟩ | ⟨-, hold⟩
    · exact locked_setLocked_self true
    · exact hlocked _ (hx.locked _ (Handle.owns_of_opened hold))
  · rcases hopened n l hn with ⟨-, rfl⟩ | ⟨-, hold⟩
    · exact hoff
    · exact hx.offLock n l hold
  · rcases hopened n l hn with ⟨rfl, rfl⟩ | ⟨-, hold⟩
    · rcases hopened n' l' hn' with ⟨rfl, rfl⟩ | ⟨-, hold'⟩
      · rfl
      · exact absurd heq.symm (hnew _ (Handle.owns_of_opened hold'))
    · rcases hopened n' l' hn' with ⟨rfl, rfl⟩ | ⟨-, hold'⟩
      · exact absurd heq (hnew _ (Handle.owns_of_opened hold))
      · exact hx.apart n n' l l' hold hold' heq

/-- **Locking and loading**: the lock is free, or the call fails. -/
theorem stepOk_load (hs : fs.Sound) (hx : x.Ok lossy fs) (hphase : x.phase = .flock name i) (env : Env)
    (clock : ℕ) :
    StepOk lossy wanted x fs (x.load p lossy fs name i env clock).1 (x.load p lossy fs name i env clock).2 := by
  unfold Handle.load
  dsimp only
  split_ifs with hlocked
  · exact .quiet hs hx rfl nofun
  · obtain ⟨dir, f, hdir, hf, rfl⟩ := hx.opening name i hphase
    have hfree : fs.locked (fs.lock dir) = false := Bool.eq_false_iff.2 hlocked
    have hnone : x.db.opened[name]? = none := by
      cases hold : x.db.opened[name]? with
      | none => rfl
      | some old =>
        have hlock := (hx.lockAt name old hold).unique ⟨dir, f, hdir, hf, rfl⟩
        have hheld := hx.locked _ (Handle.owns_of_opened hold)
        rw [hlock, hfree] at hheld
        cases hheld
    rw [createDirAll_of_dir hdir]
    have hload : Does env (Store.openLocked p (x.db.storeDir lossy name))
        (Store.fresh (x.db.storeDir lossy name) ⟨walName, false⟩) (fs.disk (x.db.storePath lossy name))
        (fun _ s' d' => LockIs (some f) s' d') fun _ _ d' => d'.files["LOCK"]? = some f :=
      does_openLocked (by rw [disk_of_dir hdir]; exact hf)
    have hload := hload clock
    unfold wp at hload
    cases hrun : Store.openLocked p (x.db.storeDir lossy name)
        ⟨Store.fresh (x.db.storeDir lossy name) ⟨walName, false⟩, fs.disk (x.db.storePath lossy name), env, clock⟩ with
    | ok r y =>
      rw [hrun] at hload
      dsimp only
      rw [putDisk_of_dir hdir]
      unfold Handle.insert Handle.close
      rw [hnone]
      exact (stepOk_insert hs hx hnone hdir hf hload.2.file hload.2.toOffLock hfree).phase rfl nofun
    | error e y =>
      rw [hrun] at hload
      dsimp only
      rw [putDisk_of_dir hdir]
      have hfail : StepOk lossy wanted x fs x (fs.setFiles dir y.disk.files) := {
        spares_setFiles hf hload.2 fun h => absurd (h.symm.trans hfree) nofun with
        sound := hs.setFiles fun _ _ => ⟨f, hf⟩
        ok := ok_setFiles hx hload.2 }
      exact hfail.phase (db_failed _ _) (phase_failed _ _)

/-- **Removing a file**, with care. -/
theorem stepOk_unlink (hs : fs.Sound) (hx : x.Ok lossy fs) (hphase : ∀ n i, x.phase ≠ .flock n i) {file : FileName}
    (hfree : ∀ f, (fs.files dir)["LOCK"]? = some f → fs.locked (fs.lock dir) = false)
    (hwanted : file = "LOCK" → ∀ f, (fs.files dir)["LOCK"]? = some f → ¬ wanted (fs.lock dir)) :
    StepOk lossy wanted x fs x (fs.setFiles dir ((fs.files dir).erase file)) := by
  have hlockAt : ∀ P i, fs.LockAt P i → fs.locked i = true ∨ wanted i →
      (fs.setFiles dir ((fs.files dir).erase file)).LockAt P i := by
    intro P i h hi
    refine h.setFiles fun hlock f hf => ⟨f, ?_⟩
    have hfile : file ≠ "LOCK" := by
      intro heq
      rcases hi with hi | hi
      · rw [← hlock, hfree f hf] at hi
        cases hi
      · rw [← hlock] at hi
        exact hwanted heq f hf hi
    rw [Std.ExtTreeMap.getElem?_erase, if_neg fun heq => hfile (Std.compare_eq_iff_eq.1 heq)]
    exact hf
  refine ⟨⟨rfl, fun P i h hi => hlockAt P i h (hi.imp_left And.left), fun _ hi _ => hi, fun _ hi => Or.inl hi, ?_⟩,
    hs.setFiles fun f hf => ?_, { hx with
      lockAt := fun n l hn => hlockAt _ _ (hx.lockAt n l hn) (Or.inl (hx.locked _ (Handle.owns_of_opened hn)))
      opening := fun n i hi => absurd hi (hphase n i) }⟩
  · intro P i dir' h hlocked _ hP
    refine ⟨hP, files_setFiles_of_ne _ ?_⟩
    rintro rfl
    obtain ⟨dir'', f, hP', hf, rfl⟩ := h
    rw [hP] at hP'
    cases hP'
    rw [hfree f hf] at hlocked
    cases hlocked
  · rw [Std.ExtTreeMap.getElem?_erase] at hf
    split_ifs at hf
    exact ⟨f, hf⟩

/-- **Removing the directory** when it is empty. -/
theorem stepOk_removeDir (hs : fs.Sound) (hx : x.Ok lossy fs) (name : String) :
    StepOk lossy wanted x fs (x.removeDir fs name).1 (x.removeDir fs name).2 := by
  unfold Handle.removeDir
  dsimp only
  cases hdir : fs.dirs[joinPath x.db.root name]? with
  | none => exact .quiet hs hx rfl nofun
  | some dir =>
    dsimp only
    split_ifs with hempty
    · have hnone : (fs.files dir)["LOCK"]? = none := by
        rw [Std.ExtTreeMap.isEmpty_iff.1 hempty]
        exact Std.ExtTreeMap.getElem?_empty
      have hkept : ∀ (P : Path) (i : Inode), fs.LockAt P i →
          Fs.LockAt { fs with dirs := fs.dirs.erase (joinPath x.db.root name) } P i := by
        rintro P i ⟨dir', f, hP, hf, hi⟩
        refine ⟨dir', f, dirs_erase_of_ne hP hdir ?_, hf, hi⟩
        rintro rfl
        rw [hnone] at hf
        cases hf
      have hstep : StepOk lossy wanted x fs x { fs with dirs := fs.dirs.erase (joinPath x.db.root name) } := {
        root := rfl
        lockAt := fun P i h _ => hkept P i h
        locked := fun _ hi _ => hi
        gained := fun _ hi => Or.inl hi
        files := fun P i dir' h _ _ hP => by
          obtain ⟨dir'', f, hP', -⟩ := hkept P i h
          have hsame : dir'' = dir' := by
            have hP'' : fs.dirs[P]? = some dir'' := by
              rw [Std.ExtTreeMap.getElem?_erase] at hP'
              split_ifs at hP'
              exact hP'
            rw [hP] at hP''
            exact (Option.some.inj hP'').symm
          rw [hsame] at hP'
          exact ⟨hP', rfl⟩
        sound := hs.erase _
        ok := { hx with
          lockAt := fun n l hn => hkept _ _ (hx.lockAt n l hn)
          opening := fun n i hi => hkept _ _ (hx.opening n i hi) } }
      exact hstep.phase rfl nofun
    · exact .quiet hs hx rfl nofun

/-- The first step of a call looks at paths only. -/
theorem stepOk_createTable (hs : fs.Sound) (hx : x.Ok lossy fs) (name : String) :
    StepOk lossy wanted x fs (x.createTable fs name) fs := by
  unfold Handle.createTable
  split
  · exact .quiet hs hx rfl nofun
  · split_ifs
    · exact .quiet hs hx rfl nofun
    · exact .quiet hs hx rfl nofun

theorem stepOk_table (hs : fs.Sound) (hx : x.Ok lossy fs) (name : String) :
    StepOk lossy wanted x fs (x.table name) fs := by
  unfold Handle.table
  split
  · exact .quiet hs hx rfl nofun
  · split_ifs
    · exact .quiet hs hx rfl nofun
    · exact .quiet hs hx rfl nofun

theorem stepOk_deleteTable (hs : fs.Sound) (hx : x.Ok lossy fs) (name : String) :
    StepOk lossy wanted x fs (x.deleteTable fs name) fs := by
  unfold Handle.deleteTable
  split
  · exact .quiet hs hx rfl nofun
  · split_ifs
    · exact .quiet hs hx rfl nofun
    · exact .quiet hs hx rfl nofun

/-- **Step** of a handle: if it does not remove files beside a lock that is held, nor a lock file that
another handle is about to lock, it spares the others. -/
theorem Handle.step_ok (hs : fs.Sound) (hx : x.Ok lossy fs) (a : Action)
    (hcare : ∀ name dir file f, x.phase = .unlink name dir → a = .unlink file →
      (fs.files dir)["LOCK"]? = some f →
        fs.locked (fs.lock dir) = false ∧ (file = "LOCK" → ¬ wanted (fs.lock dir))) :
    StepOk lossy wanted x fs (x.step p lossy fs a).1 (x.step p lossy fs a).2 := by
  unfold Handle.step
  split
  · exact stepOk_createTable hs hx _
  · exact stepOk_table hs hx _
  · exact stepOk_deleteTable hs hx _
  · exact .quiet hs hx rfl nofun
  · exact stepOk_access hs hx _ _ _ _
  · exact (stepOk_createDirAll hs hx _).phase rfl nofun
  · split
    · next hdir => exact stepOk_openLock hs hx hdir
    · exact .quiet hs hx rfl nofun
  · next hphase => exact stepOk_load hs hx hphase _ _
  · exact (stepOk_close hs hx _).phase rfl nofun
  · split
    · exact .quiet hs hx rfl nofun
    · exact .quiet hs hx rfl nofun
  · next hphase =>
    refine stepOk_unlink hs hx (fun n i h => ?_) (fun f hf => ?_) fun hlock f hf => ?_
    · rw [hphase] at h
      cases h
    · exact (hcare _ _ _ f hphase rfl hf).1
    · exact (hcare _ _ _ f hphase rfl hf).2 hlock
  · exact stepOk_removeDir hs hx _
  · exact stepOk_close hs hx _
  · split_ifs
    · exact .quiet hs hx rfl nofun
    · exact .quiet hs hx rfl fun _ _ h => h
  · exact .quiet hs hx rfl nofun
  · exact .quiet hs hx rfl nofun
  · exact .quiet hs hx rfl nofun
  · exact .quiet hs hx rfl nofun
  · exact .quiet hs hx rfl nofun
  · exact .quiet hs hx rfl fun _ _ h => h

end Steps

/-! ## A handle alone -/

section Alone

variable {name : String}

/-- What `open_with_dir` finds in a directory. -/
def Fs.dirDisk (fs : Fs) (dir : Inode) : Disk where
  files := fs.files dir
  locked := (fs.files dir).contains "LOCK" && fs.locked (fs.lock dir)

theorem openWithDir_quiet (dirName : String) (s : Store) (d : Disk) (n : ℕ) :
    Store.openWithDir p dirName ⟨s, d, Env.quiet, n⟩ =
      if d.locked then .error (.err (.ioError s!"table is already open: {dirName}/LOCK")) ⟨s, d.lockedBy, Env.quiet, n + 3⟩
      else Store.dropOnStop (Store.openLocked p dirName) ⟨s, d.lockedBy, Env.quiet, n + 3⟩ := by
  have hlocked : (if d.files.contains "LOCK" then d else d.put "LOCK" File.empty).locked = d.locked := by
    split_ifs <;> rfl
  have hstart : Store.openWithDir p dirName ⟨s, d, Env.quiet, n⟩ =
      (if !(!(if d.files.contains "LOCK" then d else d.put "LOCK" File.empty).locked) then
        fail (.ioError s!"table is already open: {dirName}/LOCK")
      else Store.dropOnStop (Store.openLocked p dirName)) ⟨s, d.lockedBy, Env.quiet, n + 3⟩ := rfl
  rw [hstart, hlocked, Bool.not_not]
  cases d.locked <;> rfl

theorem lockedBy_dirDisk (hP : fs.dirs[P]? = some dir) :
    (fs.dirDisk dir).lockedBy = (fs.openLock dir).disk P ∧
      (fs.dirDisk dir).locked = (fs.openLock dir).locked ((fs.openLock dir).lock dir) := by
  cases hf : (fs.files dir)["LOCK"]? with
  | some f =>
    have hcontains : (fs.files dir).contains "LOCK" = true := by
      rw [Std.ExtTreeMap.contains_eq_isSome_getElem?, hf]
      rfl
    rw [openLock_of_some hf, disk_of_dir hP]
    unfold Fs.dirDisk Disk.lockedBy
    dsimp only
    rw [hcontains]
    exact ⟨rfl, Bool.true_and _⟩
  | none =>
    have hcontains : (fs.files dir).contains "LOCK" = false := by
      rw [Std.ExtTreeMap.contains_eq_isSome_getElem?, hf]
      rfl
    have hP' : (fs.openLock dir).dirs[P]? = some dir := by
      rw [dirs_openLock]
      exact hP
    rw [disk_of_dir hP', openLock_of_none hf]
    unfold Fs.dirDisk Disk.lockedBy
    dsimp only
    rw [hcontains, Function.update_self, Function.update_self, Function.update_self]
    exact ⟨rfl, rfl⟩

/-- The handle takes these steps, and no other handle takes any. -/
def Handle.steps (p : Prost) (lossy : Path → String) (x : Handle) (fs : Fs) (steps : List Action) : Handle × Fs :=
  steps.foldl (fun r a => r.1.step p lossy r.2 a) (x, fs)

theorem failed_phase (x : Handle) (phase : Phase) (e : Failure) : ({ x with phase }).failed e = x.failed e := by
  cases e <;> rfl

/-- **Opening alone.** The steps of a handle come to `open_with_dir`. -/
theorem steps_openWithDir (hphase : x.phase = .createDirAll name) (hnone : x.db.opened[name]? = none) (n : ℕ) :
    ∃ dir lock, (fs.createDirAll (x.db.storePath lossy name)).dirs[x.db.storePath lossy name]? = some dir ∧
      match Store.openWithDir p (x.db.storeDir lossy name)
        ⟨Store.fresh (x.db.storeDir lossy name) ⟨walName, false⟩,
          (fs.createDirAll (x.db.storePath lossy name)).dirDisk dir, Env.quiet, n⟩ with
      | .ok () y =>
        (x.steps p lossy fs [.advance, .advance, .load Env.quiet (n + 3)]).1.db.opened[name]? = some ⟨y.self, lock⟩ ∧
          (x.steps p lossy fs [.advance, .advance, .load Env.quiet (n + 3)]).2.files dir = y.disk.files
      | .error e y =>
        (x.steps p lossy fs [.advance, .advance, .load Env.quiet (n + 3)]).1 = x.failed (.ofStop e) ∧
          (x.steps p lossy fs [.advance, .advance, .load Env.quiet (n + 3)]).2.files dir = y.disk.files := by
  obtain ⟨dir, hdir⟩ := dirs_createDirAll_self fs (x.db.storePath lossy name)
  obtain ⟨hdisk, hlocked⟩ := lockedBy_dirDisk hdir
  have hdir' : ((fs.createDirAll (x.db.storePath lossy name)).openLock dir).dirs[x.db.storePath lossy name]? = some dir := by
    rw [dirs_openLock]
    exact hdir
  generalize hfs₁ : fs.createDirAll (x.db.storePath lossy name) = fs₁ at *
  have hsteps : x.steps p lossy fs [.advance, .advance, .load Env.quiet (n + 3)] =
      ({ x with phase := .flock name ((fs₁.openLock dir).lock dir) }).load p lossy (fs₁.openLock dir) name
        ((fs₁.openLock dir).lock dir) Env.quiet (n + 3) := by
    have h₁ : x.step p lossy fs .advance = ({ x with phase := .openLock name }, fs₁) := by
      unfold Handle.step
      rw [hphase]
      dsimp only
      rw [hfs₁]
    have h₂ : ({ x with phase := .openLock name } : Handle).step p lossy fs₁ .advance =
        ({ x with phase := .flock name ((fs₁.openLock dir).lock dir) }, fs₁.openLock dir) := by
      unfold Handle.step
      dsimp only
      rw [hdir]
    unfold Handle.steps
    rw [List.foldl_cons, h₁, List.foldl_cons, h₂]
    rfl
  refine ⟨dir, (fs₁.openLock dir).lock dir, hdir, ?_⟩
  rw [openWithDir_quiet, hsteps, hlocked, hdisk]
  unfold Handle.load
  dsimp only
  generalize (fs₁.openLock dir).locked ((fs₁.openLock dir).lock dir) = locked
  cases locked with
  | true =>
    rw [if_pos rfl, if_pos rfl]
    refine ⟨rfl, ?_⟩
    rw [disk_of_dir hdir']
  | false =>
    rw [if_neg (by simp), if_neg (by simp), createDirAll_of_dir hdir']
    unfold Store.dropOnStop
    cases hrun : Store.openLocked p (x.db.storeDir lossy name) ⟨Store.fresh (x.db.storeDir lossy name) ⟨walName, false⟩,
        (fs₁.openLock dir).disk (x.db.storePath lossy name), Env.quiet, n + 3⟩ with
    | ok r y =>
      dsimp only
      unfold Handle.insert Handle.close
      rw [hnone, putDisk_of_dir hdir']
      exact ⟨Std.ExtTreeMap.getElem?_insert_self, files_setFiles_self _⟩
    | error e y =>
      dsimp only
      rw [putDisk_of_dir hdir', failed_phase]
      exact ⟨rfl, files_setFiles_self _⟩

end Alone

end FerrumDB
