import FerrumDB.Database

/-!
# Paths, directories and lock files

What the calls on the file system leave alone. Inodes are never used twice (`Fs.Sound`), so a path that
leads to a lock file goes on doing so while directories and lock files are made elsewhere (`Fs.LockAt`).
-/

namespace FerrumDB

variable {fs fs' : Fs} {P Q : Path} {dir dir' i j : Inode}

/-- Inodes in use are below `next`, and no two paths lead to one directory. -/
structure Fs.Sound (fs : Fs) : Prop where
  dir_lt : ∀ (P : Path) (dir : Inode), fs.dirs[P]? = some dir → dir < fs.next
  lock_lt : ∀ (dir : Inode) (f : File), (fs.files dir)["LOCK"]? = some f → fs.lock dir < fs.next
  locked_lt : ∀ i, fs.locked i = true → i < fs.next
  inj : ∀ (P Q : Path) (dir : Inode), fs.dirs[P]? = some dir → fs.dirs[Q]? = some dir → P = Q

/-- The path leads to a directory whose lock file is the inode `i`. -/
def Fs.LockAt (fs : Fs) (P : Path) (i : Inode) : Prop :=
  ∃ dir f, fs.dirs[P]? = some dir ∧ (fs.files dir)["LOCK"]? = some f ∧ fs.lock dir = i

theorem sound_empty : Fs.empty.Sound where
  dir_lt P dir h := by
    have hnone : Fs.empty.dirs[P]? = none := Std.ExtTreeMap.getElem?_empty
    rw [hnone] at h
    cases h
  lock_lt dir f h := by
    have hnone : (Fs.empty.files dir)["LOCK"]? = none := Std.ExtTreeMap.getElem?_empty
    rw [hnone] at h
    cases h
  locked_lt i h := by cases h
  inj P Q dir h := by
    have hnone : Fs.empty.dirs[P]? = none := Std.ExtTreeMap.getElem?_empty
    rw [hnone] at h
    cases h

/-- A path has one lock file. -/
theorem Fs.LockAt.unique (h : fs.LockAt P i) (h' : fs.LockAt P j) : i = j := by
  obtain ⟨dir, f, hdir, -, rfl⟩ := h
  obtain ⟨dir', f', hdir', -, rfl⟩ := h'
  rw [hdir] at hdir'
  cases hdir'
  rfl

/-! ## Making a directory -/

theorem Fs.Sound.createDirAll (h : fs.Sound) (Q : Path) : (fs.createDirAll Q).Sound := by
  unfold Fs.createDirAll
  split_ifs with hQ
  · exact h
  · have hdirs : ∀ P dir, (fs.dirs.insert Q fs.next)[P]? = some dir →
        (Q = P ∧ dir = fs.next) ∨ fs.dirs[P]? = some dir := by
      intro P dir hP
      rw [Std.ExtTreeMap.getElem?_insert] at hP
      split_ifs at hP with heq
      · cases hP
        exact Or.inl ⟨Std.compare_eq_iff_eq.1 heq, rfl⟩
      · exact Or.inr hP
    refine ⟨fun P dir hP => ?_, fun dir f hf => ?_, fun i hi => Nat.lt_succ_of_lt (h.locked_lt i hi),
      fun P P' dir hP hP' => ?_⟩
    · rcases hdirs P dir hP with ⟨-, rfl⟩ | hP
      · exact Nat.lt_succ_self _
      · exact Nat.lt_succ_of_lt (h.dir_lt P dir hP)
    · by_cases hnew : dir = fs.next
      · subst hnew
        dsimp only at hf
        rw [Function.update_self, Std.ExtTreeMap.getElem?_empty] at hf
        cases hf
      · dsimp only at hf
        rw [Function.update_of_ne hnew] at hf
        exact Nat.lt_succ_of_lt (h.lock_lt dir f hf)
    · rcases hdirs P dir hP with ⟨rfl, rfl⟩ | hP
      · rcases hdirs P' _ hP' with ⟨rfl, -⟩ | hP'
        · rfl
        · exact absurd (h.dir_lt P' _ hP') (Nat.lt_irrefl _)
      · rcases hdirs P' dir hP' with ⟨rfl, rfl⟩ | hP'
        · exact absurd (h.dir_lt P _ hP) (Nat.lt_irrefl _)
        · exact h.inj P P' dir hP hP'

theorem createDirAll_of_dir (h : fs.dirs[P]? = some dir) : fs.createDirAll P = fs := by
  unfold Fs.createDirAll
  rw [Std.ExtTreeMap.contains_eq_isSome_getElem?, h]
  exact if_pos rfl

theorem dirs_createDirAll_self (fs : Fs) (P : Path) : ∃ dir, (fs.createDirAll P).dirs[P]? = some dir := by
  unfold Fs.createDirAll
  split_ifs with hP
  · rw [Std.ExtTreeMap.contains_eq_isSome_getElem?, Option.isSome_iff_exists] at hP
    exact hP
  · exact ⟨_, Std.ExtTreeMap.getElem?_insert_self⟩

/-- Directories that are there are not touched. -/
theorem createDirAll_dir (h : fs.Sound) (Q : Path) (hP : fs.dirs[P]? = some dir) :
    (fs.createDirAll Q).dirs[P]? = some dir ∧ (fs.createDirAll Q).files dir = fs.files dir := by
  unfold Fs.createDirAll
  split_ifs with hQ
  · exact ⟨hP, rfl⟩
  · have hne : ¬ compare Q P = .eq := by
      intro heq
      obtain rfl := Std.compare_eq_iff_eq.1 heq
      rw [Std.ExtTreeMap.contains_eq_isSome_getElem?, hP] at hQ
      exact hQ rfl
    refine ⟨?_, Function.update_of_ne (Nat.ne_of_lt (h.dir_lt P dir hP)) _ _⟩
    dsimp only
    rw [Std.ExtTreeMap.getElem?_insert, if_neg hne]
    exact hP

@[simp] theorem lock_createDirAll (fs : Fs) (Q : Path) : (fs.createDirAll Q).lock = fs.lock := by
  unfold Fs.createDirAll
  split_ifs <;> rfl

@[simp] theorem locked_createDirAll (fs : Fs) (Q : Path) : (fs.createDirAll Q).locked = fs.locked := by
  unfold Fs.createDirAll
  split_ifs <;> rfl

theorem Fs.LockAt.createDirAll (hs : fs.Sound) (h : fs.LockAt P i) (Q : Path) : (fs.createDirAll Q).LockAt P i := by
  obtain ⟨dir, f, hdir, hf, hi⟩ := h
  obtain ⟨hdir', hfiles⟩ := createDirAll_dir hs Q hdir
  refine ⟨dir, f, hdir', ?_, ?_⟩
  · rw [hfiles]
    exact hf
  · rw [lock_createDirAll]
    exact hi

/-! ## Opening the lock file -/

/-- Directories with a lock file are not touched. -/
theorem openLock_of_some {f : File} (hf : (fs.files dir)["LOCK"]? = some f) : fs.openLock dir = fs := by
  unfold Fs.openLock
  rw [Std.ExtTreeMap.contains_eq_isSome_getElem?, hf]
  exact if_pos rfl

theorem openLock_of_none (hf : (fs.files dir)["LOCK"]? = none) : fs.openLock dir = { fs with
    files := Function.update fs.files dir ((fs.files dir).insert "LOCK" File.empty)
    lock := Function.update fs.lock dir fs.next
    locked := Function.update fs.locked fs.next false
    next := fs.next + 1 } := by
  unfold Fs.openLock
  rw [Std.ExtTreeMap.contains_eq_isSome_getElem?, hf]
  exact if_neg (by simp)

theorem Fs.Sound.openLock (h : fs.Sound) (dir : Inode) : (fs.openLock dir).Sound := by
  cases hf : (fs.files dir)["LOCK"]? with
  | some f =>
    rw [openLock_of_some hf]
    exact h
  | none =>
    rw [openLock_of_none hf]
    refine ⟨fun P dir' hP => Nat.lt_succ_of_lt (h.dir_lt P dir' hP), fun dir' f hf' => ?_, fun i hi => ?_, h.inj⟩
    by_cases heq : dir' = dir
    · subst heq
      dsimp only
      rw [Function.update_self]
      exact Nat.lt_succ_self _
    · dsimp only at hf' ⊢
      rw [Function.update_of_ne heq] at hf' ⊢
      exact Nat.lt_succ_of_lt (h.lock_lt dir' f hf')
    · dsimp only at hi ⊢
      by_cases heq : i = fs.next
      · rw [heq]
        exact Nat.lt_succ_self _
      · rw [Function.update_of_ne heq] at hi
        exact Nat.lt_succ_of_lt (h.locked_lt i hi)

/-- An inode that is locked is not the new one. -/
theorem Fs.Sound.locked_openLock (h : fs.Sound) (dir : Inode) (hi : fs.locked i = true) :
    (fs.openLock dir).locked i = true := by
  cases hf : (fs.files dir)["LOCK"]? with
  | some f =>
    rw [openLock_of_some hf]
    exact hi
  | none =>
    rw [openLock_of_none hf]
    dsimp only
    rw [Function.update_of_ne (Nat.ne_of_lt (h.locked_lt i hi))]
    exact hi

theorem files_openLock {f : File} (hf : (fs.files dir')["LOCK"]? = some f) (dir : Inode) :
    (fs.openLock dir).files dir' = fs.files dir' := by
  cases hf' : (fs.files dir)["LOCK"]? with
  | some f' => rw [openLock_of_some hf']
  | none =>
    have hne : dir' ≠ dir := by
      rintro rfl
      rw [hf'] at hf
      cases hf
    rw [openLock_of_none hf']
    exact Function.update_of_ne hne _ _

@[simp] theorem dirs_openLock (fs : Fs) (dir : Inode) : (fs.openLock dir).dirs = fs.dirs := by
  unfold Fs.openLock
  split_ifs <;> rfl

theorem Fs.LockAt.openLock (h : fs.LockAt P i) (dir : Inode) : (fs.openLock dir).LockAt P i := by
  cases hf : (fs.files dir)["LOCK"]? with
  | some f =>
    rw [openLock_of_some hf]
    exact h
  | none =>
    obtain ⟨dir', f', hdir', hf', hi⟩ := h
    have hne : dir' ≠ dir := by
      rintro rfl
      rw [hf'] at hf
      cases hf
    rw [openLock_of_none hf]
    refine ⟨dir', f', hdir', ?_, ?_⟩
    · dsimp only
      rw [Function.update_of_ne hne]
      exact hf'
    · dsimp only
      rw [Function.update_of_ne hne]
      exact hi

/-- What is opened is the lock file at the path. -/
theorem lockAt_openLock (hP : fs.dirs[P]? = some dir) : (fs.openLock dir).LockAt P ((fs.openLock dir).lock dir) := by
  cases hf : (fs.files dir)["LOCK"]? with
  | some f =>
    rw [openLock_of_some hf]
    exact ⟨dir, f, hP, hf, rfl⟩
  | none =>
    rw [openLock_of_none hf]
    refine ⟨dir, File.empty, hP, ?_, rfl⟩
    dsimp only
    rw [Function.update_self]
    exact Std.ExtTreeMap.getElem?_insert_self

/-! ## Locks and files -/

theorem locked_setLocked_of_ne (b : Bool) (h : i ≠ j) : (fs.setLocked j b).locked i = fs.locked i :=
  Function.update_of_ne h _ _

@[simp] theorem locked_setLocked_self (b : Bool) : (fs.setLocked i b).locked i = b := Function.update_self ..

theorem Fs.Sound.setLocked (h : fs.Sound) (i : Inode) (b : Bool) (hi : b = true → i < fs.next) :
    (fs.setLocked i b).Sound := by
  refine ⟨h.dir_lt, h.lock_lt, fun j hj => ?_, h.inj⟩
  by_cases heq : j = i
  · subst heq
    rw [locked_setLocked_self] at hj
    exact hi hj
  · rw [locked_setLocked_of_ne b heq] at hj
    exact h.locked_lt j hj

@[simp] theorem files_setFiles_self (files : Std.ExtTreeMap FileName File) :
    (fs.setFiles dir files).files dir = files := Function.update_self ..

theorem files_setFiles_of_ne (files : Std.ExtTreeMap FileName File) (h : dir' ≠ dir) :
    (fs.setFiles dir files).files dir' = fs.files dir' := Function.update_of_ne h _ _

/-- New files of a directory bring no new lock file. -/
theorem Fs.Sound.setFiles (h : fs.Sound) {files : Std.ExtTreeMap FileName File}
    (hlock : ∀ f, files["LOCK"]? = some f → ∃ f', (fs.files dir)["LOCK"]? = some f') :
    (fs.setFiles dir files).Sound := by
  refine ⟨h.dir_lt, fun dir' f hf => ?_, h.locked_lt, h.inj⟩
  by_cases heq : dir' = dir
  · subst heq
    rw [files_setFiles_self] at hf
    obtain ⟨f', hf'⟩ := hlock f hf
    exact h.lock_lt dir' f' hf'
  · rw [files_setFiles_of_ne _ heq] at hf
    exact h.lock_lt dir' f hf

/-- Nor do they take one away. -/
theorem Fs.LockAt.setFiles (h : fs.LockAt P i) {files : Std.ExtTreeMap FileName File}
    (hlock : fs.lock dir = i → ∀ f, (fs.files dir)["LOCK"]? = some f → ∃ f', files["LOCK"]? = some f') :
    (fs.setFiles dir files).LockAt P i := by
  obtain ⟨dir', f, hdir', hf, hi⟩ := h
  by_cases heq : dir' = dir
  · subst heq
    obtain ⟨f', hf'⟩ := hlock hi f hf
    refine ⟨dir', f', hdir', ?_, hi⟩
    rw [files_setFiles_self]
    exact hf'
  · refine ⟨dir', f, hdir', ?_, hi⟩
    rw [files_setFiles_of_ne _ heq]
    exact hf

theorem disk_of_dir (h : fs.dirs[P]? = some dir) : fs.disk P = ⟨fs.files dir, true⟩ := by
  unfold Fs.disk
  rw [h]

theorem putDisk_of_dir (h : fs.dirs[P]? = some dir) (d : Disk) : fs.putDisk P d = fs.setFiles dir d.files := by
  unfold Fs.putDisk
  rw [h]

/-! ## Removing a directory -/

theorem Fs.Sound.erase (h : fs.Sound) (Q : Path) : Fs.Sound { fs with dirs := fs.dirs.erase Q } := by
  have hdirs : ∀ (P : Path) (dir : Inode), (fs.dirs.erase Q)[P]? = some dir → fs.dirs[P]? = some dir := by
    intro P dir hP
    rw [Std.ExtTreeMap.getElem?_erase] at hP
    split_ifs at hP
    exact hP
  exact ⟨fun P dir hP => h.dir_lt P dir (hdirs P dir hP), h.lock_lt, h.locked_lt, fun P P' dir hP hP' =>
    h.inj P P' dir (hdirs P dir hP) (hdirs P' dir hP')⟩

/-- The path of an empty directory is none of a lock file. -/
theorem dirs_erase_of_ne (hP : fs.dirs[P]? = some dir) (hQ : fs.dirs[Q]? = some dir') (hne : dir ≠ dir') :
    (fs.dirs.erase Q)[P]? = some dir := by
  rw [Std.ExtTreeMap.getElem?_erase, if_neg]
  · exact hP
  · intro heq
    obtain rfl := Std.compare_eq_iff_eq.1 heq
    rw [hP] at hQ
    exact hne (Option.some.inj hQ)

end FerrumDB
