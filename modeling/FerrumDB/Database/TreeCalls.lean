import FerrumDB.Database.Paths

/-!
# The calls on a tree

What each call makes of the directories at the places it names, and that it leaves all others alone.
-/

namespace FerrumDB

variable {t t' : Tree} {cwd place v : Place} {path : Path} {ps : List Place} {d : Disk} {id : Inode}

theorem diskAt_of_dirs (h : t'.dirs[v]? = t.dirs[v]?) : t'.diskAt v = t.diskAt v := by
  unfold Tree.diskAt
  rw [h]

theorem diskAt_of_not_mem (h : v ∉ t.dirs) : t.diskAt v = Disk.empty := by
  unfold Tree.diskAt
  rw [Std.ExtTreeMap.getElem?_eq_none h]
  rfl

theorem mem_of_dirs (h : t'.dirs[v]? = t.dirs[v]?) : v ∈ t'.dirs ↔ v ∈ t.dirs := by
  rw [Std.ExtTreeMap.mem_iff_isSome_getElem?, Std.ExtTreeMap.mem_iff_isSome_getElem?, h]

theorem getElem?_insert_place (dirs : Std.ExtTreeMap Place Dir) (dir : Dir) :
    (dirs.insert place dir)[v]? = if place = v then some dir else dirs[v]? := by
  rw [Std.ExtTreeMap.getElem?_insert]
  simp only [Std.compare_eq_iff_eq]

/-! ## Making directories -/

theorem make_of_mem (h : place ∈ t.dirs) : t.make place = t := if_pos (Std.ExtTreeMap.contains_iff_mem.2 h)

theorem dirs_make_of_not_mem (h : place ∉ t.dirs) :
    (t.make place).dirs = t.dirs.insert place ⟨t.next, Disk.empty⟩ := by
  unfold Tree.make
  rw [if_neg (by rwa [Std.ExtTreeMap.contains_iff_mem])]

theorem mem_make : v ∈ (t.make place).dirs ↔ v = place ∨ v ∈ t.dirs := by
  by_cases h : place ∈ t.dirs
  · rw [make_of_mem h]
    exact (or_iff_right_of_imp fun heq => heq ▸ h).symm
  · rw [dirs_make_of_not_mem h, Std.ExtTreeMap.mem_insert, Std.compare_eq_iff_eq, eq_comm]

/-- A directory that is there, or is not asked for, is left alone. -/
theorem dirs_make (h : v ∈ t.dirs ∨ v ≠ place) : (t.make place).dirs[v]? = t.dirs[v]? := by
  by_cases hplace : place ∈ t.dirs
  · rw [make_of_mem hplace]
  · rw [dirs_make_of_not_mem hplace, getElem?_insert_place, if_neg]
    rintro rfl
    exact h.elim hplace fun hne => hne rfl

theorem diskAt_make : (t.make place).diskAt v = t.diskAt v := by
  by_cases h : v ∈ t.dirs ∨ v ≠ place
  · exact diskAt_of_dirs (dirs_make h)
  · obtain ⟨hv, rfl⟩ : v ∉ t.dirs ∧ v = place := by rwa [not_or, not_not] at h
    rw [diskAt_of_not_mem hv]
    unfold Tree.diskAt
    rw [dirs_make_of_not_mem hv, getElem?_insert_place, if_pos rfl]
    rfl

theorem mem_foldl_make : v ∈ (ps.foldl Tree.make t).dirs ↔ v ∈ ps ∨ v ∈ t.dirs := by
  induction ps generalizing t with
  | nil => simp
  | cons place ps ih => rw [List.foldl_cons, ih, mem_make, List.mem_cons]; tauto

theorem dirs_foldl_make (h : v ∈ t.dirs ∨ v ∉ ps) : (ps.foldl Tree.make t).dirs[v]? = t.dirs[v]? := by
  induction ps generalizing t with
  | nil => rfl
  | cons place ps ih =>
    have hmake : (t.make place).dirs[v]? = t.dirs[v]? :=
      dirs_make (h.imp_right fun hv heq => hv (heq ▸ List.mem_cons_self ..))
    rw [List.foldl_cons, ih, hmake]
    exact h.imp (fun hv => (mem_of_dirs hmake).2 hv) fun hv hps => hv (List.mem_cons_of_mem _ hps)

theorem diskAt_foldl_make : (ps.foldl Tree.make t).diskAt v = t.diskAt v := by
  induction ps generalizing t with
  | nil => rfl
  | cons place ps ih => rw [List.foldl_cons, ih, diskAt_make]

theorem foldl_make_of_mem (h : ∀ v ∈ ps, v ∈ t.dirs) : ps.foldl Tree.make t = t := by
  induction ps with
  | nil => rfl
  | cons place ps ih =>
    rw [List.foldl_cons, make_of_mem (h place (List.mem_cons_self ..))]
    exact ih fun v hv => h v (List.mem_cons_of_mem _ hv)

/-- Whatever it returns, only directories on the way are made. -/
theorem createDirAll_made (t : Tree) (cwd : Place) (path : Path) : ∃ ps : List Place,
    (t.createDirAll cwd path).2 = ps.foldl Tree.make t ∧ ∀ v ∈ ps, v ∈ wayOf cwd path := by
  unfold Tree.createDirAll
  split_ifs
  · exact ⟨[], rfl, nofun⟩
  · exact ⟨[], rfl, nofun⟩
  · exact ⟨[], rfl, nofun⟩
  · dsimp only
    split
    · exact ⟨_, rfl, fun v hv => (List.takeWhile_sublist _).mem hv⟩
    · exact ⟨_, rfl, fun v hv => (List.takeWhile_sublist _).mem hv⟩

theorem createDirAll_eq_ok (hpath : path ≠ []) (h : t.createDirAll cwd path = (.ok (), t')) :
    0 ∉ path ∧ t' = (wayOf cwd path).foldl Tree.make t := by
  unfold Tree.createDirAll at h
  rw [if_neg hpath] at h
  split_ifs at h with hnul
  · cases h
  · cases h
  · dsimp only at h
    split at h
    · next hnone =>
      have hall := List.takeWhile_append_dropWhile (p := fun v => t.dirs.contains v || !t.isFile v)
        (l := wayOf cwd path)
      rw [hnone, List.append_nil] at hall
      cases h
      exact ⟨hnul, by rw [hall]⟩
    · cases h

/-- Nothing is in the way, and only the last directory may be missing. -/
theorem createDirAll_last {way : List Place} (hpath : path ≠ []) (hnul : 0 ∉ path)
    (hway : wayOf cwd path = way ++ [place]) (hstart : startOf cwd path ∈ t.dirs) (hmem : ∀ v ∈ way, v ∈ t.dirs)
    (hfile : t.isFile place = false) : t.createDirAll cwd path = (.ok (), t.make place) := by
  have hfree : ∀ v ∈ wayOf cwd path, (t.dirs.contains v || !t.isFile v) = true := by
    intro v hv
    rw [hway] at hv
    rcases List.mem_append.1 hv with hv | hv
    · simp [Std.ExtTreeMap.contains_iff_mem.2 (hmem v hv)]
    · simp [List.mem_singleton.1 hv, hfile]
  unfold Tree.createDirAll
  rw [if_neg hpath, if_neg hnul, if_neg (by simpa using Std.ExtTreeMap.contains_iff_mem.2 hstart)]
  dsimp only
  rw [List.dropWhile_eq_nil_iff.2 hfree, List.takeWhile_eq_self_iff.2 hfree]
  dsimp only
  rw [hway, List.foldl_concat, foldl_make_of_mem hmem]

theorem createDirAll_nul (hnul : 0 ∈ path) : t.createDirAll cwd path = (.error nulByte, t) := by
  unfold Tree.createDirAll
  rw [if_neg (List.ne_nil_of_mem hnul), if_pos hnul]

/-! ## Looking at paths -/

theorem isDir_iff : t.isDir cwd path = true ↔ path ≠ [] ∧ 0 ∉ path ∧ ∀ v ∈ wayOf cwd path, v ∈ t.dirs := by
  unfold Tree.isDir
  simp only [decide_eq_true_eq, Std.ExtTreeMap.contains_iff_mem]

/-- A path on whose place there is no file. -/
theorem pathExists_iff (hfile : t.isFile (placeOf cwd path) = false) :
    t.pathExists cwd path = true ↔ path ≠ [] ∧ 0 ∉ path ∧ ∀ v ∈ wayOf cwd path, v ∈ t.dirs := by
  unfold Tree.pathExists
  rw [hfile]
  simp only [Bool.false_eq_true, and_false, decide_false, Bool.or_false]
  exact isDir_iff

theorem mem_subdirs {names : List Bytes} (h : t.subdirs cwd path = .ok names) {c : Bytes} :
    c ∈ names ↔ c :: placeOf cwd path ∈ t.dirs := by
  unfold Tree.subdirs at h
  split_ifs at h
  cases h
  rw [List.mem_filterMap]
  constructor
  · rintro ⟨v, hv, hc⟩
    cases v with
    | nil => cases hc
    | cons c' up =>
      dsimp only at hc
      split_ifs at hc with hup
      cases hc
      rw [← hup]
      exact Std.ExtTreeMap.mem_keys.1 hv
  · intro hc
    exact ⟨_, Std.ExtTreeMap.mem_keys.2 hc, if_pos rfl⟩

theorem nodup_subdirs {names : List Bytes} (h : t.subdirs cwd path = .ok names) : names.Nodup := by
  unfold Tree.subdirs at h
  split_ifs at h
  cases h
  refine List.Nodup.filterMap (fun v v' c hc hc' => ?_) t.dirs.nodup_keys
  cases v with
  | nil => cases hc
  | cons x up =>
    cases v' with
    | nil => cases hc'
    | cons x' up' =>
      dsimp only at hc hc'
      split_ifs at hc hc' with hup hup'
      · cases hc
        cases hc'
        rw [hup, hup']
      · cases hc'
      · cases hc
      · cases hc

/-! ## Stores at a place -/

theorem dirs_putDisk_of_ne (h : v ≠ place) : (t.putDisk place d).dirs[v]? = t.dirs[v]? := by
  unfold Tree.putDisk
  split
  · rw [getElem?_insert_place, if_neg fun heq => h heq.symm]
  · split_ifs
    · rfl
    · rw [getElem?_insert_place, if_neg fun heq => h heq.symm]

theorem putDisk_of_mem (h : place ∈ t.dirs) :
    place ∈ (t.putDisk place d).dirs ∧ (t.putDisk place d).diskAt place = d := by
  obtain ⟨dir, hdir⟩ := Option.isSome_iff_exists.1 (Std.ExtTreeMap.mem_iff_isSome_getElem?.1 h)
  unfold Tree.putDisk Tree.diskAt
  rw [hdir]
  dsimp only
  rw [getElem?_insert_place, if_pos rfl]
  exact ⟨Std.ExtTreeMap.mem_insert_self, rfl⟩

theorem dirs_unlock_of_ne (h : v ≠ place) : (t.unlock place id).dirs[v]? = t.dirs[v]? := by
  unfold Tree.unlock
  split
  · split_ifs
    · rw [getElem?_insert_place, if_neg fun heq => h heq.symm]
    · rfl
  · rfl

theorem mem_unlock : v ∈ (t.unlock place id).dirs ↔ v ∈ t.dirs := by
  unfold Tree.unlock
  split
  · next dir hdir =>
    split_ifs
    · rw [Std.ExtTreeMap.mem_insert, Std.compare_eq_iff_eq]
      refine or_iff_right_of_imp ?_
      rintro rfl
      rw [Std.ExtTreeMap.mem_iff_isSome_getElem?, hdir]
      rfl
    · rfl
  · rfl

theorem files_unlock : ((t.unlock place id).diskAt v).files = (t.diskAt v).files := by
  by_cases hv : v = place
  · subst hv
    unfold Tree.unlock
    split
    · next dir hdir =>
      split_ifs
      · unfold Tree.diskAt
        rw [getElem?_insert_place, if_pos rfl, hdir]
        rfl
      · rfl
    · rfl
  · rw [diskAt_of_dirs (dirs_unlock_of_ne hv)]

/-! ## Removing directories -/

theorem removeDirAll_ok (h : t.isDir cwd path = true) : ∃ t', t.removeDirAll cwd path = .ok t' ∧
    (∀ v, placeOf cwd path <:+ v → v ∉ t'.dirs) ∧ ∀ v, ¬ placeOf cwd path <:+ v → t'.dirs[v]? = t.dirs[v]? := by
  refine ⟨_, if_pos h, fun v hv => ?_, fun v hv => ?_⟩
  · rw [Std.ExtTreeMap.mem_iff_isSome_getElem?]
    dsimp only
    rw [Std.ExtTreeMap.getElem?_filter', List.isSuffixOf_iff_suffix.2 hv]
    cases t.dirs[v]? <;> simp
  · dsimp only
    rw [Std.ExtTreeMap.getElem?_filter', Bool.eq_false_iff.2 fun hsuf => hv (List.isSuffixOf_iff_suffix.1 hsuf)]
    cases t.dirs[v]? <;> simp

end FerrumDB
