import FerrumDB.InterruptedOpening
import FerrumDB.Database.Handles

/-!
# Deletions of a table that are cut short

`delete_table` drops the store and then removes the directory file by file, in the order the file system lists
them. When it stops on the way, a table is left that `table` opens again: the layers whose files were removed are
gone, the others are not (`unlinked_without`, `Stored.without`). A key whose newest file is left reads as before;
any other reads as it did after some shorter run, so a deleted key may be back (`interrupted_deletion`).
-/

namespace FerrumDB

open Overlay

variable {p : Prost} {dir : String} {s : Store} {d : Disk} {L : Layers} {ops : List Op} {key : Bytes} {e : Entry}

/-! ## What is left -/

/-- The directory without the removed files, its lock let go. -/
def Disk.without (d : Disk) (removed : FileName → Bool) : Disk where
  files := d.files.filter fun name _ => !removed name
  locked := false

section Unlink

variable {lossy : Path → String} {x : Handle} {fs : Fs} {name : String} {dir : Inode} {live : OpenStore}

/-- **Step.** A file is removed. -/
theorem step_unlink (hphase : x.phase = .unlink name dir) (file : FileName) :
    x.step p lossy fs (.unlink file) = (x, fs.setFiles dir ((fs.files dir).erase file)) := by
  unfold Handle.step
  rw [hphase]

theorem erase_filter (files : Std.ExtTreeMap FileName File) (file : FileName) (removed : FileName → Bool) :
    (files.erase file).filter (fun n _ => !removed n) = files.filter fun n _ => !(n == file || removed n) := by
  refine Std.ExtTreeMap.ext_getElem? fun n => ?_
  rw [Std.ExtTreeMap.getElem?_filter', Std.ExtTreeMap.getElem?_filter', Std.ExtTreeMap.getElem?_erase]
  by_cases hn : n = file
  · subst hn
    simp
  · rw [if_neg fun h => hn (Std.compare_eq_iff_eq.1 h).symm]
    rw [show (n == file) = false from beq_false_of_ne hn, Bool.false_or]

/-- **Run.** Some files are removed, in any order. -/
theorem steps_unlink (hphase : x.phase = .unlink name dir) (removed : List FileName) (fs : Fs) :
    ∃ fs', x.steps p lossy fs (removed.map .unlink) = (x, fs') ∧ fs'.lock = fs.lock ∧ fs'.locked = fs.locked ∧
      fs'.files dir = (fs.files dir).filter fun n _ => !removed.contains n := by
  unfold Handle.steps
  induction removed generalizing fs with
  | nil =>
    refine ⟨fs, rfl, rfl, rfl, Std.ExtTreeMap.ext_getElem? fun n => ?_⟩
    rw [Std.ExtTreeMap.getElem?_filter']
    cases (fs.files dir)[n]? <;> rfl
  | cons file removed ih =>
    obtain ⟨fs', hrun, hlock, hlocked, hfiles⟩ := ih (fs.setFiles dir ((fs.files dir).erase file))
    refine ⟨fs', ?_, hlock, hlocked, ?_⟩
    · rw [List.map_cons, List.foldl_cons, step_unlink hphase, hrun]
    · rw [hfiles, files_setFiles_self, erase_filter]
      rfl

/-- **The steps of `delete_table`** that drop the store and remove some of the files leave the directory without
these files, and its lock free. -/
theorem unlinked_without (hphase : x.phase = .remove name) (hlive : x.db.opened[name]? = some live)
    (hdir : fs.dirs[joinPath x.db.root name]? = some dir) (hlock : fs.lock dir = live.lock) (removed : List FileName) :
    (x.steps p lossy fs (.advance :: .advance :: removed.map .unlink)).2.dirDisk dir =
      (fs.dirDisk dir).without removed.contains := by
  obtain ⟨y, fs₁, hclose, hroot, hfs₁⟩ : ∃ y fs₁, x.close fs name = (y, fs₁) ∧ y.db.root = x.db.root ∧
      fs₁ = fs.setLocked live.lock false := by
    unfold Handle.close
    rw [hlive]
    exact ⟨_, _, rfl, rfl, rfl⟩
  have h₁ : x.step p lossy fs .advance = ({ y with phase := .removeDirAll name }, fs₁) := by
    unfold Handle.step
    rw [hphase]
    dsimp only
    rw [hclose]
  have h₂ : ({ y with phase := .removeDirAll name } : Handle).step p lossy fs₁ .advance =
      ({ y with phase := .unlink name dir }, fs₁) := by
    unfold Handle.step
    dsimp only
    rw [hroot, hfs₁, show (fs.setLocked live.lock false).dirs = fs.dirs from rfl, hdir]
  have hphase' : ({ y with phase := .unlink name dir } : Handle).phase = .unlink name dir := rfl
  obtain ⟨fs', hrun, hlock', hlocked', hfiles⟩ := steps_unlink hphase' removed fs₁
  have hsteps : x.steps p lossy fs (.advance :: .advance :: removed.map .unlink) =
      ({ y with phase := .unlink name dir }, fs') := by
    rw [← hrun]
    unfold Handle.steps
    rw [List.foldl_cons, h₁, List.foldl_cons, h₂]
  rw [hsteps]
  unfold Fs.dirDisk Disk.without
  dsimp only
  rw [hfiles, hlock', hlocked', hfs₁, show (fs.setLocked live.lock false).lock = fs.lock from rfl, hlock,
    locked_setLocked_self, Bool.and_false]
  rfl

end Unlink

/-- The layers without those whose files were removed. -/
def Layers.without (L : Layers) (removed : FileName → Bool) : Layers :=
  { L with
    data := if removed walName then ∅ else L.data
    log := if removed walName then [] else L.log
    tables := L.tables.filter fun x => !removed (sstName x.1) }

section Without

variable {removed : FileName → Bool}

theorem Disk.files_without (d : Disk) (name : FileName) :
    (d.without removed).files[name]? = d.files[name]?.filter fun _ => !removed name := by
  unfold Disk.without
  rw [Std.ExtTreeMap.getElem?_filter']

theorem Disk.files_without_of_left {name : FileName} (d : Disk) (h : removed name = false) :
    (d.without removed).files[name]? = d.files[name]? := by
  rw [d.files_without]
  cases d.files[name]? <;> simp [h]

theorem Disk.files_without_of_removed {name : FileName} (d : Disk) (h : removed name = true) :
    (d.without removed).files[name]? = none := by
  rw [d.files_without]
  cases d.files[name]? <;> simp [h]

/-- The log is left whole, or it is gone. -/
theorem LogStored.without (h : LogStored p d L.log L.data [] []) :
    LogStored p (d.without removed) (L.without removed).log (L.without removed).data [] [] := by
  unfold Layers.without
  dsimp only
  split_ifs with hlog
  · apply logStored_nil
    unfold Disk.bytesOf
    rw [d.files_without_of_removed hlog]
    rfl
  · exact h.frame (d.files_without_of_left (by simpa using hlog))

/-- What is left of the files holds what is left of the layers. -/
theorem Stored.without (h : Stored p d L [] []) : Stored p (d.without removed) (L.without removed) [] [] :=
  { LogStored.without h.toLogStored with
    table := fun x hx => by
      obtain ⟨hmem, hleft⟩ := List.mem_filter.1 hx
      obtain ⟨f, hf, hholds⟩ := h.table x hmem
      exact ⟨f, (d.files_without_of_left (by simpa using hleft)).trans hf, hholds⟩
    descending := h.descending.filter _
    ids := fun x hx => h.ids x (List.mem_of_mem_filter hx)
    files := fun name f hname => by
      rw [d.files_without, Option.filter_eq_some_iff] at hname
      rcases h.files name f hname.1 with hn | hn | ⟨x, hx, rfl⟩
      · exact .inl hn
      · exact .inr (.inl hn)
      · exact .inr (.inr ⟨x, List.mem_filter.2 ⟨hx, hname.2⟩, rfl⟩) }

/-! ## What its keys read as -/

/-- The newest file that mentions a key. -/
def Layers.source (L : Layers) (key : Bytes) : Option FileName :=
  if (layer L.data key).isSome then some walName
  else (L.tables.find? fun x => (layer x.2 key).isSome).map fun x => sstName x.1

/-- A key whose newest file is left reads as before. -/
theorem get_without (h : ∀ name, L.source key = some name → removed name = false) :
    (L.without removed).get key = L.get key := by
  unfold Layers.source at h
  unfold Layers.get Layers.stack Layers.without
  cases hd : layer L.data key with
  | some e =>
    rw [hd] at h
    have hleft : removed walName = false := h walName rfl
    simp only [hleft, Bool.false_eq_true, if_false]
    rw [resolve_cons_some hd, resolve_cons_some hd]
  | none =>
    rw [hd, Option.isSome_none, if_neg Bool.false_ne_true] at h
    have hnone : layer (if removed walName then ∅ else L.data) key = none := by
      split_ifs
      · exact Std.ExtTreeMap.getElem?_empty
      · exact hd
    rw [resolve_cons_none hd, resolve_cons_none hnone]
    apply resolve_of_first_eq
    apply first_filter
    intro x hx
    simpa using h (sstName x.1) (by rw [hx]; rfl)

/-- Some layer has the entry `e` for the key. -/
def Layers.Mentions (L : Layers) (key : Bytes) (e : Entry) : Prop := ∃ l ∈ L.stack, l key = some e

theorem Layers.Mentions.of_without (h : (L.without removed).Mentions key e) : L.Mentions key e := by
  obtain ⟨l, hl, he⟩ := h
  rcases List.mem_cons.1 hl with rfl | hl
  · refine ⟨_, List.mem_cons_self, ?_⟩
    unfold Layers.without at he
    dsimp only at he
    split_ifs at he
    · cases Std.ExtTreeMap.getElem?_empty.symm.trans he
    · exact he
  · obtain ⟨x, hx, rfl⟩ := List.mem_map.1 hl
    exact ⟨_, List.mem_cons_of_mem _ (List.mem_map_of_mem (List.mem_of_mem_filter hx)), he⟩

end Without

/-- A value that is read is one that some layer mentions. -/
theorem mentions_or_none (L : Layers) (key : Bytes) : L.get key = none ∨ ∃ e, L.Mentions key e ∧ L.get key = e.live := by
  unfold Layers.get resolve
  cases hf : first L.stack key with
  | none => exact .inl rfl
  | some e => exact .inr ⟨e, exists_of_first hf, rfl⟩

/-! ## Where entries come from -/

theorem Layers.Mentions.of_write {b : Batch} (h : (L.write b).Mentions key e) :
    L.Mentions key e ∨ (L.write b).get key = e.live := by
  obtain ⟨l, hl, he⟩ := h
  rcases List.mem_cons.1 hl with rfl | hl
  · exact .inr (resolve_cons_some he)
  · exact .inl ⟨l, List.mem_cons_of_mem _ hl, he⟩

theorem Layers.Mentions.of_compact (h : L.compact.Mentions key e) : L.Mentions key e := by
  obtain ⟨l, hl, he⟩ := h
  rcases List.mem_cons.1 hl with rfl | hl
  · rw [(compact_log L).2] at he
    exact ⟨_, List.mem_cons_self, he⟩
  · unfold Layers.compact at hl
    split_ifs at hl
    · exact ⟨l, List.mem_cons_of_mem _ hl, he⟩
    · cases hl
    · rw [List.map_singleton, List.mem_singleton] at hl
      rw [hl, layer_mergedTables, Option.filter_eq_some_iff] at he
      obtain ⟨l', hl', he'⟩ := exists_of_first he.1
      exact ⟨l', List.mem_cons_of_mem _ hl', he'⟩

theorem Layers.Mentions.of_flush (h : L.flush.Mentions key e) : L.Mentions key e := by
  have htable : L.flushTable.Mentions key e → L.Mentions key e := by
    rintro ⟨l, hl, he⟩
    rcases List.mem_cons.1 hl with rfl | hl
    · cases Std.ExtTreeMap.getElem?_empty.symm.trans he
    · exact ⟨l, hl, he⟩
  unfold Layers.flush Layers.maybeCompact at h
  split_ifs at h
  · exact h
  · exact htable h.of_compact
  · exact htable h

theorem Layers.Mentions.of_commit {b : Batch} (h : (L.commit b).Mentions key e) :
    L.Mentions key e ∨ (L.commit b).get key = e.live := by
  unfold Layers.commit at h ⊢
  rw [get_maybeFlush]
  unfold Layers.maybeFlush at h
  split_ifs at h
  · exact h.of_flush.of_write
  · exact h.of_write

/-- **Step.** An entry is an old one, or what its key reads as now. -/
theorem Layers.Mentions.of_step {op : Op} (h : (op.step L).Mentions key e) :
    L.Mentions key e ∨ (op.step L).get key = e.live := by
  cases op with
  | setValue key' value => exact h.of_commit
  | deleteValue key' => exact h.of_commit
  | commit calls =>
    unfold Op.step at h ⊢
    dsimp only at h ⊢
    split_ifs at h ⊢
    · exact .inl h
    · exact h.of_commit
  | flush => exact .inl h.of_flush
  | compact => exact .inl h.of_compact
  | _ => exact .inl h

theorem get_eq_mapOf (ops : List Op) : (ops.foldl Op.step Layers.empty).get = mapOf ops := by
  rw [get_steps, get_empty]
  rfl

/-- The key held `v` after some first part of the run. -/
def HeldAfter (ops : List Op) (key : Bytes) (v : Option Value) : Prop := ∃ done, done <+: ops ∧ mapOf done key = v

/-- **Run.** Every entry is what its key read as at some time. -/
theorem Layers.Mentions.heldAfter (h : (ops.foldl Op.step Layers.empty).Mentions key e) : HeldAfter ops key e.live := by
  induction ops using List.reverseRecOn with
  | nil =>
    obtain ⟨l, hl, he⟩ := h
    rw [List.mem_singleton.1 hl] at he
    cases Std.ExtTreeMap.getElem?_empty.symm.trans he
  | append_singleton ops op ih =>
    rw [List.foldl_append] at h
    rcases h.of_step with hold | hnow
    · obtain ⟨done, hdone, hv⟩ := ih hold
      exact ⟨done, hdone.trans (List.prefix_append ..), hv⟩
    · refine ⟨ops ++ [op], List.prefix_rfl, ?_⟩
      rw [← get_eq_mapOf, List.foldl_append]
      exact hnow

/-- What the keys of a table read as when its deletion was cut short. -/
structure LeftOver (p : Prost) (dir : String) (ops : List Op) (d : Disk) (L : Layers) (removed : FileName → Bool) :
    Prop where
  opens : Reopens p dir (d.without removed) (L.without removed).get
  held : ∀ key, HeldAfter ops key ((L.without removed).get key)
  same : ∀ key, (∀ name, L.source key = some name → removed name = false) → (L.without removed).get key = mapOf ops key

/-- **An interrupted deletion.** After any run that fits, whichever files the deletion removed before it stopped,
the directory opens, every key reads as it did at some time of the run, and a key whose newest file is left reads
as it last did. -/
theorem interrupted_deletion (hp : p.Lawful) (dir : String) (ops : List Op) (hfits : RunFits p Layers.empty ops)
    (s : Store) : Returns (runOps p dir ops) s Disk.empty fun _ _ d' =>
      ∀ removed, LeftOver p dir ops d' (ops.foldl Op.step Layers.empty) removed := by
  refine (returns_runOps hp ops hfits s).mono (fun _ s' d' h removed => ?_) fun _ _ _ he => he
  refine ⟨h.stored.without.reopens hp rfl, fun key => ?_, fun key hleft => ?_⟩
  · rcases mentions_or_none ((ops.foldl Op.step Layers.empty).without removed) key with hnone | ⟨e, hm, he⟩
    · rw [hnone]
      exact ⟨[], List.nil_prefix, rfl⟩
    · rw [he]
      exact hm.of_without.heldAfter
  · rw [get_without hleft, get_eq_mapOf]

/-- A key in a table, deleted in the log. -/
def deletedLater : List Op := [.setValue [1] (.integer 1), .flush, .deleteValue [1]]

/-- The deletion removes the log and stops: the deleted key is back. -/
theorem interrupted_deletion_deletedLater : RunFits Prost.wire Layers.empty deletedLater ∧
    Returns (runOps Prost.wire "db" deletedLater) (Store.fresh "db" ⟨walName, false⟩) Disk.empty
      (fun _ _ d' => ∀ removed, LeftOver Prost.wire "db" deletedLater d' (deletedLater.foldl Op.step Layers.empty) removed) ∧
    mapOf deletedLater [1] = none ∧
    ((deletedLater.foldl Op.step Layers.empty).without (· == walName)).get [1] = some (.integer 1) := by
  have hfits : RunFits Prost.wire Layers.empty deletedLater := by decide +kernel
  exact ⟨hfits, interrupted_deletion wire_lawful "db" deletedLater hfits _, by decide +kernel, by decide +kernel⟩

end FerrumDB
