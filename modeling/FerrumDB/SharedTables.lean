import FerrumDB.ByteMaps
import FerrumDB.OneWriter
import FerrumDB.Database.Named

/-!
# Tables that handles share

Handles on one file system open the same tables, in turn: the lock lets one of them have a store on a path,
and the next one starts from the files it leaves. As long as nobody deletes a table, what the files at a
path hold is one byte map, whichever handles write to it and however their steps interleave, and every store
that is open reads as that map (`World.Shared.holds`). So no write of a handle is lost to another one
(`handles_share_tables`).
-/

namespace FerrumDB

variable {p : Prost} {lossy : Path → String} {fs fs' : Fs} {x x' : Handle} {P Q : Path} {dir : Inode}
  {s : Store} {d d' : Disk} {L : Layers} {m : ByteMap} {name : String} {live : OpenStore}

/-! ## Lock files -/

/-- The disks differ in their lock files only. -/
structure SameTables (d d' : Disk) : Prop where
  files : ∀ n, n ≠ "LOCK" → d'.files[n]? = d.files[n]?
  locked : d'.locked = d.locked

theorem SameTables.of_eq (h : d' = d) : SameTables d d' := by
  subst h
  exact ⟨fun _ _ => rfl, rfl⟩

theorem SameTables.tablesStored {tables : List (ℕ × Memtable)} (hd : SameTables d d')
    (h : TablesStored p d tables) : TablesStored p d' tables where
  table x hx := by
    rw [hd.files _ (sstName_ne_lock _)]
    exact h.table x hx
  descending := h.descending
  ids := h.ids
  files n f hn := by
    by_cases hlock : n = "LOCK"
    · exact Or.inl hlock
    · rw [hd.files n hlock] at hn
      exact h.files n f hn

theorem SameTables.wal (hd : SameTables d d') : d'.files[walName]? = d.files[walName]? :=
  hd.files walName (by decide)

theorem SameTables.stored (hd : SameTables d d') (h : Stored p d L [] []) : Stored p d' L [] [] :=
  { hd.tablesStored h.toTablesStored, h.toLogStored.frame hd.wal with }

theorem SameTables.agrees (hd : SameTables d d') (h : Agrees p s d L [] []) : Agrees p s d' L [] [] :=
  { hd.tablesStored h.toTablesStored, h.toImplements, h.toOnLog.frame hd.wal, h.toLogStored.frame hd.wal with
    locked := hd.locked.trans h.locked }

theorem disk_locked (fs : Fs) (P : Path) : (fs.disk P).locked = true := rfl

/-! ## What a step leaves -/

/-- The step opens no store, and leaves the tables of every path as they are. -/
structure LeavesTables (x : Handle) (fs : Fs) (x' : Handle) (fs' : Fs) : Prop where
  root : x'.db.root = x.db.root
  opened : ∀ (name : String) (live : OpenStore), x'.db.opened[name]? = some live → x.db.opened[name]? = some live
  disk : ∀ P, SameTables (fs.disk P) (fs'.disk P)

theorem LeavesTables.quiet (hdb : x'.db = x.db) : LeavesTables x fs x' fs where
  root := by rw [hdb]
  opened _ _ h := by rwa [hdb] at h
  disk _ := .of_eq rfl

theorem disk_of_dirs (hdirs : fs'.dirs[P]? = fs.dirs[P]?)
    (hfiles : ∀ dir, fs.dirs[P]? = some dir → fs'.files dir = fs.files dir) : fs'.disk P = fs.disk P := by
  unfold Fs.disk
  rw [hdirs]
  cases hP : fs.dirs[P]? with
  | none => rfl
  | some dir => dsimp only; rw [hfiles dir hP]

/-- A directory that is made is empty, as was its path. -/
theorem disk_createDirAll (hs : fs.Sound) (Q P : Path) : (fs.createDirAll Q).disk P = fs.disk P := by
  cases hP : fs.dirs[P]? with
  | some dir =>
    obtain ⟨hdir, hfiles⟩ := createDirAll_dir hs Q hP
    rw [disk_of_dir hdir, disk_of_dir hP, hfiles]
  | none =>
    unfold Fs.createDirAll
    split_ifs with hQ
    · rfl
    · unfold Fs.disk
      dsimp only
      rw [hP, Std.ExtTreeMap.getElem?_insert]
      by_cases heq : Q = P
      · rw [if_pos (Std.compare_eq_iff_eq.2 heq)]
        dsimp only
        rw [Function.update_self]
      · rw [if_neg fun h => heq (Std.compare_eq_iff_eq.1 h), hP]

theorem disk_openLock (fs : Fs) (dir : Inode) (P : Path) : SameTables (fs.disk P) ((fs.openLock dir).disk P) := by
  refine ⟨fun n hn => ?_, rfl⟩
  cases hP : fs.dirs[P]? with
  | none =>
    have hP' : (fs.openLock dir).dirs[P]? = none := by rw [dirs_openLock, hP]
    unfold Fs.disk
    rw [hP, hP']
  | some dir' =>
    have hP' : (fs.openLock dir).dirs[P]? = some dir' := by rw [dirs_openLock, hP]
    rw [disk_of_dir hP, disk_of_dir hP']
    cases hf : (fs.files dir)["LOCK"]? with
    | some f => rw [openLock_of_some hf]
    | none =>
      rw [openLock_of_none hf]
      dsimp only
      by_cases heq : dir' = dir
      · rw [heq, Function.update_self, Std.ExtTreeMap.getElem?_insert,
          if_neg fun h => hn (Std.compare_eq_iff_eq.1 h).symm]
      · rw [Function.update_of_ne heq]

/-- An empty directory that is removed leaves nothing, as it held nothing. -/
theorem disk_erase (hdir : fs.dirs[Q]? = some dir) (hempty : (fs.files dir).isEmpty = true) (P : Path) :
    Fs.disk { fs with dirs := fs.dirs.erase Q } P = fs.disk P := by
  by_cases heq : Q = P
  · subst heq
    rw [disk_of_dir hdir, Std.ExtTreeMap.isEmpty_iff.1 hempty]
    unfold Fs.disk
    dsimp only
    rw [Std.ExtTreeMap.getElem?_erase_self]
  · refine disk_of_dirs ?_ fun _ _ => rfl
    dsimp only
    rw [Std.ExtTreeMap.getElem?_erase, if_neg fun h => heq (Std.compare_eq_iff_eq.1 h)]

/-- Only the files at the path change. -/
theorem disk_putDisk (hs : fs.Sound) (hdir : fs.dirs[P]? = some dir) (hd : d.locked = true) (Q : Path) :
    (fs.putDisk P d).disk Q = if Q = P then d else fs.disk Q := by
  rw [putDisk_of_dir hdir]
  split_ifs with heq
  · subst heq
    have hset : (fs.setFiles dir d.files).dirs[Q]? = some dir := hdir
    rw [disk_of_dir hset, files_setFiles_self, ← hd]
  · refine disk_of_dirs rfl fun dir' hQ => files_setFiles_of_ne _ ?_
    rintro rfl
    exact heq (hs.inj Q P dir' hQ hdir)

theorem leaves_close (x : Handle) (fs : Fs) (name : String) :
    LeavesTables x fs (x.close fs name).1 (x.close fs name).2 := by
  unfold Handle.close
  cases hlive : x.db.opened[name]? with
  | none => exact .quiet rfl
  | some live =>
    refine ⟨rfl, fun n l hn => ?_, fun P => .of_eq rfl⟩
    dsimp only at hn
    rw [Std.ExtTreeMap.getElem?_erase] at hn
    split_ifs at hn
    exact hn

theorem LeavesTables.phase {y : Handle} (h : LeavesTables x fs x' fs') (hdb : y.db = x'.db) :
    LeavesTables x fs y fs' where
  root := by rw [hdb, h.root]
  opened n l hn := h.opened n l (by rwa [← hdb])
  disk := h.disk

/-- **Step.** Opening, closing and dropping, but for loading a table, calling it and removing its files. -/
theorem Handle.step_leaves (hs : fs.Sound) (x : Handle) {a : Action} (hload : ∀ env n, a ≠ .load env n)
    (haccess : ∀ name c env n, a ≠ .access name c env n) (hunlink : ∀ file, a ≠ .unlink file) :
    LeavesTables x fs (x.step p lossy fs a).1 (x.step p lossy fs a).2 := by
  unfold Handle.step
  split
  · unfold Handle.createTable
    split
    · exact .quiet rfl
    · split_ifs <;> exact .quiet rfl
  · unfold Handle.table
    split
    · exact .quiet rfl
    · split_ifs <;> exact .quiet rfl
  · unfold Handle.deleteTable
    split
    · exact .quiet rfl
    · split_ifs <;> exact .quiet rfl
  · exact .quiet rfl
  · exact absurd rfl (haccess _ _ _ _)
  · exact ⟨rfl, fun _ _ h => h, fun P => .of_eq (disk_createDirAll hs _ P)⟩
  · split
    · exact ⟨rfl, fun _ _ h => h, fun P => disk_openLock ..⟩
    · exact .quiet rfl
  · exact absurd rfl (hload _ _)
  · exact (leaves_close x fs _).phase rfl
  · split <;> exact .quiet rfl
  · exact absurd rfl (hunlink _)
  · unfold Handle.removeDir
    dsimp only
    split
    · next dir hdir =>
      split_ifs with hempty
      · exact ⟨rfl, fun _ _ h => h, fun P => .of_eq (disk_erase hdir hempty P)⟩
      · exact .quiet rfl
    · exact .quiet rfl
  · exact leaves_close x fs _
  · split_ifs <;> exact .quiet rfl
  · exact .quiet rfl
  · exact .quiet rfl
  · exact .quiet rfl
  · exact .quiet rfl
  · exact .quiet rfl
  · exact .quiet rfl

/-! ## Loading and calling -/

/-- The rest of `open_with_dir`, after the lock was taken. -/
theorem returns_openLocked (hp : p.Lawful) (dirName : String) (h : Stored p d L [] []) (hlocked : d.locked = true) :
    Returns (Store.openLocked p dirName) s d fun _ s' d' => Agrees p s' d' L.reopen [] [] := by
  unfold Store.openLocked Wal.withPath
  refine Does.bind (Does.bind (.ignoreErr (does_createDirAll ?_ fun _ he => absurd he Env.not_faults_quiet)))
  exact .pure (Does.bind (.setSelf (does_load hp h hlocked fun _ _ h' => h')))

/-- The step leaves the disk `d'` at `P` and the store `live` under a name of that path, and nothing else
changes. -/
structure Serves (lossy : Path → String) (x : Handle) (fs : Fs) (x' : Handle) (fs' : Fs) (name : String)
    (live : OpenStore) (d' : Disk) : Prop where
  root : x'.db.root = x.db.root
  opened : ∀ n, x'.db.opened[n]? = if name = n then some live else x.db.opened[n]?
  disk : ∀ Q, fs'.disk Q = if Q = x.db.storePath lossy name then d' else fs.disk Q

/-- **A call that fits** replies what the map does, and leaves a store and files that agree with the next. -/
theorem access_serves (hp : p.Lawful) (hs : fs.Sound) (hx : x.Ok lossy fs) (hlive : x.db.opened[name]? = some live)
    (hm : ∃ L, Table.Holds p L m live.store (fs.disk (x.db.storePath lossy name))) {c : Call}
    (hfits : c.FitsStore p live.store (fs.disk (x.db.storePath lossy name))) (n : ℕ) : ∃ s' d',
      Serves lossy x fs (x.access p lossy fs name c Env.quiet n).1 (x.access p lossy fs name c Env.quiet n).2 name
        { live with store := s' } d' ∧ ∃ L, Table.Holds p L (c.onMap m) s' d' := by
  obtain ⟨dir, -, hdir, -⟩ := hx.lockAt name live hlive
  obtain ⟨L, hagrees, hread⟩ := hm
  obtain ⟨r, y, hrun, -, -, hholds⟩ := (c.answers hp ⟨hagrees, hread⟩ (hfits L hagrees)).run n
  refine ⟨y.self, y.disk, ?_, _, hholds⟩
  have haccess : x.access p lossy fs name c Env.quiet n = (Handle.done
      { x with db := { x.db with opened := x.db.opened.insert name { live with store := y.self } } } (.ok ()),
      fs.putDisk (x.db.storePath lossy name) y.disk) := by
    unfold Handle.access
    rw [hlive]
    dsimp only
    rw [run_eq_discard, discard_ok hrun]
  rw [haccess]
  exact ⟨rfl, fun n => getElem?_insert_name .., disk_putDisk hs hdir hholds.1.locked⟩

/-- **Loading** finds the map, if the lock is free. -/
theorem load_serves (hp : p.Lawful) (hs : fs.Sound) (hx : x.Ok lossy fs) {i : Inode}
    (hphase : x.phase = .flock name i) (hfree : fs.locked i = false)
    (hm : ∃ L, Stored p (fs.disk (x.db.storePath lossy name)) L [] [] ∧ L.get = m.read) (n : ℕ) : ∃ live d',
      Serves lossy x fs (x.load p lossy fs name i Env.quiet n).1 (x.load p lossy fs name i Env.quiet n).2 name live d' ∧
        ∃ L, Table.Holds p L m live.store d' := by
  obtain ⟨dir, f, hdir, hf, hlock⟩ := hx.opening name i hphase
  have hnone : x.db.opened[name]? = none := by
    cases hold : x.db.opened[name]? with
    | none => rfl
    | some old =>
      have heq := (hx.lockAt name old hold).unique ⟨dir, f, hdir, hf, hlock⟩
      have hheld := hx.locked _ (Handle.owns_of_opened hold)
      rw [heq, hfree] at hheld
      cases hheld
  obtain ⟨L, hstored, hread⟩ := hm
  obtain ⟨_, y, hrun, hagrees⟩ := (returns_openLocked hp (x.db.storeDir lossy name) hstored (disk_locked ..)
    (s := Store.fresh (x.db.storeDir lossy name) ⟨walName, false⟩)).run n
  refine ⟨⟨y.self, i⟩, y.disk, ?_, _, hagrees, hread⟩
  have hload : x.load p lossy fs name i Env.quiet n = (Handle.done
      { x with db := { x.db with opened := x.db.opened.insert name ⟨y.self, i⟩ } } (.ok ()),
      (fs.putDisk (x.db.storePath lossy name) y.disk).setLocked i true) := by
    unfold Handle.load
    dsimp only
    rw [if_neg (by rw [hfree]; exact nofun), createDirAll_of_dir hdir, hrun]
    dsimp only
    unfold Handle.insert Handle.close
    rw [hnone]
  rw [hload]
  exact ⟨rfl, fun n => getElem?_insert_name .., disk_putDisk hs hdir hagrees.locked⟩

/-! ## All handles -/

section World

variable {H : Type} [DecidableEq H] {w : World H} {h h' : H} {a : Action} {root : Path} {maps : Path → ByteMap}

/-- The files at the path hold the map, and so does the store that is open on it, if there is one. -/
structure World.Holds (p : Prost) (lossy : Path → String) (w : World H) (P : Path) (m : ByteMap) : Prop where
  stored : ∃ L, Stored p (w.fs.disk P) L [] [] ∧ L.get = m.read
  live : ∀ (h : H) (name : String) (live : OpenStore), (w.handles h).db.opened[name]? = some live →
    (w.handles h).db.storePath lossy name = P → ∃ L, Table.Holds p L m live.store (w.fs.disk P)

/-- What the tables hold after a step of the handle. -/
def Action.onMaps (lossy : Path → String) (x : Handle) (maps : Path → ByteMap) : Action → Path → ByteMap
  | .access name c _ _ =>
    if x.phase = .idle ∧ x.db.opened.contains name then
      Function.update maps (x.db.storePath lossy name) (c.onMap (maps (x.db.storePath lossy name)))
    else maps
  | _ => maps

/-- No file is removed, and calls fit and meet no I/O failure. -/
def Action.Fits (p : Prost) (lossy : Path → String) (x : Handle) (fs : Fs) : Action → Prop
  | .access name c env _ => env = Env.quiet ∧ ∀ live, x.db.opened[name]? = some live →
      c.FitsStore p live.store (fs.disk (x.db.storePath lossy name))
  | .load env _ => env = Env.quiet
  | .unlink _ => False
  | _ => True

/-- The states of all runs of the handles, in any order of steps, in which no file is removed and calls fit,
and what the tables hold. -/
inductive World.Shared (p : Prost) (lossy : Path → String) (root : Path) : World H → (Path → ByteMap) → Prop
  | new : World.Shared p lossy root (World.new root) fun _ => ∅
  | step {w : World H} {maps : Path → ByteMap} {h : H} {a : Action} (before : World.Shared p lossy root w maps)
      (fits : a.Fits p lossy (w.handles h) w.fs) :
      World.Shared p lossy root (w.step p lossy h a) (a.onMaps lossy (w.handles h) maps)

omit [DecidableEq H] in
theorem careful_of_fits (hfits : a.Fits p lossy (w.handles h) w.fs) : w.Careful h a := by
  rintro name dir file f - rfl
  exact hfits.elim

theorem World.Shared.ok (hw : World.Shared p lossy root w maps) : w.Ok lossy := by
  induction hw with
  | new => exact ok_new
  | step _ hfits ih => exact ih.step (careful_of_fits hfits)

omit [DecidableEq H] in
theorem holds_new : (World.new root : World H).Holds p lossy P ∅ := by
  refine ⟨⟨Layers.empty, ?_, by rw [get_empty, read_empty]⟩, fun h name live hn _ => ?_⟩
  · have hnone : Fs.empty.dirs[P]? = none := Std.ExtTreeMap.getElem?_empty
    show Stored p (Fs.empty.disk P) Layers.empty [] []
    unfold Fs.disk
    rw [hnone]
    exact { stored_empty with }
  · have hnone : (∅ : Std.ExtTreeMap String OpenStore)[name]? = none := Std.ExtTreeMap.getElem?_empty
    cases hnone.symm.trans hn

theorem storePath_of_root (h : x'.db.root = x.db.root) (name : String) :
    x'.db.storePath lossy name = x.db.storePath lossy name := by
  unfold Database.storePath Database.storeDir
  rw [h]

/-- A step that leaves the tables. -/
theorem World.Holds.leaves (hm : w.Holds p lossy P m) (hstep : LeavesTables (w.handles h) w.fs
      ((w.handles h).step p lossy w.fs a).1 ((w.handles h).step p lossy w.fs a).2) :
    (w.step p lossy h a).Holds p lossy P m := by
  obtain ⟨⟨L, hstored, hread⟩, hlive⟩ := hm
  refine ⟨⟨L, (hstep.disk P).stored hstored, hread⟩, fun h' name live hn hpath => ?_⟩
  have hbefore : (w.handles h').db.opened[name]? = some live ∧ (w.handles h').db.storePath lossy name = P := by
    by_cases hne : h' = h
    · subst hne
      rw [handles_step_self] at hn hpath
      rw [storePath_of_root hstep.root] at hpath
      exact ⟨hstep.opened name live hn, hpath⟩
    · rw [handles_step_of_ne hne] at hn hpath
      exact ⟨hn, hpath⟩
  obtain ⟨L, hagrees, hread⟩ := hlive h' name live hbefore.1 hbefore.2
  exact ⟨L, (hstep.disk P).agrees hagrees, hread⟩

/-- A step that leaves a store and files of one path; no other store is open there. -/
theorem World.Holds.serves (hm : w.Holds p lossy P m) {m' : ByteMap} {d' : Disk}
    (hstep : Serves lossy (w.handles h) w.fs ((w.handles h).step p lossy w.fs a).1
      ((w.handles h).step p lossy w.fs a).2 name live d') (hm' : ∃ L, Table.Holds p L m' live.store d')
    (halone : ∀ (h' : H) (n : String) (l : OpenStore), (w.handles h').db.opened[n]? = some l →
      (w.handles h').db.storePath lossy n = (w.handles h).db.storePath lossy name → h' = h ∧ n = name) :
    (w.step p lossy h a).Holds p lossy P (if P = (w.handles h).db.storePath lossy name then m' else m) := by
  have hdisk : (w.step p lossy h a).fs.disk P =
      if P = (w.handles h).db.storePath lossy name then d' else w.fs.disk P := hstep.disk P
  by_cases hP : P = (w.handles h).db.storePath lossy name
  · rw [if_pos hP] at hdisk ⊢
    obtain ⟨L, hagrees, hread⟩ := hm'
    refine ⟨⟨L, by rw [hdisk]; exact hagrees.stored, hread⟩, fun h' n l hn hpath => ?_⟩
    rw [hdisk]
    have heq : h' = h ∧ name = n := by
      by_cases hne : h' = h
      · subst hne
        rw [handles_step_self] at hn hpath
        rw [storePath_of_root hstep.root, hP] at hpath
        rw [hstep.opened] at hn
        split_ifs at hn with hname
        · exact ⟨rfl, hname⟩
        · exact ⟨rfl, (halone h' n l hn hpath).2.symm⟩
      · rw [handles_step_of_ne hne] at hn hpath
        exact absurd (halone h' n l hn (hpath.trans hP)).1 hne
    obtain ⟨rfl, rfl⟩ := heq
    rw [handles_step_self, hstep.opened, if_pos rfl] at hn
    cases hn
    exact ⟨L, hagrees, hread⟩
  · rw [if_neg hP] at hdisk ⊢
    refine ⟨by rw [hdisk]; exact hm.stored, fun h' n l hn hpath => ?_⟩
    rw [hdisk]
    by_cases hne : h' = h
    · subst hne
      rw [handles_step_self] at hn hpath
      rw [storePath_of_root hstep.root] at hpath
      rw [hstep.opened] at hn
      split_ifs at hn with hname
      · subst hname
        exact absurd hpath.symm hP
      · exact hm.live h' n l hn hpath
    · rw [handles_step_of_ne hne] at hn hpath
      exact hm.live h' n l hn hpath

omit [DecidableEq H] in
/-- A store on a path whose lock is free is not open. -/
theorem World.Ok.closed_of_free (hw : w.Ok lossy) {i : Inode} (hphase : (w.handles h).phase = .flock name i)
    (hfree : w.fs.locked i = false) {n : String} {l : OpenStore} (hn : (w.handles h').db.opened[n]? = some l) :
    (w.handles h').db.storePath lossy n ≠ (w.handles h).db.storePath lossy name := by
  intro hpath
  have hlock := (hw.handles h').lockAt n l hn
  rw [hpath] at hlock
  have heq := hlock.unique ((hw.handles h).opening name i hphase)
  have hheld := (hw.handles h').locked _ (Handle.owns_of_opened hn)
  rw [heq, hfree] at hheld
  cases hheld

/-- **Step.** The tables hold what the step makes of the maps. -/
theorem World.Holds.step (hp : p.Lawful) (hw : w.Ok lossy) (hfits : a.Fits p lossy (w.handles h) w.fs)
    (hm : ∀ P, w.Holds p lossy P (maps P)) (P : Path) :
    (w.step p lossy h a).Holds p lossy P (a.onMaps lossy (w.handles h) maps P) := by
  cases a with
  | access name c env n =>
    by_cases hphase : (w.handles h).phase = .idle
    · have hstep : (w.handles h).step p lossy w.fs (.access name c env n) =
          (w.handles h).access p lossy w.fs name c env n := by
        unfold Handle.step
        rw [hphase]
      obtain ⟨rfl, hfits⟩ := hfits
      cases hlive : (w.handles h).db.opened[name]? with
      | none =>
        have hmaps : Action.onMaps lossy (w.handles h) maps (.access name c Env.quiet n) = maps :=
          if_neg fun hopen => by rw [Std.ExtTreeMap.contains_eq_isSome_getElem?, hlive] at hopen; cases hopen.2
        rw [hmaps]
        refine (hm P).leaves ?_
        rw [hstep]
        unfold Handle.access
        rw [hlive]
        exact .quiet rfl
      | some live =>
        obtain ⟨s', d', hserves, hm'⟩ := access_serves hp hw.sound (hw.handles h) hlive
          ((hm _).live h name live hlive rfl) (hfits live hlive) n
        have hmaps : Action.onMaps lossy (w.handles h) maps (.access name c Env.quiet n) = Function.update maps
            ((w.handles h).db.storePath lossy name) (c.onMap (maps ((w.handles h).db.storePath lossy name))) :=
          if_pos ⟨hphase, by rw [Std.ExtTreeMap.contains_eq_isSome_getElem?, hlive]; rfl⟩
        rw [hmaps, Function.update_apply]
        refine (hm P).serves (by rw [hstep]; exact hserves) hm' fun h' n' l hn hpath => ?_
        exact hw.alone h' h n' name l live hn hlive hpath
    · have hstep : (w.handles h).step p lossy w.fs (.access name c env n) = (w.handles h, w.fs) := by
        unfold Handle.step
        cases hx : (w.handles h).phase with
        | idle => exact absurd hx hphase
        | _ => rfl
      have hmaps : Action.onMaps lossy (w.handles h) maps (.access name c env n) = maps :=
        if_neg fun hopen => hphase hopen.1
      rw [hmaps]
      exact (hm P).leaves (by rw [hstep]; exact .quiet rfl)
  | load env n =>
    obtain rfl : env = Env.quiet := hfits
    by_cases hphase : ∃ name i, (w.handles h).phase = .flock name i
    · obtain ⟨name, i, hphase⟩ := hphase
      have hstep : (w.handles h).step p lossy w.fs (.load Env.quiet n) =
          (w.handles h).load p lossy w.fs name i Env.quiet n := by
        unfold Handle.step
        rw [hphase]
      cases hlocked : w.fs.locked i with
      | true =>
        refine (hm P).leaves ?_
        rw [hstep]
        unfold Handle.load
        dsimp only
        rw [if_pos hlocked]
        exact .quiet rfl
      | false =>
        obtain ⟨live, d', hserves, hm'⟩ := load_serves hp hw.sound (hw.handles h) hphase hlocked (hm _).stored n
        have hafter := (hm P).serves (by rw [hstep]; exact hserves) hm' fun h' n' l hn hpath =>
          absurd hpath (hw.closed_of_free hphase hlocked hn)
        have hsame : (if P = (w.handles h).db.storePath lossy name then
            maps ((w.handles h).db.storePath lossy name) else maps P) = maps P :=
          ite_eq_right_iff.2 fun hP => by rw [hP]
        rwa [hsame] at hafter
    · refine (hm P).leaves ?_
      have hstep : (w.handles h).step p lossy w.fs (.load Env.quiet n) = (w.handles h, w.fs) := by
        unfold Handle.step
        cases hx : (w.handles h).phase with
        | flock name i => exact absurd ⟨name, i, hx⟩ hphase
        | _ => rfl
      rw [hstep]
      exact .quiet rfl
  | unlink file => exact hfits.elim
  | createTable name => exact (hm P).leaves ((w.handles h).step_leaves hw.sound nofun nofun nofun)
  | table name => exact (hm P).leaves ((w.handles h).step_leaves hw.sound nofun nofun nofun)
  | deleteTable name => exact (hm P).leaves ((w.handles h).step_leaves hw.sound nofun nofun nofun)
  | drop => exact (hm P).leaves ((w.handles h).step_leaves hw.sound nofun nofun nofun)
  | advance => exact (hm P).leaves ((w.handles h).step_leaves hw.sound nofun nofun nofun)
  | fail msg => exact (hm P).leaves ((w.handles h).step_leaves hw.sound nofun nofun nofun)
  | close name => exact (hm P).leaves ((w.handles h).step_leaves hw.sound nofun nofun nofun)

/-- **Run.** In every state the tables hold the maps. -/
theorem World.Shared.holds (hp : p.Lawful) (hw : World.Shared p lossy root w maps) (P : Path) :
    w.Holds p lossy P (maps P) := by
  induction hw generalizing P with
  | new => exact holds_new
  | step before hfits ih => exact World.Holds.step hp before.ok hfits ih P

/-- **Handles share tables, and lose no write to each other**: whatever handles have a table open in turn,
and however their steps interleave, as long as no table is deleted a call that fits replies, on every handle
that has the table open, what the calls of all handles on it make of the empty map. -/
theorem handles_share_tables (hp : p.Lawful) (hw : World.Shared p lossy root w maps)
    (hlive : (w.handles h).db.opened[name]? = some live) {c : Call}
    (hfits : c.FitsStore p live.store (w.fs.disk ((w.handles h).db.storePath lossy name))) :
    Answers (c.reply p) live.store (w.fs.disk ((w.handles h).db.storePath lossy name))
      fun r _ _ => r = c.answer (maps ((w.handles h).db.storePath lossy name)) := by
  obtain ⟨L, hholds⟩ := (hw.holds hp _).live h name live hlive rfl
  exact (c.answers hp hholds (hfits L hholds.1)).mono fun _ _ _ hr => hr.1

end World

/-! ## Two handles in turn -/

/-- A run without calls on tables. -/
theorem shared_run {w : World Bool} {maps : Path → ByteMap} {root : Path} (hw : World.Shared p lossy root w maps)
    (steps : List (Bool × Action)) (hfits : ∀ e ∈ steps, ∀ x fs, e.2.Fits p lossy x fs)
    (hmaps : ∀ e ∈ steps, ∀ x, e.2.onMaps lossy x maps = maps) :
    World.Shared p lossy root (World.run p lossy w steps) maps := by
  induction steps generalizing w with
  | nil => exact hw
  | cons e steps ih =>
    have hstep : World.Shared p lossy root (w.step p lossy e.1 e.2) (e.2.onMaps lossy (w.handles e.1) maps) :=
      hw.step (hfits e (List.mem_cons_self ..) _ _)
    rw [hmaps e (List.mem_cons_self ..)] at hstep
    exact ih hstep (fun e' he' => hfits e' (List.mem_cons_of_mem _ he'))
      fun e' he' => hmaps e' (List.mem_cons_of_mem _ he')

/-- The first handle is dropped, and the second one opens the table. -/
def turnSteps : List (Bool × Action) :=
  [(false, .drop), (false, .close "t"), (false, .advance)] ++ openSteps true "t"

/-- One handle puts a pair, and the other one opens the table after it and reads it. -/
theorem handles_share_tables_in_turn : ∃ (w : World Bool) (maps : Path → ByteMap) (live : OpenStore),
    World.Shared Prost.wire asciiString (pathOf "db") w maps ∧
      (w.handles true).db.opened["t"]? = some live ∧
      Answers ((Call.get [1]).reply Prost.wire) live.store
        (w.fs.disk ((w.handles true).db.storePath asciiString "t")) fun r _ _ => r = .value (some [2]) := by
  let c : Call := .put [1] [2]
  let w₁ := twoHandles (openSteps false "t")
  let w₂ := w₁.step Prost.wire asciiString false (.access "t" c Env.quiet 0)
  have hopened : World.Shared Prost.wire asciiString (pathOf "db") w₁ fun _ => ∅ :=
    shared_run .new (openSteps false "t") (by simp [openSteps, Action.Fits]) (by simp [openSteps, Action.onMaps])
  have hmemory : ((w₁.handles false).db.opened["t"]?.map fun live => decide
      (live.store.sstables.length = 0 ∧ ((w₁.fs.disk (pathOf "db/t")).bytesOf walName).length = 0 ∧
        c.FitsLayers Prost.wire live.store.memory)) = some true := by decide +kernel
  obtain ⟨live, hlive, hfits⟩ := Option.map_eq_some_iff.1 hmemory
  obtain ⟨hnil, hlog, hfits⟩ := of_decide_eq_true hfits
  have hpath : (w₁.handles false).db.storePath asciiString "t" = pathOf "db/t" := by decide +kernel
  have hidle : (w₁.handles false).phase = .idle ∧ (w₁.handles false).db.opened.contains "t" = true := by
    decide +kernel
  have hmaps : Action.onMaps asciiString (w₁.handles false) (fun _ => ∅) (.access "t" c Env.quiet 0) =
      Function.update (fun _ => ∅) (pathOf "db/t") (c.onMap ∅) := by
    unfold Action.onMaps
    dsimp only
    rw [if_pos hidle, hpath]
  have hput : World.Shared Prost.wire asciiString (pathOf "db") w₂
      (Function.update (fun _ => ∅) (pathOf "db/t") (c.onMap ∅)) := by
    rw [← hmaps]
    refine hopened.step ⟨rfl, fun live' hlive' => ?_⟩
    rw [hlive] at hlive'
    cases hlive'
    rw [hpath]
    exact Call.fitsStore_of_memory [] hnil hlog hfits
  have hturn := shared_run hput turnSteps (by simp [turnSteps, openSteps, Action.Fits])
    (by simp [turnSteps, openSteps, Action.onMaps])
  have hpath' : ((World.run Prost.wire asciiString w₂ turnSteps).handles true).db.storePath asciiString "t" =
      pathOf "db/t" := by decide +kernel
  have hopen : ((World.run Prost.wire asciiString w₂ turnSteps).handles true).db.opened.contains "t" = true := by
    decide +kernel
  rw [Std.ExtTreeMap.contains_eq_isSome_getElem?] at hopen
  obtain ⟨live', hlive'⟩ := Option.isSome_iff_exists.1 hopen
  refine ⟨_, _, live', hturn, hlive', ?_⟩
  refine (handles_share_tables (c := .get [1]) wire_lawful hturn hlive'
    fun L _ => Call.fitsLayers_of_reads rfl trivial).mono fun r _ _ hr => hr.trans ?_
  rw [hpath', Function.update_self]
  rfl

end FerrumDB
