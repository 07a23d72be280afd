import FerrumDB.Store.FileNames
import FerrumDB.Calls

/-!
# What the table code leaves alone

Reading, writing and removing tables never touches the log or the memtable, whatever the files of the
directory hold and whatever call fails. `Keeps I c` says that the program `c` preserves the assertion
`I` on every way out. Reads keep every assertion; `OffTables kept I` says that `I` is about the file `kept`
and does not depend on the tables, and then compaction, point reads and loading keep it (`keeps_compact`,
`keeps_getValue`, `keeps_loadSstables`).
-/

namespace FerrumDB

variable {σ α β : Type} {I : σ → Disk → Prop} {R : α → Prop} {p : Prost} {name : FileName}

/-- The program preserves `I` in every environment, whether it returns or stops, and what it returns
satisfies `R`. -/
def Keeps (I : σ → Disk → Prop) (c : Prog σ α) (R : α → Prop := fun _ => True) : Prop :=
  ∀ env a d, I a d → Does env c a d (fun r a' d' => I a' d' ∧ R r) fun _ a' d' => I a' d'

/-! ## Program constructors -/

theorem Keeps.pure {r : α} (hr : R r) : Keeps I (pure r) R := by
  intro env a d h
  exact Does.pure ⟨h, hr⟩

theorem Keeps.throw {e : Stop} : Keeps I (throw e : Prog σ α) R := by
  intro env a d h
  exact Does.throw h

theorem Keeps.seq {R' : β → Prop} {c : Prog σ β} {f : β → Prog σ α} (hc : Keeps I c R')
    (hf : ∀ r, R' r → Keeps I (f r) R) : Keeps I (c >>= f) R := by
  intro env a d h
  refine Does.bind ((hc env a d h).mono ?_ fun _ _ _ he => he)
  intro r a' d' hr
  exact hf r hr.2 env a' d' hr.1

theorem Keeps.bind {c : Prog σ β} {f : β → Prog σ α} (hc : Keeps I c) (hf : ∀ r, Keeps I (f r) R) :
    Keeps I (c >>= f) R := hc.seq fun r _ => hf r

theorem Keeps.ofStop (x : Except Stop α) : Keeps I (ofStop x) := by
  cases x with
  | ok r => exact .pure trivial
  | error e => exact .throw

theorem Keeps.ofExcept (x : Except AppError α) : Keeps I (ofExcept x) := by
  cases x with
  | ok r => exact .pure trivial
  | error e => exact .throw

/-- A program that begins by reading the receiver. -/
theorem Keeps.withSelf {f : σ → Prog σ α}
    (h : ∀ env a d, I a d → Does env (f a) a d (fun r a' d' => I a' d' ∧ R r) fun _ a' d' => I a' d') :
    Keeps I (self >>= f) R := by
  intro env a d ha
  exact .withSelf (h env a d ha)

/-- An ignored failure keeps what the program keeps. -/
theorem Keeps.ignoreErr {c : Prog σ α} (h : Keeps I c) : Keeps I (ignoreErr c) := by
  intro env a d ha
  refine Does.ignoreErr ((h env a d ha).mono (fun _ _ _ hr => ⟨hr.1, trivial⟩) ?_)
  intro e a' d' he
  cases e with
  | err e => exact ⟨he, trivial⟩
  | panic => exact he
  | crash => exact he

/-! ## Calls -/

/-- A call that keeps the disk keeps every assertion. -/
theorem keeps_read {c : IoCall} {act : Disk → Except String α × Disk} (hact : ∀ d, (act d).2 = d) :
    Keeps I (ioCall c noEffect act) := by
  intro env a d h
  refine .ioCall_noEffect ?_ fun _ _ => h
  have hd := hact d
  generalize act d = x at hd
  obtain ⟨r, d'⟩ := x
  obtain rfl : d' = d := hd
  cases r with
  | ok r => exact ⟨h, trivial⟩
  | error msg => exact h

theorem keeps_createDirAll : Keeps I createDirAll := keeps_read fun _ => rfl

theorem keeps_openRead : Keeps I (openRead name) := keeps_read fun _ => rfl

theorem keeps_fileLen : Keeps I (fileLen name) := keeps_read fun d => by
  split <;> rfl

theorem keeps_readExactAt {offset len : ℕ} : Keeps I (readExactAt name offset len) := keeps_read fun d => by
  split
  · split_ifs <;> rfl
  · rfl

theorem keeps_readToEnd : Keeps I (readToEnd name) := keeps_read fun d => by
  split <;> rfl

theorem keeps_openWrite : Keeps I (openWrite name) := keeps_read fun _ => rfl

theorem keeps_pathExists : Keeps I (pathExists name) := by
  intro env a d h clock
  have hread : Keeps I (ioCall ⟨.exists, name⟩ noEffect fun d => (.ok (d.files.contains name), d)) :=
    keeps_read fun _ => rfl
  have hcall := hread env a d h clock
  unfold CrashLogic.wp pathExists at *
  cases hr : ioCall ⟨.exists, name⟩ noEffect (fun d => (.ok (d.files.contains name), d))
      (⟨a, d, env, clock⟩ : Mem σ) with
  | ok b s' => rw [hr] at hcall; exact hcall
  | error e s' =>
    rw [hr] at hcall
    cases e with
    | err e => exact ⟨hcall.1, hcall.2, trivial⟩
    | panic => exact hcall
    | crash => exact hcall

/-- The assertion does not depend on the file. -/
def Ignores (I : σ → Disk → Prop) (name : FileName) : Prop :=
  ∀ a d d', (∀ n ≠ name, d'.files[n]? = d.files[n]?) → I a d → I a d'

theorem files_put_of_ne {d : Disk} {f : File} : ∀ n ≠ name, (d.put name f).files[n]? = d.files[n]? := by
  intro n hn
  rw [Disk.files_put, if_neg (Ne.symm hn)]

theorem files_append_of_ne {d : Disk} {bs : Bytes} :
    ∀ n ≠ name, (d.append name bs).files[n]? = d.files[n]? := by
  intro n hn
  unfold Disk.append
  cases d.files[name]? with
  | none => rfl
  | some f => exact files_put_of_ne n hn

theorem keeps_openTruncate (hI : Ignores I name) : Keeps I (openTruncate name) := by
  intro env a d h
  exact does_openTruncate ⟨hI a d _ files_put_of_ne h, trivial⟩ fun _ _ => h

theorem keeps_writeAll (hI : Ignores I name) (bs : Bytes) : Keeps I (writeAll name bs) := by
  intro env a d h
  refine .ioCall ?_ fun n f _ => ?_
  · have happ : I a (d.append name bs) := hI a d _ files_append_of_ne h
    cases d.files[name]? with
    | none => exact h
    | some f =>
      dsimp only
      split_ifs
      · exact ⟨happ, trivial⟩
      · exact happ
  · cases f <;> exact hI a d _ files_append_of_ne h

theorem keeps_syncAll (hI : Ignores I name) : Keeps I (syncAll name) := by
  intro env a d h
  refine .ioCall_noEffect ?_ fun _ _ => h
  cases d.files[name]? with
  | none => exact h
  | some f => exact ⟨hI a d _ files_put_of_ne h, trivial⟩

theorem keeps_setLen (hI : Ignores I name) (n : ℕ) : Keeps I (setLen name n) := by
  intro env a d h
  refine .ioCall_noEffect ?_ fun _ _ => h
  cases d.files[name]? with
  | none => exact h
  | some f => exact ⟨hI a d _ files_put_of_ne h, trivial⟩

theorem keeps_removeFile (hI : Ignores I name) : Keeps I (removeFile name) := by
  intro env a d h
  refine .ioCall_noEffect ?_ fun _ _ => h
  dsimp only
  split_ifs
  · refine ⟨hI a d _ (fun n hn => ?_) h, trivial⟩
    rw [Std.ExtTreeMap.getElem?_erase, if_neg]
    rw [Std.compare_eq_iff_eq]
    exact Ne.symm hn
  · exact h

/-! ## The log -/

/-- Recovery changes the log file and its handle at most, whatever the file holds. -/
theorem keeps_readForRecovery {I : Wal → Disk → Prop} (hI : ∀ w d, I w d → Ignores I w.filePath)
    (hclose : ∀ w d, I w d → I { w with file := false } d) : Keeps I (Wal.readForRecovery p) := by
  have hfile : Keeps I Wal.readFile := by
    unfold Wal.readFile
    refine .withSelf ?_
    intro env w d hw
    refine keeps_pathExists.bind (fun b => ?_) env w d hw
    split_ifs
    · exact keeps_openRead.bind fun _ => keeps_readToEnd.bind fun _ => .pure trivial
    · exact .pure trivial
  unfold Wal.readForRecovery
  refine hfile.bind fun r => ?_
  cases r with
  | none => exact .pure trivial
  | some buffer =>
    refine (Keeps.ofStop _).bind fun r => ?_
    obtain ⟨entries, committedCount, committedEnd⟩ := r
    refine .withSelf ?_
    intro env w d hw
    dsimp only
    split_ifs
    · have hboth : Ignores (fun w' d' => I w' d' ∧ I { w with file := false } d') w.filePath := by
        intro w' d d' hd h
        exact ⟨hI w _ hw w' d d' hd h.1, hI w _ hw _ d d' hd h.2⟩
      have hcut : Keeps (fun w' d' => I w' d' ∧ I { w with file := false } d') (do
          openWrite w.filePath
          setLen w.filePath committedEnd
          syncAll w.filePath
          setSelf { w with file := false }
          return entries.take committedCount) := by
        refine keeps_openWrite.bind fun _ => (keeps_setLen hboth _).bind fun _ => ?_
        refine (keeps_syncAll hboth).bind fun _ => ?_
        intro env w' d' h
        exact Does.bind (.setSelf (.pure ⟨⟨h.2, h.2⟩, trivial⟩))
      refine (hcut env w d ⟨hw, hclose w d hw⟩).mono (fun _ _ _ h => ?_) fun _ _ _ h => h.1
      exact ⟨h.1.1, trivial⟩
    · exact .pure ⟨hw, trivial⟩

/-! ## Tables -/

theorem keeps_sstFlush (hI : Ignores I name) (entries : List (Bytes × Entry)) :
    Keeps I (SsTable.flush p name entries) fun t => t.path = name := by
  unfold SsTable.flush
  refine keeps_createDirAll.bind fun _ => (keeps_openTruncate hI).bind fun _ => ?_
  exact (keeps_writeAll hI _).bind fun _ => (keeps_syncAll hI).bind fun _ => .pure rfl

theorem keeps_open : Keeps I (SsTable.open name) fun t => t.path = name := by
  unfold SsTable.open
  refine keeps_openRead.bind fun _ => keeps_fileLen.bind fun len => ?_
  split_ifs
  · exact .throw
  · refine keeps_readExactAt.bind fun footer => ?_
    dsimp only
    split_ifs
    · exact .throw
    · exact .throw
    · exact .throw
    · refine keeps_readExactAt.bind fun buf => (Keeps.ofExcept _).bind fun r => ?_
      exact (Keeps.ofExcept _).bind fun r => .pure rfl

theorem keeps_readBlockFromDisk (e : IndexEntry) : Keeps I (readBlockFromDisk name e) := by
  unfold readBlockFromDisk
  exact keeps_readExactAt.bind fun block => .ofStop _

theorem keeps_readBlocks (index : List IndexEntry) (out : List (Bytes × Entry)) :
    Keeps I (readBlocks p name index out) := by
  induction index generalizing out with
  | nil => exact .pure trivial
  | cons e index ih =>
    unfold readBlocks
    exact (keeps_readBlockFromDisk e).bind fun records => (Keeps.ofExcept _).bind fun out => ih out

theorem keeps_readAllEntries (t : SsTable) : Keeps I (t.readAllEntries p) := by
  unfold SsTable.readAllEntries
  split_ifs
  · exact .pure trivial
  · exact keeps_openRead.bind fun _ => keeps_readBlocks _ _

/-- A point read changes the cache of the handle at most. -/
theorem keeps_get {I : SsTable → Disk → Prop} (hI : ∀ t d c, I t d → I { t with cache := c } d) (key : Bytes) :
    Keeps I (SsTable.get p key) := by
  have hblock : ∀ e, Keeps I (SsTable.cachedBlock e) := by
    intro e
    unfold SsTable.cachedBlock
    refine .withSelf ?_
    intro env t d ht
    cases t.cache.get e.blockOffset with
    | mk hit cache =>
      cases hit with
      | some bytes => exact Does.bind (.setSelf (.pure ⟨hI t d cache ht, trivial⟩))
      | none =>
        refine keeps_openRead.bind (fun _ => (keeps_readBlockFromDisk e).bind fun records => ?_) env t d ht
        intro env t d ht
        exact Does.bind (.modifySelf (.pure ⟨hI t d _ ht, trivial⟩))
  unfold SsTable.get
  refine .withSelf ?_
  intro env t d ht
  split_ifs
  · exact .pure ⟨ht, trivial⟩
  · exact .pure ⟨ht, trivial⟩
  · refine (Keeps.ofStop _).bind (fun b => ?_) env t d ht
    split_ifs
    · exact .pure trivial
    · cases t.locate key with
      | none => exact .pure trivial
      | some e => exact (hblock e).bind fun records => .ofExcept _

/-! ## The store -/

/-- The assertion depends neither on the handles, as long as none is on the file `kept`, nor on the
files other than it, and `kept` is not named as a table. -/
structure OffTables (kept : FileName) (I : Store → Disk → Prop) : Prop where
  name : OffTableNames kept
  handles : ∀ s d hs n, (∀ t ∈ hs, t.path ≠ kept) → I s d →
    I { s with sstables := hs, nextSstableId := n } d
  files : ∀ s d d', d'.files[kept]? = d.files[kept]? → I s d → I s d'
  paths : ∀ s d, I s d → ∀ t ∈ s.sstables, t.path ≠ kept

variable {I : Store → Disk → Prop} {kept : FileName}

theorem OffTables.ignores (h : OffTables kept I) (hname : name ≠ kept) : Ignores I name := by
  intro s d d' hd hs
  exact h.files s d d' (hd kept hname.symm) hs

theorem keeps_mergeFrom (tables : List SsTable) (merged : Memtable) :
    Keeps I (Store.mergeFrom p tables merged) := by
  induction tables generalizing merged with
  | nil => exact .pure trivial
  | cons t tables ih =>
    unfold Store.mergeFrom
    exact (keeps_readAllEntries t).bind fun entries => ih _

theorem keeps_mergeTables : Keeps I (Store.mergeTables p) := by
  unfold Store.mergeTables
  refine .withSelf ?_
  intro env s d hs
  exact (keeps_mergeFrom _ _).bind (fun merged => .pure trivial) env s d hs

theorem keeps_installMerged (hI : OffTables kept I) (merged : Memtable) :
    Keeps I (Store.installMerged p merged) := by
  unfold Store.installMerged
  refine .withSelf ?_
  intro env s d hs
  split_ifs
  · exact .setSelf ⟨hI.handles s d [] s.nextSstableId nofun hs, trivial⟩
  · have hflush : Keeps (fun s' d' => s' = s ∧ I s' d')
        (SsTable.flush p (sstName s.nextSstableId) merged.toList) fun t => t.path = sstName s.nextSstableId :=
      keeps_sstFlush (fun a d d' hd h => ⟨h.1, hI.ignores (hI.name.sstName_ne _) a d d' hd h.2⟩) _
    refine Does.bind ((hflush env s d ⟨rfl, hs⟩).mono (fun t s' d' ht => ?_) fun _ _ _ he => he.2)
    obtain ⟨⟨rfl, hs'⟩, hpath⟩ := ht
    unfold succU64
    split_ifs
    · refine Does.bind (.pure (.setSelf ⟨hI.handles s' d' [t] _ (fun t' ht' => ?_) hs', trivial⟩))
      rw [List.mem_singleton.1 ht', hpath]
      exact hI.name.sstName_ne _
    · exact Does.bind (.throw hs')

theorem keeps_cleanup {paths : List FileName} (hI : ∀ path ∈ paths, Ignores I path) :
    Keeps I (Store.cleanup paths) := by
  unfold Store.cleanup
  induction paths with
  | nil => exact .pure trivial
  | cons path paths ih =>
    rw [List.forM_cons]
    refine (Keeps.ignoreErr (keeps_removeFile (hI path (List.mem_cons_self ..)))).bind fun _ => ?_
    exact ih fun path' hmem => hI path' (List.mem_cons_of_mem _ hmem)

/-- **Compaction** keeps every assertion off the tables. -/
theorem keeps_compact (hI : OffTables kept I) : Keeps I (Store.compact p) := by
  unfold Store.compact
  refine .withSelf ?_
  intro env s d hs
  split_ifs
  · exact .pure ⟨hs, trivial⟩
  · have hpaths : ∀ path ∈ s.sstables.map SsTable.path, Ignores I path := by
      intro path hmem
      obtain ⟨t, ht, rfl⟩ := List.mem_map.1 hmem
      exact hI.ignores (hI.paths s d hs t ht)
    exact keeps_mergeTables.bind (fun merged => (keeps_installMerged hI merged).bind fun _ =>
      keeps_cleanup hpaths) env s d hs

theorem keeps_maybeCompact (hI : OffTables kept I) : Keeps I (Store.maybeCompact p) := by
  unfold Store.maybeCompact
  refine .withSelf ?_
  intro env s d hs
  split_ifs
  · exact keeps_compact hI env s d hs
  · exact .pure ⟨hs, trivial⟩

/-! ## Reads -/

theorem keeps_onTable_get (hI : OffTables kept I) (i : ℕ) (key : Bytes) :
    Keeps I (Store.onTable i (SsTable.get p key)) := by
  unfold Store.onTable
  refine .withSelf ?_
  intro env s d hs
  cases ht : s.sstables[i]? with
  | none => exact .pure ⟨hs, trivial⟩
  | some t =>
    -- whatever the cache of the handle becomes, its path stays
    have hget : Keeps (fun t' d' => t'.path = t.path ∧ I s d') (SsTable.get p key) :=
      keeps_get (fun _ _ _ h => h) key
    have hset : ∀ t' d', t'.path = t.path ∧ I s d' →
        I { s with sstables := s.sstables.set i t' } d' := by
      intro t' d' ⟨hpath, hs'⟩
      refine hI.handles s d' _ s.nextSstableId (fun u hu => ?_) hs'
      rcases List.mem_or_eq_of_mem_set hu with hu | rfl
      · exact hI.paths s d' hs' u hu
      · rw [hpath]
        exact hI.paths s d' hs' t (List.mem_of_getElem? ht)
    refine Does.onField ((hget env t d ⟨rfl, hs⟩).mono (fun r t' d' hr => ?_) fun e t' d' he => hset t' d' he)
    exact ⟨hset t' d' hr.1, trivial⟩

theorem keeps_getFromTables (hI : OffTables kept I) (key : Bytes) (n i : ℕ) :
    Keeps I (Store.getFromTables p key n i) := by
  induction n generalizing i with
  | zero => exact .pure trivial
  | succ n ih =>
    unfold Store.getFromTables
    refine (keeps_onTable_get hI i key).bind fun r => ?_
    cases r with
    | some entry => exact .pure trivial
    | none => exact ih (i + 1)

/-- **Point reads** keep every assertion off the tables. -/
theorem keeps_getValue (hI : OffTables kept I) (key : Bytes) : Keeps I (Store.getValue p key) := by
  unfold Store.getValue
  refine .withSelf ?_
  intro env s d hs
  cases s.data[key]? with
  | some entry => exact .pure ⟨hs, trivial⟩
  | none => exact keeps_getFromTables hI key _ _ env s d hs

/-! ## Loading -/

theorem keeps_openFound (hkept : OffTableNames kept) (names : List FileName) (found : List (ℕ × SsTable))
    (hfound : ∀ x ∈ found, x.2.path ≠ kept) :
    Keeps I (Store.openFound names found) fun found => ∀ x ∈ found, x.2.path ≠ kept := by
  induction names generalizing found with
  | nil => exact .pure hfound
  | cons name names ih =>
    unfold Store.openFound
    cases hid : sstableIdFromPath name with
    | none => exact ih found hfound
    | some id =>
      refine keeps_open.seq fun t ht => ih _ ?_
      intro x hx
      rcases List.mem_append.1 hx with hx | hx
      · exact hfound x hx
      · rw [List.mem_singleton.1 hx, ht]
        rintro rfl
        rw [hkept.sstableIdFromPath] at hid
        cases hid

theorem keeps_tryReadDir : Keeps I tryReadDir := by
  intro env s d hs clock
  have hread : Keeps I readDir := keeps_read fun _ => rfl
  have hcall := hread env s d hs clock
  unfold CrashLogic.wp tryReadDir at *
  cases hr : readDir (⟨s, d, env, clock⟩ : Mem Store) with
  | ok names s' => rw [hr] at hcall; exact hcall
  | error e s' =>
    rw [hr] at hcall
    cases e with
    | err e => exact ⟨hcall.1, hcall.2, trivial⟩
    | panic => exact hcall
    | crash => exact hcall

/-- **Loading** the tables keeps every assertion off the tables. -/
theorem keeps_loadSstables (hI : OffTables kept I) : Keeps I Store.loadSstables := by
  unfold Store.loadSstables
  refine keeps_tryReadDir.bind fun r => ?_
  cases r with
  | none => exact .pure trivial
  | some names =>
    refine (keeps_openFound hI.name names [] nofun).seq fun found hfound => ?_
    refine (Keeps.ofStop _).bind fun next => ?_
    intro env s d hs
    refine .modifySelf ⟨hI.handles s d _ next (fun t ht => ?_) hs, trivial⟩
    obtain ⟨x, hx, rfl⟩ := List.mem_map.1 ht
    exact hfound x ((List.perm_insertionSort _ _).mem_iff.1 hx)

end FerrumDB
