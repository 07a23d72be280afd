import FerrumDB.Echoes
import FerrumDB.Store.Write

/-!
# Every method repeats over sound tables

The methods of a store do the same in a directory whose tables have rotted as in the sound one. Writing a table,
the log, the removal of files and opening a directory are exact; reading a block may find that it has rotted, and
so may the methods that read blocks: point reads, scans and compactions (`repeats_getValue`, `repeats_scanRange`,
`repeats_writeBatch`). The blocks that are read are those in the index of a handle (`Rot.Covers`).
-/

namespace FerrumDB

open CrashLogic

variable {σ α : Type} {lossy : Prop} {w : Rot} {I : σ → Prop} {p : Prost} {dg d : Disk} {name : FileName}

/-! ## The log -/

section Wal

/-- The log is not among the files that may rot. -/
def Rot.OffLog (w : Rot) (log : Wal) : Prop := ¬ w.names log.filePath

theorem repeats_writer : w.Repeats lossy w.OffLog Wal.writer := by
  unfold Wal.writer
  intro log dg d hlog hd
  refine .withSelf ?_
  split_ifs
  · exact .pure ⟨hlog, hd, trivial⟩
  · refine (repeats_openAppend log.filePath log dg d hlog hd).seq ?_
    rintro _ log' dg' d' ⟨-, hd', -⟩
    exact .setSelf ⟨hlog, hd', trivial⟩

theorem repeats_append (e : WalEntry) : w.Repeats lossy w.OffLog (Wal.append p e) := by
  unfold Wal.append
  refine repeats_writer.bind fun _ log dg d hlog hd => .withSelf ?_
  exact repeats_writeAll hlog _ log dg d hlog hd

theorem repeats_writeCommit (sequence : UInt64) : w.Repeats lossy w.OffLog (Wal.writeCommit p sequence) := by
  unfold Wal.writeCommit
  refine repeats_writer.bind fun _ log dg d hlog hd => .withSelf ?_
  exact ((repeats_writeAll hlog _).bind fun _ => repeats_syncAll hlog) log dg d hlog hd

theorem repeats_clear : w.Repeats lossy w.OffLog Wal.clear := by
  unfold Wal.clear
  intro log dg d hlog hd
  refine Echoes.bind (.modifySelf ?_)
  have hclosed : w.OffLog { log with file := false } := hlog
  refine .withSelf ?_
  exact ((repeats_openTruncate _).bind fun _ => repeats_syncAll hlog) _ dg d hclosed hd

theorem repeats_pathExists (name : FileName) : w.Repeats lossy I (pathExists name) := by
  have hcall : w.Repeats False I
      (ioCall ⟨.exists, name⟩ noEffect fun d => (.ok (d.files.contains name), d) : Prog σ Bool) :=
    .ioCall_noEffect fun _ _ hd => ⟨congrArg Except.ok (hd.contains name), hd⟩
  refine .catches id false (fun x => ?_) hcall
  unfold pathExists
  cases ioCall ⟨.exists, name⟩ noEffect (fun d => (.ok (d.files.contains name), d)) x with
  | ok r y => rfl
  | error e y => cases e <;> rfl

theorem repeats_readForRecovery : w.Repeats lossy w.OffLog (Wal.readForRecovery p) := by
  have hfile : w.Repeats lossy w.OffLog Wal.readFile := by
    unfold Wal.readFile
    intro log dg d hlog hd
    refine .withSelf ?_
    refine Rot.Repeats.bind (repeats_pathExists _) (fun there => ?_) log dg d hlog hd
    split_ifs
    · exact (repeats_openRead _).bind fun _ => (repeats_readToEnd hlog).bind fun _ => .pure trivial
    · exact .pure trivial
  unfold Wal.readForRecovery
  refine hfile.bind fun r => ?_
  cases r with
  | none => exact .pure trivial
  | some buffer =>
    refine (Rot.Repeats.ofStop _).bind fun r => ?_
    obtain ⟨entries, committedCount, committedEnd⟩ := r
    intro log dg d hlog hd
    refine .withSelf ?_
    dsimp only
    split_ifs
    · refine Rot.Repeats.bind (repeats_openWrite _) (fun _ => ?_) log dg d hlog hd
      refine (repeats_setLen hlog _).bind fun _ => (repeats_syncAll hlog).bind fun _ => ?_
      intro log' dg d _ hd
      exact Echoes.bind (.setSelf (.pure ⟨hlog, hd, trivial⟩))
    · exact .pure ⟨hlog, hd, trivial⟩

end Wal

/-! ## Tables -/

section Tables

theorem repeats_sstFlush (hname : ¬ w.names name) (entries : List (Bytes × Entry)) :
    w.Repeats lossy I (SsTable.flush p name entries) fun t => t.path = name := by
  unfold SsTable.flush
  refine repeats_createDirAll.bind fun _ => (repeats_openTruncate name).bind fun _ => ?_
  exact (repeats_writeAll hname _).bind fun _ => (repeats_syncAll hname).bind fun _ => .pure rfl

/-- The blocks of the handle are among those that are read. -/
def Rot.Knows (w : Rot) (t : SsTable) : Prop := w.names t.path → ∀ e ∈ t.index, w.blocks t.path e

theorem repeats_cachedBlock (e : IndexEntry) :
    w.Repeats True (fun t => w.Knows t ∧ e ∈ t.index) (SsTable.cachedBlock e) := by
  unfold SsTable.cachedBlock
  intro t dg d ht hd
  refine .withSelf ?_
  split
  · exact Echoes.bind (.setSelf (.pure ⟨ht, hd, trivial⟩))
  · refine Rot.Repeats.bind (repeats_openRead _) (fun _ => ?_) t dg d ht hd
    refine (repeats_readBlock fun hname => ht.1 hname e ht.2).bind fun records => ?_
    intro t' dg d ht' hd
    exact Echoes.bind (.modifySelf (.pure ⟨ht', hd, trivial⟩))

theorem mem_of_locate {t : SsTable} {key : Bytes} {e : IndexEntry} (h : t.locate key = some e) : e ∈ t.index := by
  unfold SsTable.locate at h
  split at h
  · exact List.mem_of_getElem? h
  · cases h
  · exact List.mem_of_getElem? h

theorem repeats_get (key : Bytes) : w.Repeats True w.Knows (SsTable.get p key) := by
  unfold SsTable.get
  intro t dg d ht hd
  refine .withSelf ?_
  split_ifs
  · exact .pure ⟨ht, hd, trivial⟩
  · exact .pure ⟨ht, hd, trivial⟩
  · refine Echoes.bind (.ofStop (fun b _ => ?_) ⟨ht, hd⟩)
    split_ifs
    · exact .pure ⟨ht, hd, trivial⟩
    · cases hloc : t.locate key with
      | none => exact .pure ⟨ht, hd, trivial⟩
      | some e =>
        refine ((repeats_cachedBlock e).bind fun records => Rot.Repeats.ofExcept _) t dg d ⟨ht, mem_of_locate hloc⟩ hd
          |>.mono ?_ ?_
        · rintro r t' dg' d' ⟨ht', hd', -⟩
          exact ⟨ht'.1, hd', trivial⟩
        · rintro t' dg' d' ⟨ht', hd'⟩
          exact ⟨ht'.1, hd'⟩

theorem repeats_readAllEntries {t : SsTable} (ht : w.Knows t) : w.Repeats True I (t.readAllEntries p) := by
  have hblocks : ∀ index, (∀ e ∈ index, e ∈ t.index) → ∀ out, w.Repeats True I (readBlocks p t.path index out) := by
    intro index
    induction index with
    | nil => exact fun _ out => .pure trivial
    | cons e index ih =>
      intro hindex out
      have he : e ∈ t.index := hindex e (List.mem_cons_self ..)
      unfold readBlocks
      refine (repeats_readBlock fun hname => ht hname e he).bind fun records => ?_
      exact (Rot.Repeats.ofExcept _).bind fun out => ih (fun x hx => hindex x (List.mem_cons_of_mem _ hx)) out
  unfold SsTable.readAllEntries
  split_ifs
  · exact .pure trivial
  · exact (repeats_openRead _).bind fun _ => hblocks t.index (fun _ he => he) []

/-- What the length of a file of the directory is. -/
def Disk.lenOf (d : Disk) (name : FileName) : Except String ℕ :=
  match d.files[name]? with
  | some f => .ok f.bytes.length
  | none => .error noSuchFile

theorem fileLen_eq (name : FileName) :
    (fileLen name : Prog σ ℕ) = ioCall ⟨.fileLen, name⟩ noEffect fun d => (d.lenOf name, d) := by
  unfold fileLen Disk.lenOf
  congr 1
  funext d
  cases d.files[name]? <;> rfl

/-- From where on both directories have the same bytes in the file. -/
theorem Rot.Alike.reads (h : w.Alike dg d) (name : FileName) : dg.lenOf name = d.lenOf name ∧ ∃ start,
    (∀ off n, start ≤ off → dg.readAt name off n = d.readAt name off n) ∧
    ∀ len, d.lenOf name = .ok len → start ≤ len - FOOTER_LEN ∧
      ∀ footer, d.readAt name (len - FOOTER_LEN) FOOTER_LEN = .ok footer →
        start ≤ (Footer.parse footer).indexOffset.toNat := by
  unfold Disk.lenOf Disk.readAt
  rcases h.files name with hsame | ⟨f, f', hf, hf', hleaves⟩
  · rw [hsame]
    exact ⟨rfl, 0, fun _ _ _ => rfl, fun _ _ => ⟨Nat.zero_le _, fun _ _ => Nat.zero_le _⟩⟩
  · rw [hf, hf']
    dsimp only
    have hrots := hleaves.rots
    refine ⟨by rw [hrots.length_eq], f.indexStart, fun off n hoff => (hrots.readAt hoff n).symm, ?_⟩
    intro len hlen
    cases hlen
    rw [hrots.length_eq]
    have hend : f.indexStart ≤ f.bytes.length - FOOTER_LEN := Nat.min_le_right _ _
    refine ⟨hend, fun footer hfooter => ?_⟩
    rw [hrots.readAt hend] at hfooter
    unfold File.readAt at hfooter
    split_ifs at hfooter with hoff hlong
    cases hfooter
    rw [List.take_of_length_le (by rw [List.length_drop]; omega)]
    exact Nat.min_le_left _ _

/-- **Opening a table** reads nothing that may rot. -/
theorem repeats_open (name : FileName) : w.Repeats lossy I (SsTable.open name) := by
  intro s dg d hs hd
  obtain ⟨hlen, start, hreads, hstart⟩ := hd.reads name
  unfold SsTable.open
  refine Echoes.bind (.ioCall (by dsimp only; rw [hd.contains]) (fun _ _ => ?_) ⟨hs, hd⟩ fun _ => ⟨hs, hd⟩)
  rw [fileLen_eq]
  refine Echoes.bind (.ioCall hlen (fun len hr => ?_) ⟨hs, hd⟩ fun _ => ⟨hs, hd⟩)
  obtain ⟨hend, hfooter⟩ := hstart len hr
  dsimp only
  split_ifs with hsmall
  · exact .throw ⟨hs, hd⟩
  rw [readExactAt_eq]
  refine Echoes.bind (.ioCall (hreads _ _ hend) (fun footer hr => ?_) ⟨hs, hd⟩ fun _ => ⟨hs, hd⟩)
  dsimp only
  split_ifs
  · exact .throw ⟨hs, hd⟩
  · exact .throw ⟨hs, hd⟩
  · exact .throw ⟨hs, hd⟩
  rw [readExactAt_eq]
  refine Echoes.bind (.ioCall (hreads _ _ (hfooter footer hr)) (fun buf _ => ?_) ⟨hs, hd⟩ fun _ => ⟨hs, hd⟩)
  refine Echoes.bind (.ofExcept (fun r _ => ?_) ⟨hs, hd⟩)
  refine Echoes.bind (.ofExcept (fun r' _ => ?_) ⟨hs, hd⟩)
  exact .pure ⟨hs, hd, trivial⟩

end Tables

/-! ## Flush and compaction -/

section Store

variable {J : Store → Prop}

/-- Neither the log of the store nor a file it will write may rot, and the blocks of its handles are among those
that are read. -/
structure Rot.Covers (w : Rot) (s : Store) : Prop where
  wal : ¬ w.names s.wal.filePath
  fresh : ∀ id, s.nextSstableId ≤ id → ¬ w.names (sstName id)
  knows : ∀ t ∈ s.sstables, w.Knows t

theorem repeats_onWal {m : Prog Wal α} {R : α → Prop} (h : w.Repeats lossy w.OffLog m R) :
    w.Repeats lossy w.Covers (Store.onWal m) R := by
  intro s dg d hs hd
  refine Echoes.onField ((h s.wal dg d hs.wal hd).mono ?_ ?_)
  · rintro r log dg' d' ⟨hlog, hd', hr⟩
    exact ⟨⟨hlog, hs.fresh, hs.knows⟩, hd', hr⟩
  · rintro log dg' d' ⟨hlog, hd'⟩
    exact ⟨⟨hlog, hs.fresh, hs.knows⟩, hd'⟩

theorem repeats_succU64 (n : ℕ) : w.Repeats lossy I (succU64 n) fun next => n ≤ next := by
  unfold succU64
  split_ifs
  · exact .pure (Nat.le_succ n)
  · exact .throw

theorem repeats_mergeFrom (tables : List SsTable) (ht : ∀ t ∈ tables, w.Knows t) (merged : Memtable) :
    w.Repeats True J (Store.mergeFrom p tables merged) := by
  induction tables generalizing merged with
  | nil => exact .pure trivial
  | cons t tables ih =>
    unfold Store.mergeFrom
    refine (repeats_readAllEntries (ht t (List.mem_cons_self ..))).bind fun entries => ?_
    exact ih (fun u hu => ht u (List.mem_cons_of_mem _ hu)) _

theorem repeats_mergeTables : w.Repeats True w.Covers (Store.mergeTables p) := by
  unfold Store.mergeTables
  intro s dg d hs hd
  refine .withSelf (Rot.Repeats.bind (repeats_mergeFrom _ (fun t ht => ?_) ∅) (fun merged => ?_) s dg d hs hd)
  · exact hs.knows t (List.mem_reverse.1 ht)
  · exact .pure trivial

/-- A table that was written to a fresh file. -/
theorem Rot.Covers.knows_fresh {s : Store} (hs : w.Covers s) {t : SsTable} (ht : t.path = sstName s.nextSstableId) :
    w.Knows t := by
  intro hname
  rw [ht] at hname
  exact absurd hname (hs.fresh _ (Nat.le_refl _))

theorem repeats_installMerged (merged : Memtable) : w.Repeats lossy w.Covers (Store.installMerged p merged) := by
  unfold Store.installMerged
  intro s dg d hs hd
  refine .withSelf ?_
  split_ifs
  · exact .setSelf ⟨⟨hs.wal, hs.fresh, nofun⟩, hd, trivial⟩
  · have hname : ¬ w.names (sstName s.nextSstableId) := hs.fresh _ (Nat.le_refl _)
    refine (repeats_sstFlush hname _).seq (fun t ht => ?_) s dg d hs hd
    refine (repeats_succU64 _).seq fun next hnext => ?_
    intro _ dg d _ hd
    refine .setSelf ⟨⟨hs.wal, fun id hid => hs.fresh id (hnext.trans hid), fun u hu => ?_⟩, hd, trivial⟩
    rw [List.mem_singleton.1 hu]
    exact hs.knows_fresh ht

theorem repeats_cleanup (paths : List FileName) : w.Repeats lossy J (Store.cleanup paths) :=
  .forM paths fun path _ => (repeats_removeFile path).ignoreErr

theorem repeats_compact : w.Repeats True w.Covers (Store.compact p) := by
  unfold Store.compact
  intro s dg d hs hd
  refine .withSelf ?_
  split_ifs
  · exact .pure ⟨hs, hd, trivial⟩
  · refine repeats_mergeTables.bind (fun merged => ?_) s dg d hs hd
    exact (repeats_installMerged merged).bind fun _ => repeats_cleanup _

theorem repeats_maybeCompact : w.Repeats True w.Covers (Store.maybeCompact p) := by
  unfold Store.maybeCompact
  intro s dg d hs hd
  refine .withSelf ?_
  split_ifs
  · exact repeats_compact s dg d hs hd
  · exact .pure ⟨hs, hd, trivial⟩

theorem repeats_flushTable : w.Repeats lossy w.Covers (Store.flushTable p) := by
  unfold Store.flushTable
  intro s dg d hs hd
  refine .withSelf ?_
  have hname : ¬ w.names (sstName s.nextSstableId) := hs.fresh _ (Nat.le_refl _)
  refine (repeats_sstFlush hname _).seq (fun t ht => ?_) s dg d hs hd
  refine (repeats_succU64 _).seq fun next hnext => ?_
  intro _ dg d _ hd
  refine Echoes.bind (.setSelf (repeats_onWal repeats_clear _ dg d ?_ hd))
  refine ⟨hs.wal, fun id hid => hs.fresh id (hnext.trans hid), fun u hu => ?_⟩
  rcases List.mem_cons.1 hu with rfl | hu
  · exact hs.knows_fresh ht
  · exact hs.knows u hu

theorem repeats_flush : w.Repeats True w.Covers (Store.flush p) := by
  unfold Store.flush
  intro s dg d hs hd
  refine .withSelf ?_
  split_ifs
  · exact .pure ⟨hs, hd, trivial⟩
  · exact repeats_flushTable.bind (fun _ => repeats_maybeCompact) s dg d hs hd

theorem repeats_maybeFlush : w.Repeats True w.Covers (Store.maybeFlush p) := by
  unfold Store.maybeFlush
  intro s dg d hs hd
  refine .withSelf ?_
  split_ifs
  · exact repeats_flush s dg d hs hd
  · exact .pure ⟨hs, hd, trivial⟩

/-! ## Writes -/

theorem repeats_logEntry (entry : UInt64 → WalEntry) : w.Repeats lossy w.Covers (Store.logEntry p entry) := by
  unfold Store.logEntry
  intro s dg d hs hd
  refine .withSelf ?_
  split_ifs
  · exact Echoes.bind (.setSelf (repeats_onWal (repeats_append _) _ dg d ⟨hs.wal, hs.fresh, hs.knows⟩ hd))
  · exact .throw ⟨hs, hd⟩

theorem repeats_logCommit : w.Repeats lossy w.Covers (Store.logCommit p) := by
  unfold Store.logCommit
  intro s dg d hs hd
  exact .withSelf (repeats_onWal (repeats_writeCommit _) s dg d hs hd)

/-- An insertion changes the memtable only. -/
theorem Rot.Covers.insert {s s' : Store} (hs : w.Covers s) {key : Bytes} {entry : Entry}
    (h : s.memtableInsert key entry = .ok s') : w.Covers s' := by
  unfold Store.memtableInsert at h
  dsimp only at h
  split at h
  · split_ifs at h
    cases h
    exact ⟨hs.wal, hs.fresh, hs.knows⟩
  · cases h
    exact ⟨hs.wal, hs.fresh, hs.knows⟩

theorem repeats_insert (key : Bytes) (entry : Entry) : w.Repeats lossy w.Covers (Store.insert key entry) := by
  unfold Store.insert
  intro s dg d hs hd
  refine .withSelf (Echoes.bind (.ofStop (fun s' hs' => ?_) ⟨hs, hd⟩))
  exact .setSelf ⟨hs.insert hs', hd, trivial⟩

/-- **Writes.** -/
theorem repeats_writeBatch (b : Batch) : w.Repeats True w.Covers (Store.writeBatch p b) := by
  unfold Store.writeBatch
  refine (Rot.Repeats.forM b fun e _ => repeats_logEntry _).bind fun _ => repeats_logCommit.bind fun _ => ?_
  exact (Rot.Repeats.forM b fun e _ => repeats_insert _ _).bind fun _ => repeats_maybeFlush

/-! ## Reads -/

theorem repeats_onTable_get (key : Bytes) (i : ℕ) : w.Repeats True w.Covers (Store.onTable i (SsTable.get p key)) := by
  unfold Store.onTable
  intro s dg d hs hd
  refine .withSelf ?_
  cases ht : s.sstables[i]? with
  | none => exact .pure ⟨hs, hd, trivial⟩
  | some t =>
    have hset : ∀ t', w.Knows t' → w.Covers { s with sstables := s.sstables.set i t' } := fun t' ht' =>
      ⟨hs.wal, hs.fresh, fun u hu => (List.mem_or_eq_of_mem_set hu).elim (hs.knows u) fun heq => by rwa [heq]⟩
    refine Echoes.onField ((repeats_get key t dg d (hs.knows t (List.mem_of_getElem? ht)) hd).mono ?_ ?_)
    · rintro r t' dg' d' ⟨ht', hd', hr⟩
      exact ⟨hset t' ht', hd', hr⟩
    · rintro t' dg' d' ⟨ht', hd'⟩
      exact ⟨hset t' ht', hd'⟩

theorem repeats_getFromTables (key : Bytes) (n i : ℕ) : w.Repeats True w.Covers (Store.getFromTables p key n i) := by
  induction n generalizing i with
  | zero => exact .pure trivial
  | succ n ih =>
    unfold Store.getFromTables
    refine (repeats_onTable_get key i).bind fun r => ?_
    cases r with
    | some entry => exact .pure trivial
    | none => exact ih (i + 1)

/-- **Point reads.** -/
theorem repeats_getValue (key : Bytes) : w.Repeats True w.Covers (Store.getValue p key) := by
  unfold Store.getValue
  intro s dg d hs hd
  refine .withSelf ?_
  cases s.data[key]? with
  | some entry => exact .pure ⟨hs, hd, trivial⟩
  | none => exact repeats_getFromTables key _ 0 s dg d hs hd

theorem repeats_scanTables (lo hi : Bound) (tables : List SsTable) (ht : ∀ t ∈ tables, w.Knows t) (merged : Memtable) :
    w.Repeats True J (Store.scanTables p lo hi tables merged) := by
  induction tables generalizing merged with
  | nil => exact .pure trivial
  | cons t tables ih =>
    have ih := ih fun u hu => ht u (List.mem_cons_of_mem _ hu)
    have hread := (repeats_readAllEntries (p := p) (I := J) (ht t (List.mem_cons_self ..))).bind fun entries =>
      ih (merged.insertMany (entries.filter fun e => inBounds e.1 lo hi))
    unfold Store.scanTables
    cases t.keyRange with
    | none => exact hread
    | some r =>
      dsimp only
      split_ifs
      · exact ih merged
      · exact hread

/-- **Scans.** -/
theorem repeats_scanRange (lo hi : Bound) : w.Repeats True w.Covers (Store.scanRange p lo hi) := by
  unfold Store.scanRange
  intro s dg d hs hd
  refine .withSelf (Rot.Repeats.bind (repeats_scanTables lo hi _ (fun t ht => ?_) ∅) (fun merged => ?_) s dg d hs hd)
  · exact hs.knows t (List.mem_reverse.1 ht)
  · exact (Rot.Repeats.ofStop _).bind fun range => .pure trivial

/-! ## Opening -/

theorem repeats_openFound (names : List FileName) (found : List (ℕ × SsTable)) :
    w.Repeats lossy J (Store.openFound names found) := by
  induction names generalizing found with
  | nil => exact .pure trivial
  | cons name names ih =>
    unfold Store.openFound
    cases sstableIdFromPath name with
    | none => exact ih found
    | some id => exact (repeats_open name).bind fun t => ih _

theorem repeats_tryReadDir : w.Repeats lossy I tryReadDir := by
  have hcall : w.Repeats False I (readDir : Prog σ (List FileName)) := repeats_readDir
  refine .catches some none (fun x => ?_) hcall
  unfold tryReadDir
  cases readDir x with
  | ok r y => rfl
  | error e y => cases e <;> rfl

theorem repeats_flock : w.Repeats lossy I flock := by
  have hcall : w.Repeats False I
      (ioCall ⟨.flock, "LOCK"⟩ noEffect fun d => (.ok (!d.locked), { d with locked := true }) : Prog σ Bool) := by
    refine .ioCall_noEffect fun dg d hd => ⟨?_, hd.lock true⟩
    rw [hd.locked]
  refine .catches id false (fun x => ?_) hcall
  unfold flock
  cases ioCall ⟨.flock, "LOCK"⟩ noEffect (fun d => (.ok (!d.locked), { d with locked := true })) x with
  | ok r y => rfl
  | error e y => cases e <;> rfl

theorem repeats_loadSstables : w.Repeats lossy (fun s => w.OffLog s.wal) Store.loadSstables := by
  unfold Store.loadSstables
  refine repeats_tryReadDir.bind fun r => ?_
  cases r with
  | none => exact .pure trivial
  | some names =>
    refine (repeats_openFound names []).bind fun found => (Rot.Repeats.ofStop _).bind fun next => ?_
    exact fun s dg d hs hd => .modifySelf ⟨hs, hd, trivial⟩

/-- Replaying the log, whatever it makes of the store. -/
theorem echoes_replayWal {s : Store} (hs : w.OffLog s.wal) (hd : w.Alike dg d) :
    Echoes lossy (Store.replayWal p) s dg d (fun _ _ dg' d' => w.Alike dg' d') fun _ dg' d' => w.Alike dg' d' := by
  unfold Store.replayWal
  refine Echoes.bind (Echoes.onField ((repeats_readForRecovery s.wal dg d hs hd).mono ?_ fun _ _ _ he => he.2))
  rintro entries log dg' d' ⟨-, hd', -⟩
  exact .withSelf (Echoes.bind (.ofStop (fun _ _ => .setSelf hd') hd'))

theorem Echoes.dropOnStop {m : Prog Store α} {s : Store} {Q : α → Store → Disk → Disk → Prop}
    {E : Store → Disk → Disk → Prop}
    (h : Echoes lossy m s dg d Q fun s' dg' d' => E s' { dg' with locked := false } { d' with locked := false }) :
    Echoes lossy (Store.dropOnStop m) s dg d Q E := by
  intro env n
  have h := h env n
  unfold wp at h ⊢
  unfold Store.dropOnStop
  cases hrun : m ⟨s, d, env, n⟩ with
  | ok r y =>
    rw [hrun] at h
    obtain ⟨henv, hle, dg', hq, hruns⟩ := h
    exact ⟨henv, hle, dg', hq, fun env' hagree => by dsimp only; rw [hruns env' hagree]⟩
  | error e y =>
    rw [hrun] at h
    obtain ⟨henv, hle, dg', e', env', he, hecho, hruns⟩ := h
    exact ⟨henv, hle, _, e', env', he, hecho, fun env'' hagree => by dsimp only; rw [hruns env'' hagree]⟩

/-- **Opening a directory.** -/
theorem echoes_openWithDir {s : Store} (hwal : ¬ w.names walName) (hd : w.Alike dg d) (dir : String) :
    Echoes lossy (Store.openWithDir p dir) s dg d (fun _ _ dg' d' => w.Alike dg' d')
      fun _ dg' d' => w.Alike dg' d' := by
  have hcall : ∀ {α} {c : Prog Store α}, (∀ {J : Store → Prop}, w.Repeats lossy J c) → ∀ s dg d, w.Alike dg d →
      Echoes lossy c s dg d (fun _ _ dg' d' => w.Alike dg' d') fun _ dg' d' => w.Alike dg' d' := by
    intro α c hc s dg d hd
    refine (hc (J := fun _ => True) s dg d trivial hd).mono ?_ ?_
    · rintro r s' dg' d' ⟨-, hd', -⟩
      exact hd'
    · rintro s' dg' d' ⟨-, hd'⟩
      exact hd'
  unfold Store.openWithDir
  refine (hcall repeats_createDirAll s dg d hd).seq fun _ s dg d hd => ?_
  refine (hcall repeats_openLock s dg d hd).seq fun _ s dg d hd => ?_
  refine (hcall repeats_flock s dg d hd).seq fun free s dg d hd => ?_
  split_ifs
  · exact .throw hd
  · refine .dropOnStop ?_
    have hlog : w.OffLog (Store.fresh dir ⟨walName, false⟩).wal := hwal
    have hunlock : ∀ dg d, w.Alike dg d → w.Alike { dg with locked := false } { d with locked := false } :=
      fun _ _ hd => hd.lock false
    refine Echoes.seq (R := fun wal _ dg' d' => wal = ⟨walName, false⟩ ∧ w.Alike dg' d') ?_ ?_
    · unfold Wal.withPath
      have hmade := hcall (.ignoreErr repeats_createDirAll) s dg d hd
      exact (hmade.mono (fun _ _ _ _ h => h) fun _ _ _ => hunlock _ _).seq fun _ _ dg' d' hd' => .pure ⟨rfl, hd'⟩
    · rintro wal s dg d ⟨rfl, hd⟩
      refine Echoes.bind (.setSelf ?_)
      have hloaded : Echoes lossy Store.loadSstables _ dg d _ _ := repeats_loadSstables _ dg d hlog hd
      refine Echoes.seq (hloaded.mono (fun _ _ _ _ h => h) fun _ _ _ h => hunlock _ _ h.2) ?_
      rintro _ s dg d ⟨hs, hd, -⟩
      exact (echoes_replayWal hs hd).mono (fun _ _ _ _ h => h) fun _ _ _ => hunlock _ _

end Store

end FerrumDB
