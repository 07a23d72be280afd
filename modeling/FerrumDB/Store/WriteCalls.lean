import FerrumDB.CallLists
import FerrumDB.Store.Faults

/-!
# The I/O calls of a write

What a write calls is known before it starts. Its record opens the log unless it is open, writes a frame for
each entry and one for the COMMIT, and fsyncs (`Store.recordIo`). The flush, at the budget, writes a table and
clears the log, and reads every table when there are too many (`Store.flushIo`); it then writes the merged table
if there is anything to put into it (`Store.mergeIo`). What follows removes files and raises no error. So a
write fails in its flush exactly if the first of these calls that does not succeed fails
(`recordBatch_ok_iff`, `maybeFlush_fails_iff`).
-/

namespace FerrumDB

open CrashLogic Overlay

variable {σ : Type} {env : Env} {s : Store} {d : Disk} {L : Layers} {p : Prost} {a : σ} {b : Batch}

/-! ## The lists -/

/-- The calls that open the log, none if it is open. -/
def Wal.openIo (w : Wal) : List IoCall := if w.file then [] else [⟨.openAppend, w.filePath⟩]

/-- The calls that record a batch. -/
def Store.recordIo (s : Store) (b : Batch) : List IoCall :=
  s.wal.openIo ++ List.replicate b.length ⟨.write, walName⟩ ++ [⟨.write, walName⟩, ⟨.sync, walName⟩]

/-- The calls that write a table file. -/
def tableIo (name : FileName) : List IoCall :=
  [⟨.createDirAll, ""⟩, ⟨.openTruncate, name⟩, ⟨.write, name⟩, ⟨.sync, name⟩]

/-- The calls that clear the log. -/
def clearIo (name : FileName) : List IoCall := [⟨.openTruncate, name⟩, ⟨.sync, name⟩]

/-- The calls that read a whole table: one for the file, and one for each block. -/
def SsTable.listIo (t : SsTable) : List IoCall :=
  if t.index = [] then [] else ⟨.openRead, t.path⟩ :: List.replicate t.index.length ⟨.read, t.path⟩

/-- The calls of a flush of `data`: write the table, clear the log, and read every table, oldest first, if they
are too many. -/
def Store.flushIo (p : Prost) (s : Store) (data : Memtable) : List IoCall :=
  tableIo (sstName s.nextSstableId) ++ clearIo walName ++
    if s.sstables.length + 1 > MAX_SSTABLES then
      (freshTable p (sstName s.nextSstableId) data.toList :: s.sstables).reverse.flatMap SsTable.listIo
    else []

/-- The calls that write the merged table after a flush, if the tables are too many. -/
def Store.mergeIo (s : Store) : List IoCall :=
  if s.sstables.length + 1 > MAX_SSTABLES then tableIo (sstName (s.nextSstableId + 1)) else []

/-! ## The log -/

theorem runs_writer {w : Wal} (hw : w.Live d) : Runs env Wal.writer w d w.openIo fun _ w' d' =>
    w' = ⟨w.filePath, true⟩ ∧ ∃ f, d'.files[w.filePath]? = some f ∧ d'.bytesOf w.filePath = d.bytesOf w.filePath := by
  have hruns : Runs env Wal.writer w d w.openIo fun _ _ _ => True := by
    unfold Wal.writer Wal.openIo
    refine .withSelf ?_
    split_ifs
    · exact .pure trivial
    · have hopen : Runs env (openAppend w.filePath) w d [⟨.openAppend, w.filePath⟩] fun _ _ _ => True :=
        .ioCall rfl trivial
      exact hopen.last fun _ _ _ _ => .setSelf trivial
  have hdoes : Does env Wal.writer w d (fun _ w' d' => w' = ⟨w.filePath, true⟩ ∧
      ∃ f, d'.files[w.filePath]? = some f ∧ d'.bytesOf w.filePath = d.bytesOf w.filePath) fun _ _ _ => True :=
    does_writer hw (fun d' f hb hf => ⟨rfl, f, hf, hb.bytes⟩) fun _ _ => trivial
  exact (hruns.and hdoes).mono fun _ _ _ h => h.2

/-- Appending one frame. -/
theorem runs_append {w : Wal} (hw : w.Live d) (entry : WalEntry)
    (hroom : (d.bytesOf w.filePath).length + (frame p entry).length ≤ maxFileLen) :
    Runs env (Wal.append p entry) w d (w.openIo ++ [⟨.write, w.filePath⟩]) fun _ w' _ => w'.file = true := by
  unfold Wal.append
  refine Runs.bind (runs_writer hw) ?_
  rintro _ w' d' ⟨rfl, f, hf, hb⟩
  rw [Disk.bytesOf_of_some hf] at hb
  refine .withSelf ((runs_writeAll hf (by rw [hb]; exact hroom)).mono ?_)
  rintro _ _ _ ⟨rfl, -⟩
  rfl

/-- Appending the COMMIT of an open log. -/
theorem runs_writeCommit {w : Wal} (hw : w.Live d) (hopen : w.file = true) (sequence : UInt64)
    (hroom : (d.bytesOf w.filePath).length + (frame p (commitEntry sequence)).length ≤ maxFileLen) :
    Runs env (Wal.writeCommit p sequence) w d [⟨.write, w.filePath⟩, ⟨.sync, w.filePath⟩] fun _ _ _ => True := by
  have hnone : w.openIo = [] := if_pos hopen
  unfold Wal.writeCommit
  refine Runs.seq (hnone ▸ runs_writer hw) ?_
  rintro _ w' d' ⟨rfl, f, hf, hb⟩
  rw [Disk.bytesOf_of_some hf] at hb
  refine .withSelf (Runs.cons (runs_writeAll hf (by rw [hb]; exact hroom)) ?_)
  rintro _ _ _ ⟨rfl, rfl⟩
  have hfile : (d'.put w.filePath (f.append (frame p (commitEntry sequence)))).files[w.filePath]? =
      some (f.append (frame p (commitEntry sequence))) := by simp
  exact (runs_syncAll hfile).mono fun _ _ _ _ => trivial

theorem runs_openTruncate {name : FileName} : Runs env (openTruncate name) a d [⟨.openTruncate, name⟩]
    fun _ a' d' => a' = a ∧ d'.files[name]? = some File.empty :=
  .ioCall rfl ⟨rfl, by simp⟩

theorem runs_clear {w : Wal} : Runs env Wal.clear w d (clearIo w.filePath) fun _ _ _ => True := by
  have hclose : Runs env (modifySelf fun w => { w with file := false }) w d []
      fun _ w' _ => w' = ⟨w.filePath, false⟩ := .modifySelf rfl
  unfold Wal.clear
  refine hclose.seq ?_
  rintro _ _ d' rfl
  refine .withSelf (runs_openTruncate.cons fun _ _ _ hd' => ?_)
  exact (runs_syncAll hd'.2).mono fun _ _ _ _ => trivial

/-! ## The record -/

theorem runs_logEntry (hlog : s.OnLog d) (entry : UInt64 → WalEntry) (hseq : s.sequence.toNat + 1 < 2 ^ 64)
    (hroom : (d.bytesOf walName).length + (frame p (entry (s.sequence + 1))).length ≤ maxFileLen) :
    Runs env (Store.logEntry p entry) s d (s.wal.openIo ++ [⟨.write, walName⟩]) fun _ s' _ => s'.wal.file = true := by
  have hpath := hlog.path
  have happend : Runs env (Wal.append p (entry (s.sequence + 1))) s.wal d (s.wal.openIo ++ [⟨.write, s.wal.filePath⟩])
      fun _ w' _ => w'.file = true := runs_append hlog.live _ (by rw [hpath]; exact hroom)
  rw [hpath] at happend
  have hnumber : Runs env (setSelf { s with sequence := s.sequence + 1 }) s d []
      fun _ s' d' => s' = { s with sequence := s.sequence + 1 } ∧ d' = d := .setSelf ⟨rfl, rfl⟩
  unfold Store.logEntry
  refine .withSelf ?_
  rw [if_pos hseq]
  refine hnumber.seq ?_
  rintro _ _ _ ⟨rfl, rfl⟩
  exact Runs.onField happend

/-- The entries of the batch are in the log, which is open unless there are none. -/
structure Logged (p : Prost) (s : Store) (d : Disk) (b : Batch) (s' : Store) (d' : Disk) : Prop extends
    s'.OnLog d' where
  opened : s.wal.file = true ∨ b ≠ [] → s'.wal.file = true
  counted : s'.Counted
  sequence : s'.sequence = batchEnd s.sequence b
  bytes : d'.bytesOf walName = d.bytesOf walName ++ logBytes p (batchLog s.sequence b)

theorem runs_logEntry_logged (hlog : s.OnLog d) (hcounted : s.Counted) (e : Bytes × Option Value)
    (hseq : s.sequence.toNat + 1 < 2 ^ 64)
    (hroom : (d.bytesOf walName).length + (frame p (pendingEntry e.1 e.2 (s.sequence + 1))).length ≤ maxFileLen) :
    Runs env (Store.logEntry p (pendingEntry e.1 e.2)) s d (s.wal.openIo ++ [⟨.write, walName⟩])
      fun _ s' d' => Logged p s d [e] s' d' := by
  have hdoes : Does env (Store.logEntry p (pendingEntry e.1 e.2)) s d
      (fun _ s' d' => s'.OnLog d' ∧ s'.Counted ∧ s'.sequence = s.sequence + 1 ∧
        d'.bytesOf walName = d.bytesOf walName ++ frame p (pendingEntry e.1 e.2 (s.sequence + 1)))
      fun _ _ _ => True :=
    does_logEntry hlog _ (fun _ w' d' hw' hlive hb => ⟨⟨hw', hlive⟩, hcounted, rfl, hb.bytes⟩)
      (fun _ _ _ _ _ _ _ _ => trivial) (Or.inr trivial)
  refine ((runs_logEntry hlog _ hseq hroom).and hdoes).mono ?_
  rintro _ s' d' ⟨hopen, hlog', hcounted', hnumber, hbytes⟩
  exact ⟨hlog', fun _ => hopen, hcounted', hnumber, by rw [hbytes, batchLog, batchLog, logBytes_singleton]⟩

/-- **The entries of a batch.** -/
theorem runs_logEntries (b : Batch) (hlog : s.OnLog d) (hcounted : s.Counted)
    (hseq : s.sequence.toNat + b.length < 2 ^ 64)
    (hroom : (d.bytesOf walName).length + (logBytes p (batchLog s.sequence b)).length ≤ maxFileLen) :
    Runs env (forM b fun e => Store.logEntry p (pendingEntry e.1 e.2)) s d
      (if b = [] then [] else s.wal.openIo ++ List.replicate b.length ⟨.write, walName⟩)
      fun _ s' d' => Logged p s d b s' d' := by
  induction b generalizing s d with
  | nil =>
    rw [if_pos rfl]
    refine .pure ⟨hlog, fun h => h.resolve_right fun hne => hne rfl, hcounted, rfl, ?_⟩
    rw [batchLog, logBytes_nil, List.append_nil]
  | cons e b ih =>
    rw [List.length_cons] at hseq
    rw [batchLog, logBytes_cons, List.length_append] at hroom
    have hsucc := toNat_succ (n := s.sequence) (by omega)
    have hlist : s.wal.openIo ++ List.replicate (e :: b).length (⟨.write, walName⟩ : IoCall) =
        (s.wal.openIo ++ [⟨.write, walName⟩]) ++ List.replicate b.length ⟨.write, walName⟩ := by
      rw [List.append_assoc]
      rfl
    rw [if_neg (List.cons_ne_nil _ _), List.forM_cons, hlist]
    refine Runs.bind (runs_logEntry_logged hlog hcounted e (by omega) (by omega)) fun _ s' d' hs' => ?_
    -- the log is open from here on
    have hopen := hs'.opened (Or.inr (List.cons_ne_nil _ _))
    have hnumber : s'.sequence = s.sequence + 1 := hs'.sequence
    have hbytes := hs'.bytes
    rw [batchLog, batchLog, logBytes_singleton] at hbytes
    have hrest := ih hs'.toOnLog hs'.counted (by rw [hnumber]; omega)
      (by rw [hnumber, hbytes, List.length_append]; omega)
    have hio : (if b = [] then [] else s'.wal.openIo ++ List.replicate b.length (⟨.write, walName⟩ : IoCall)) =
        List.replicate b.length ⟨.write, walName⟩ := by
      unfold Wal.openIo
      rw [if_pos hopen]
      split_ifs with hnil
      · rw [hnil]
        rfl
      · rfl
    rw [hio] at hrest
    refine hrest.mono fun _ s'' d'' hs'' => ⟨hs''.toOnLog, fun _ => hs''.opened (Or.inl hopen), hs''.counted, ?_, ?_⟩
    · rw [hs''.sequence, hnumber]
      rfl
    · rw [hs''.bytes, hbytes, hnumber, List.append_assoc, batchLog, logBytes_cons]

theorem runs_applyBatch (b : Batch) (h : s.Counted) :
    Runs env (forM b fun e => Store.insert e.1 (entryOf e.2)) s d [] fun _ _ _ => True := by
  induction b generalizing s d with
  | nil => exact .pure trivial
  | cons e b ih =>
    have hresult : Runs env (ofStop (s.memtableInsert e.1 (entryOf e.2))) s d []
        fun r _ _ => r = s.holding (s.data.insert e.1 (entryOf e.2)) s.sequence := .ofStop (memtableInsert_eq h _ _) rfl
    have hinsert : Runs env (Store.insert e.1 (entryOf e.2)) s d [] fun _ s' _ => s'.Counted := by
      unfold Store.insert
      refine .withSelf (hresult.seq ?_)
      rintro _ _ _ rfl
      exact .setSelf (counted_holding _ _ _)
    rw [List.forM_cons]
    exact hinsert.seq fun _ s' d' hs' => ih hs'

/-- There is room in the log for a batch. -/
def Store.LogRoom (p : Prost) (s : Store) (d : Disk) (b : Batch) : Prop :=
  (d.bytesOf walName).length + (logBytes p (batchLog s.sequence b ++ [commitEntry (batchEnd s.sequence b)])).length ≤
    maxFileLen

/-- **The record of a batch.** -/
theorem runs_recordBatch (hb : b ≠ []) (hlog : s.OnLog d) (hcounted : s.Counted)
    (hseq : s.sequence.toNat + b.length < 2 ^ 64) (hroom : s.LogRoom p d b) :
    Runs env (Store.recordBatch p b) s d (s.recordIo b) fun _ _ _ => True := by
  unfold Store.LogRoom at hroom
  rw [logBytes_append, logBytes_singleton, List.length_append] at hroom
  have hentries : Runs env (forM b fun e => Store.logEntry p (pendingEntry e.1 e.2)) s d _ _ :=
    runs_logEntries b hlog hcounted hseq (by omega)
  rw [if_neg hb] at hentries
  unfold Store.recordBatch Store.recordIo
  refine Runs.bind hentries fun _ s' d' hs' => ?_
  have hpath := hs'.path
  have hcommit : Runs env (Wal.writeCommit p s'.sequence) s'.wal d'
      [⟨.write, s'.wal.filePath⟩, ⟨.sync, s'.wal.filePath⟩] fun _ _ _ => True := by
    refine runs_writeCommit hs'.live (hs'.opened (Or.inr hb)) _ ?_
    rw [hpath, hs'.sequence, hs'.bytes, List.length_append]
    omega
  rw [hpath] at hcommit
  have hlogCommit : Runs env (Store.logCommit p) s' d' [⟨.write, walName⟩, ⟨.sync, walName⟩]
      fun _ s'' _ => s''.Counted := by
    unfold Store.logCommit
    exact .withSelf (Runs.onField (hcommit.mono fun _ _ _ _ => hs'.counted))
  exact hlogCommit.last fun _ _ _ hs'' => runs_applyBatch b hs''

/-- **A batch is recorded** exactly if the log has room and none of these calls fails. -/
theorem recordBatch_ok_iff (hb : b ≠ []) (hlog : s.OnLog d) (hcounted : s.Counted)
    (hseq : s.sequence.toNat + b.length < 2 ^ 64) (n : ℕ) :
    (∃ x, Store.recordBatch p b ⟨s, d, env, n⟩ = .ok () x) ↔
      s.LogRoom p d b ∧ env.firstFault n (s.recordIo b) = none := by
  constructor
  · rintro ⟨x, hx⟩
    have hdoes : Does env (Store.recordBatch p b) s d (fun _ _ d' => d'.bytesOf walName = d.bytesOf walName ++
        logBytes p (batchLog s.sequence b ++ [commitEntry (batchEnd s.sequence b)])) fun _ _ _ => True :=
      does_recordBatch b hlog hcounted (fun _ w' d' bs _ _ hbs hb' => by rw [hb'.bytes, hbs])
        (fun _ _ _ _ _ _ _ _ _ => trivial) (Or.inl hseq)
    have hroom : s.LogRoom p d b := by
      have hle := x.disk.bytesOf_length_le walName
      rw [hdoes.of_ok hx, List.length_append] at hle
      exact hle
    exact ⟨hroom, ((runs_recordBatch hb hlog hcounted hseq hroom n).of_ok hx).1.2.2⟩
  · rintro ⟨hroom, hnone⟩
    have hruns := (runs_recordBatch hb hlog hcounted hseq hroom : Runs env _ s d _ _) n
    cases hrec : Store.recordBatch p b ⟨s, d, env, n⟩ with
    | ok r x => exact ⟨x, rfl⟩
    | error e x =>
      obtain ⟨f, hf, -⟩ := hruns.of_error hrec
      rw [hnone] at hf
      cases hf

/-! ## The table -/

/-- **A table is written.** -/
theorem runs_flush {name : FileName} {entries : List Record}
    (hlen : (encodeTable p entries).file.length ≤ maxFileLen) :
    Runs env (SsTable.flush p name entries) a d (tableIo name) fun _ a' _ => a' = a := by
  have hdir : Runs env createDirAll a d [⟨.createDirAll, ""⟩] fun _ a' _ => a' = a := .ioCall rfl rfl
  unfold SsTable.flush tableIo
  refine hdir.cons ?_
  rintro _ a d rfl
  refine runs_openTruncate.cons ?_
  rintro _ a d ⟨rfl, hd⟩
  refine (runs_writeAll hd (by rw [show File.empty.bytes = [] from rfl, List.length_nil]; omega)).cons ?_
  rintro _ a _ ⟨rfl, rfl⟩
  have hfile : (d.put name (File.empty.append (encodeTable p entries).file)).files[name]? =
      some (File.empty.append (encodeTable p entries).file) := by simp
  refine (runs_syncAll hfile).last ?_
  rintro _ a _ rfl
  exact .pure rfl

/-- The next id is taken. -/
theorem runs_succU64 {n : ℕ} (h : n + 1 < 2 ^ 64) {β : Type} {f : ℕ → Prog σ β} {calls : List IoCall}
    {Q : β → σ → Disk → Prop} (hf : Runs env (f (n + 1)) a d calls Q) : Runs env (succU64 n >>= f) a d calls Q := by
  unfold succU64
  rw [if_pos h, pure_bind]
  exact hf

/-- The store is replaced. -/
theorem runs_setSelf {b : σ} {β : Type} {f : PUnit → Prog σ β} {calls : List IoCall} {Q : β → σ → Disk → Prop}
    (hf : Runs env (f ⟨⟩) b d calls Q) : Runs env (setSelf b >>= f) a d calls Q := by
  have hset : Runs env (setSelf b) a d [] fun _ a' d' => a' = b ∧ d' = d := .setSelf ⟨rfl, rfl⟩
  refine hset.seq ?_
  rintro _ _ _ ⟨rfl, rfl⟩
  exact hf

/-- **The memtable is written out.** -/
theorem Running.runs_flushTable (h : Running p s d L) (hfits : L.TableFits p L.data) :
    Runs env (Store.flushTable p) s d (tableIo (sstName s.nextSstableId) ++ clearIo walName)
      fun _ s' d' => Running p s' d' L.flushTable := by
  have hruns : Runs env (Store.flushTable p) s d (tableIo (sstName s.nextSstableId) ++ clearIo walName)
      fun _ _ _ => True := by
    obtain ⟨hlen, -⟩ := h.toImplements.holds_data hfits
    unfold Store.flushTable
    refine .withSelf (Runs.bind (runs_flush hlen) ?_)
    rintro sst s d' rfl
    refine runs_succU64 (by rw [h.nextId]; exact hfits.nextId) (runs_setSelf ?_)
    have hclear : Runs env Wal.clear s.wal d' (clearIo s.wal.filePath) fun _ _ _ => True := runs_clear
    rw [h.path] at hclear
    exact Runs.onField (hclear.mono fun _ _ _ _ => trivial)
  have hdoes : Does env (Store.flushTable p) s d (fun _ s' d' => Running p s' d' L.flushTable) fun _ _ _ => True :=
    h.does_flushTable hfits (fun _ _ h' => h') fun _ _ _ _ => trivial
  exact (hruns.and hdoes).mono fun _ _ _ h' => h'.2

/-! ## The merge -/

theorem runs_readBlocks (hp : p.Lawful) {name : FileName} {f : File} {entries : List Record}
    (hd : d.files[name]? = some f) (h : f.Holds p entries) (pre gs : List (List Record))
    (hpre : groups p entries = pre ++ gs) (out : List Record) :
    Runs env (readBlocks p name (indexFrom p (dataRegion p pre).length gs) out) a d
      (List.replicate gs.length ⟨.read, name⟩) fun _ _ _ => True := by
  induction gs generalizing pre out with
  | nil => exact .pure trivial
  | cons g gs ih =>
    have hmem : g ∈ groups p entries := by rw [hpre]; simp
    have hblock : Runs env (readBlockFromDisk name (blockEntry p pre g)) a d [⟨.read, name⟩]
        fun r a' d' => r = blockBytes p g ∧ a' = a ∧ d' = d := by
      unfold readBlockFromDisk
      refine (runs_readExactAt hd (h.readAt_block hpre)).last ?_
      rintro _ a d ⟨rfl, rfl, rfl⟩
      exact .ofStop (checkBlock_sealedBlock _ g) ⟨rfl, rfl, rfl⟩
    rw [indexFrom_cons, List.length_cons, List.replicate_succ]
    unfold readBlocks
    refine hblock.cons ?_
    rintro _ a d ⟨rfl, rfl, rfl⟩
    have hdec : Runs env (ofExcept (decodeRecords p (blockBytes p g) (blockBytes p g).length 0 out)) a d []
        fun r a' d' => r = out ++ g ∧ a' = a ∧ d' = d :=
      .ofExcept (decodeRecords_block hp (h.recordFits hmem) out) ⟨rfl, rfl, rfl⟩
    refine hdec.seq ?_
    rintro _ a d ⟨rfl, rfl, rfl⟩
    exact ih (pre ++ [g]) (by rw [hpre]; simp) (out ++ g)

/-- **A whole table is read.** -/
theorem runs_readAllEntries (hp : p.Lawful) {t : SsTable} {f : File} {entries : List Record}
    (hd : d.files[t.path]? = some f) (h : f.Holds p entries) (ht : t.index = tableIndex p entries) :
    Runs env (SsTable.readAllEntries p t) a d t.listIo fun _ a' d' => a' = a ∧ d' = d := by
  have hruns : Runs env (SsTable.readAllEntries p t) a d t.listIo fun _ _ _ => True := by
    unfold SsTable.readAllEntries SsTable.listIo
    by_cases hnil : t.index = []
    · rw [if_pos hnil, if_pos hnil]
      exact .pure trivial
    · rw [if_neg hnil, if_neg hnil]
      refine (runs_openRead hd).cons ?_
      rintro _ a d ⟨rfl, rfl⟩
      have hlen : t.index.length = (groups p entries).length := by rw [ht, tableIndex, length_indexFrom]
      rw [hlen, ht]
      exact runs_readBlocks hp hd h [] _ rfl []
  have hdoes : Does env (SsTable.readAllEntries p t) a d (fun _ a' d' => a' = a ∧ d' = d) fun _ _ _ => True :=
    does_readAllEntries hp hd h ht ⟨rfl, rfl⟩ fun _ _ => trivial
  exact (hruns.and hdoes).mono fun _ _ _ h' => h'.2

theorem runs_mergeFrom (hp : p.Lawful) {hs : List SsTable} {ts : List (ℕ × Memtable)}
    (h : List.Forall₂ (SsTable.HandleOf p) hs ts)
    (hfiles : ∀ x ∈ ts, ∃ f, d.files[sstName x.1]? = some f ∧ f.Holds p x.2.toList) (merged : Memtable) :
    Runs env (Store.mergeFrom p hs merged) s d (hs.flatMap SsTable.listIo) fun _ _ _ => True := by
  induction h generalizing merged with
  | nil => exact .pure trivial
  | @cons tb x hs ts hr _ ih =>
    obtain ⟨f, hf, hholds⟩ := hfiles x (List.mem_cons_self ..)
    unfold Store.mergeFrom
    rw [List.flatMap_cons]
    refine Runs.bind (runs_readAllEntries hp (by rw [hr.path]; exact hf) hholds hr.serves.index) ?_
    rintro entries _ _ ⟨rfl, rfl⟩
    exact ih (fun y hy => hfiles y (List.mem_cons_of_mem _ hy)) _

/-- **All tables are merged.** -/
theorem Running.runs_mergeTables (hp : p.Lawful) (h : Running p s d L) :
    Runs env (Store.mergeTables p) s d (s.sstables.reverse.flatMap SsTable.listIo)
      fun r s' d' => r = mergedTables L.tables ∧ s' = s ∧ d' = d := by
  have hruns : Runs env (Store.mergeTables p) s d (s.sstables.reverse.flatMap SsTable.listIo) fun _ _ _ => True := by
    unfold Store.mergeTables
    refine .withSelf (Runs.last (runs_mergeFrom hp (List.forall₂_reverse_iff.2 h.handles)
      (fun x hx => h.table x (List.mem_reverse.1 hx)) ∅) fun _ _ _ _ => .pure trivial)
  have hdoes : Does env (Store.mergeTables p) s d (fun r s' d' => r = mergedTables L.tables ∧ s' = s ∧ d' = d)
      fun _ _ _ => True := does_mergeTables hp h ⟨rfl, rfl, rfl⟩ fun _ _ => trivial
  exact (hruns.and hdoes).mono fun _ _ _ h' => h'.2

/-! ## The flush -/

/-- Removing old files raises no error. -/
theorem fails_cleanup (paths : List FileName) : Fails env (Store.cleanup paths) s d [] := by
  refine .nil fun n => ?_
  have hloop : Does env (Store.cleanup paths) s d (fun _ _ _ => True) fun e _ _ => ∀ err, e ≠ .err err := by
    refine Does.loop (fun _ _ => True) paths (fun path _ s d _ => ?_) trivial
    refine Does.ignoreErr (.ioCall_noEffect ?_ fun e _ => ?_)
    · split <;> trivial
    · cases e <;> first | trivial | nofun
  exact (hloop n).mono (fun _ _ _ => trivial) fun _ _ he => he.2

/-- **A compaction** fails on the calls that read the tables, and on those that write the merged one. -/
theorem Running.fails_compact (hp : p.Lawful) (h : Running p s d L) (hfits : L.CompactFits p)
    (hmany : 2 ≤ L.tables.length) : Fails env (Store.compact p) s d (s.sstables.reverse.flatMap SsTable.listIo ++
      if (mergedTables L.tables).isEmpty then [] else tableIo (sstName s.nextSstableId)) := by
  have hlen := h.handles.length_eq
  unfold Store.compact
  refine .withSelf ?_
  rw [if_neg (by omega)]
  refine (h.runs_mergeTables hp).fails ?_
  rintro _ s d ⟨rfl, rfl, rfl⟩
  have hinstall : Runs env (Store.installMerged p (mergedTables L.tables)) s d
      (if (mergedTables L.tables).isEmpty then [] else tableIo (sstName s.nextSstableId)) fun _ _ _ => True := by
    unfold Store.installMerged
    refine .withSelf ?_
    cases hemp : (mergedTables L.tables).isEmpty with
    | true =>
      rw [if_pos rfl, if_pos rfl]
      exact .setSelf trivial
    | false =>
      have hfit := hfits hmany hemp
      rw [if_neg Bool.false_ne_true, if_neg Bool.false_ne_true]
      refine (runs_flush hfit.table.file).last ?_
      rintro _ _ _ rfl
      exact runs_succU64 (by rw [h.nextId]; exact hfit.nextId) (.setSelf trivial)
  have hfails := hinstall.fails fun _ s' d' _ => fails_cleanup (s.sstables.map SsTable.path)
  rwa [List.append_nil] at hfails

/-- Handles of the same tables are read by the same calls. -/
theorem flatMap_listIo {hs : List SsTable} {ts : List (ℕ × Memtable)} (h : List.Forall₂ (SsTable.HandleOf p) hs ts) :
    hs.flatMap SsTable.listIo = ts.flatMap fun x => (freshTable p (sstName x.1) x.2.toList).listIo := by
  induction h with
  | nil => rfl
  | cons hr _ ih =>
    rw [List.flatMap_cons, List.flatMap_cons, ih]
    unfold SsTable.listIo
    rw [hr.path, hr.serves.index]
    rfl

/-- The calls of a flush depend on the layers only. -/
theorem Implements.flushIo_eq (h : Implements p s L) (data : Memtable) : s.flushIo p data =
    tableIo (sstName L.nextId) ++ clearIo walName ++
      if L.tables.length + 1 > MAX_SSTABLES then ((L.nextId, data) :: L.tables).reverse.flatMap fun x =>
        (freshTable p (sstName x.1) x.2.toList).listIo
      else [] := by
  have hnew : SsTable.HandleOf p (freshTable p (sstName L.nextId) data.toList) (L.nextId, data) :=
    ⟨rfl, serves_freshTable _ _⟩
  unfold Store.flushIo
  rw [h.handles.length_eq, h.nextId, flatMap_listIo (List.forall₂_reverse_iff.2 (.cons hnew h.handles))]

theorem Implements.mergeIo_eq (h : Implements p s L) : s.mergeIo =
    if L.tables.length + 1 > MAX_SSTABLES then tableIo (sstName (L.nextId + 1)) else [] := by
  unfold Store.mergeIo
  rw [h.handles.length_eq, h.nextId]

/-- **A flush** fails on its calls, and on those that write the merged table if there is one. -/
theorem Running.fails_flush (hp : p.Lawful) (h : Running p s d L) (hdata : L.data.isEmpty = false)
    (hfits : L.FlushFits p) : Fails env (Store.flush p) s d
      (s.flushIo p L.data ++ if (mergedTables L.flushTable.tables).isEmpty then [] else s.mergeIo) := by
  have hfits := hfits hdata
  have hcount : L.flushTable.tables.length = L.tables.length + 1 := rfl
  unfold Store.flush
  refine .withSelf ?_
  rw [h.data, hdata, if_neg Bool.false_ne_true, h.toImplements.flushIo_eq, h.toImplements.mergeIo_eq, ← h.nextId,
    List.append_assoc]
  refine (h.runs_flushTable hfits.table).fails fun _ s' d' h' => ?_
  have hlen := h'.handles.length_eq
  unfold Store.maybeCompact
  refine .withSelf ?_
  by_cases hmany : L.tables.length + 1 > MAX_SSTABLES
  · have hcompact : Fails env (Store.compact p) s' d' _ :=
      h'.fails_compact hp (hfits.compact hmany) (by unfold MAX_SSTABLES at hmany; omega)
    rw [flatMap_listIo (List.forall₂_reverse_iff.2 h'.handles), h'.nextId] at hcompact
    rw [if_pos (by omega), if_pos hmany, if_pos hmany, h.nextId]
    exact hcompact
  · rw [if_neg (by omega), if_neg hmany, if_neg hmany, ite_self]
    exact .pure

/-- **At the budget** a write flushes, and otherwise it is done. -/
theorem Running.maybeFlush_fails_iff (hp : p.Lawful) (h : Running p s d L) (hdata : L.data.isEmpty = false)
    (hfits : L.bytes ≥ L.budget → L.FlushFits p) (n : ℕ) :
    (∃ err x, Store.maybeFlush p ⟨s, d, env, n⟩ = .error (.err err) x) ↔ L.bytes ≥ L.budget ∧
      env.FailsIn n (s.flushIo p L.data ++ if (mergedTables L.flushTable.tables).isEmpty then [] else s.mergeIo) := by
  by_cases hfull : L.bytes ≥ L.budget
  · have hflush : Fails env (Store.maybeFlush p) s d
        (s.flushIo p L.data ++ if (mergedTables L.flushTable.tables).isEmpty then [] else s.mergeIo) := by
      unfold Store.maybeFlush
      refine .withSelf ?_
      rw [h.bytes_eq, h.budget, if_pos hfull]
      exact h.fails_flush hp hdata (hfits hfull)
    rw [hflush.iff n, and_iff_right hfull]
  · have hdone : Fails env (Store.maybeFlush p) s d [] := by
      unfold Store.maybeFlush
      refine .withSelf ?_
      rw [h.bytes_eq, h.budget, if_neg hfull]
      exact .pure
    rw [hdone.iff n]
    exact iff_of_false (Env.not_failsIn_of_none rfl) fun hno => hfull hno.1

/-- The merged table has an entry exactly if some key has a value in the tables. -/
theorem isEmpty_mergedTables_iff (tables : List (ℕ × Memtable)) : (mergedTables tables).isEmpty = true ↔
    ∀ key, resolve Entry.live (tables.map fun t => layer t.2) key = none := by
  constructor
  · intro hemp key
    rw [← resolve_mergedTables, resolve_cons_none (layer_eq_none_of_isEmpty hemp key)]
    rfl
  · intro hnone
    rw [Std.ExtTreeMap.isEmpty_iff]
    refine Std.ExtTreeMap.ext_getElem? fun key => ?_
    have hlayer := layer_mergedTables tables key
    have hkey := hnone key
    unfold resolve at hkey
    rw [Std.ExtTreeMap.getElem?_empty]
    refine hlayer.trans ?_
    cases hf : first (tables.map fun t => layer t.2) key with
    | none => rfl
    | some e =>
      rw [hf] at hkey
      cases e with
      | value v => cases hkey
      | tombstone => rfl

end FerrumDB
