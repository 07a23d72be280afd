import FerrumDB.Store.Invariant
import FerrumDB.Store.FileNames

/-!
# Flush and compaction

`does_flushTable`: the memtable becomes the newest table and the log is cleared. `does_compact`: all
tables are merged into one, and the old files are removed; the files that could not be removed stay
in the directory as older tables. `does_flush` and `does_maybeFlush` put the two together for an
environment that only faults on the log.
-/

namespace FerrumDB

open FramedLog

variable {env : Env} {s : Store} {d d' : Disk} {L : Layers} {junk : List WalEntry} {t : Bytes}
  {p : Prost} {tables : List (ℕ × Memtable)}

/-! ## Frames -/

/-- Tables do not depend on the log file. -/
theorem TablesStored.frame (h : TablesStored p d tables)
    (hf : ∀ n ≠ walName, d'.files[n]? = d.files[n]?) : TablesStored p d' tables where
  table x hx := by rw [hf _ (sstName_ne_walName _)]; exact h.table x hx
  descending := h.descending
  ids := h.ids
  files name f hname := by
    by_cases hw : name = walName
    · exact Or.inr (Or.inl hw)
    · rw [hf name hw] at hname; exact h.files name f hname

/-- The log does not depend on other files. -/
theorem LogStored.frame {log : List WalEntry} {data : Memtable} (h : LogStored p d log data junk t)
    (hf : d'.files[walName]? = d.files[walName]?) : LogStored p d' log data junk t := by
  have hb : d'.bytesOf walName = d.bytesOf walName := by unfold Disk.bytesOf; rw [hf]
  have hs : d'.syncedOf walName = d.syncedOf walName := by unfold Disk.syncedOf; rw [hf]
  exact { h with bytes := by rw [hb]; exact h.bytes, synced := by rw [hs]; exact h.synced }

theorem Store.OnLog.frame (h : s.OnLog d) (hf : d'.files[walName]? = d.files[walName]?) :
    s.OnLog d' :=
  ⟨h.path, fun hopen => by have := h.live hopen; rw [h.path] at this ⊢; rwa [hf]⟩

/-- The same log handle over the same log file. -/
theorem Store.OnLog.moved {s' : Store} (h : s.OnLog d) (hw : s'.wal = s.wal)
    (hf : d'.files[walName]? = d.files[walName]?) : s'.OnLog d' := by
  have h' := h.frame hf
  exact ⟨by rw [hw]; exact h'.path, by rw [hw]; exact h'.live⟩

theorem files_put_walName (d : Disk) (id : ℕ) (f : File) :
    (d.put (sstName id) f).files[walName]? = d.files[walName]? := by
  rw [Disk.files_put, if_neg (sstName_ne_walName id)]

/-- A new table on top. -/
theorem TablesStored.put (h : TablesStored p d tables) {x : ℕ × Memtable} {f : File}
    (hnew : ∀ y ∈ tables, y.1 < x.1) (hid : x.1 + 1 < 2 ^ 64) (hf : f.Holds p x.2.toList) :
    TablesStored p (d.put (sstName x.1) f) (x :: tables) where
  table y hy := by
    rcases List.mem_cons.1 hy with rfl | hy
    · exact ⟨f, by simp, hf⟩
    · have hne : sstName x.1 ≠ sstName y.1 := fun he => by
        have := hnew y hy; rw [sstName_injective he] at this; omega
      rw [Disk.files_put, if_neg hne]
      exact h.table y hy
  descending := List.pairwise_cons.2 ⟨hnew, h.descending⟩
  ids y hy := by
    rcases List.mem_cons.1 hy with rfl | hy
    · exact hid
    · exact h.ids y hy
  files name g hname := by
    rw [Disk.files_put] at hname
    by_cases hx : sstName x.1 = name
    · exact Or.inr (Or.inr ⟨x, List.mem_cons_self .., hx.symm⟩)
    · rw [if_neg hx] at hname
      rcases h.files name g hname with h | h | ⟨y, hy, h⟩
      · exact Or.inl h
      · exact Or.inr (Or.inl h)
      · exact Or.inr (Or.inr ⟨y, List.mem_cons_of_mem _ hy, h⟩)

/-! ## Flushing the memtable -/

/-- An empty log. -/
theorem logStored_nil (hb : d.bytesOf walName = []) : LogStored p d [] ∅ [] [] where
  bytes := hb
  synced := Nat.zero_le _
  closed := closed_nil isCommit
  unmarked e he := by cases he
  torn := torn_nil _ _
  replays := replays_nil

theorem does_succU64 {σ : Type} {a : σ} {n : ℕ} {Q : ℕ → σ → Disk → Prop} {E : Stop → σ → Disk → Prop}
    (h : n + 1 < 2 ^ 64) (hQ : Q (n + 1) a d) : Does env (succU64 n) a d Q E := by
  unfold succU64
  rw [if_pos h]
  exact .pure hQ

/-- A store whose memtable became the newest table, and whose log was cleared. -/
def Store.flushed (p : Prost) (s : Store) : Store :=
  { s with
    nextSstableId := s.nextSstableId + 1
    sstables := freshTable p (sstName s.nextSstableId) s.data.toList :: s.sstables
    data := ∅
    memtableBytes := 0
    wal := { s.wal with file := false } }

/-- The calls that clear the log. -/
def clearCalls (c : IoCall) : Prop := onPath walName c ∧ (c.op = .openTruncate ∨ c.op = .sync)

/-- The course of `flushTable` for a memtable whose file fits: the table is written and fsynced first,
then the store counts on it, and the log is cleared. -/
theorem does_flushTable_file (hlen : (encodeTable p s.data.toList).file.length ≤ maxFileLen)
    (hid : s.nextSstableId + 1 < 2 ^ 64) (hpath : s.wal.filePath = walName)
    {Q : Unit → Store → Disk → Prop} {E : Stop → Store → Disk → Prop}
    (hQ : ∀ d', (d.put (sstName s.nextSstableId) (tableFile p s.data.toList hlen)).Becomes walName [] 0 d' →
      Q () (s.flushed p) d')
    (hsst : ∀ e, env.Faults (flushCalls (sstName s.nextSstableId)) e → E e s d ∧
      ∀ f : File, f.bytes <+: (encodeTable p s.data.toList).file →
        E e s (d.put (sstName s.nextSstableId) f))
    (hclear : ∀ e d', env.Faults clearCalls e →
      d' = d.put (sstName s.nextSstableId) (tableFile p s.data.toList hlen) ∨
        (d.put (sstName s.nextSstableId) (tableFile p s.data.toList hlen)).Becomes walName [] 0 d' →
      E e (s.flushed p) d') :
    Does env (Store.flushTable p) s d Q E := by
  unfold Store.flushTable
  refine .withSelf (Does.bind (does_flush hlen ?_ hsst))
  refine Does.bind (does_succU64 hid (Does.bind (.setSelf (Does.onField ?_))))
  refine does_clear (fun d' hb => ?_) (fun e he => ?_) fun e d' he hb => ?_
  · rw [show (Store.wal _).filePath = walName from hpath] at hb
    exact hQ d' hb
  · exact hclear e _ (he.mono fun c hc => by rw [hc]; exact ⟨hpath, Or.inl rfl⟩) (Or.inl rfl)
  · rw [show (Store.wal _).filePath = walName from hpath] at hb
    exact hclear e d' (he.mono fun c hc => by rw [hc]; exact ⟨hpath, Or.inr rfl⟩) (Or.inr hb)

/-- The memory of a store whose memtable became the newest table. -/
theorem Implements.flushed (h : Implements p s L) (hid : L.nextId + 1 < 2 ^ 64) :
    Implements p (s.flushed p) L.flushTable where
  data := rfl
  counted := OrderedMap.total_empty.symm
  budget := h.budget
  sequence := h.sequence
  nextId := congrArg (· + 1) h.nextId
  handles := by
    refine .cons ⟨by rw [h.nextId]; rfl, ?_⟩ h.handles
    rw [h.data]
    exact serves_freshTable _ _
  below x hx := by
    rcases List.mem_cons.1 hx with rfl | hx
    · exact Nat.lt_succ_self _
    · exact Nat.lt_succ_of_lt (h.below x hx)
  nextId_lt := hid

/-- The file of the memtable holds the data of the layers. -/
theorem Implements.holds_data (h : Implements p s L) (hfits : L.TableFits p L.data) :
    ∃ hlen : (encodeTable p s.data.toList).file.length ≤ maxFileLen,
      (tableFile p s.data.toList hlen).Holds p L.data.toList := by
  rw [h.data]
  exact ⟨hfits.table.file, holds_tableFile hfits.table (ascending_toList L.data)⟩

/-- A flush stopped while it cleared the log: the new table counts, the log is intact or empty. -/
structure ClearCut (p : Prost) (s : Store) (d d' : Disk) (L : Layers) : Prop extends
    TablesStored p d' ((L.nextId, L.data) :: L.tables), Implements p s L.flushTable, s.OnLog d' where
  locked : d'.locked = true
  log : d'.files[walName]? = d.files[walName]? ∨ d'.bytesOf walName = []

theorem ClearCut.stored (h : ClearCut p s d d' L) (hlog : LogStored p d L.log L.data junk t) :
    Stored p d' { L with tables := (L.nextId, L.data) :: L.tables } junk t ∨
      Stored p d' L.flushTable [] [] := by
  rcases h.log with hsame | hempty
  · exact Or.inl { h.toTablesStored, hlog.frame hsame with }
  · exact Or.inr { h.toTablesStored, logStored_nil hempty with }

/-- **Flushing the memtable** when its table fits. -/
theorem does_flushTable (h : Follows p s d L) (hfits : L.TableFits p L.data)
    {Q : Unit → Store → Disk → Prop} {E : Stop → Store → Disk → Prop}
    (hQ : ∀ s' d', Agrees p s' d' L.flushTable [] [] → Q () s' d')
    (hsst : ∀ e, env.Faults (flushCalls (sstName L.nextId)) e → E e s d ∧
      ∀ f : File, f.bytes <+: (encodeTable p L.data.toList).file → E e s (d.put (sstName L.nextId) f))
    (hclear : ∀ e s' d', env.Faults clearCalls e → ClearCut p s' d d' L → E e s' d') :
    Does env (Store.flushTable p) s d Q E := by
  have hdata := h.data
  have hnext := h.nextId
  obtain ⟨hlen, hholds⟩ := h.toImplements.holds_data hfits
  have htables : TablesStored p (d.put (sstName s.nextSstableId) (tableFile p s.data.toList hlen))
      ((L.nextId, L.data) :: L.tables) := by
    rw [hnext]
    exact h.toTablesStored.put (x := (L.nextId, L.data)) h.below hfits.nextId hholds
  have hfile := files_put_walName d s.nextSstableId (tableFile p s.data.toList hlen)
  have himpl := h.toImplements.flushed hfits.nextId
  have hpath : ∀ d', (s.flushed p).OnLog d' := fun d' => ⟨h.path, fun hopen => by cases hopen⟩
  rw [← hdata, ← hnext] at hsst
  refine does_flushTable_file hlen (by rw [hnext]; exact hfits.nextId) h.path (fun d' hb => ?_) hsst
    fun e d' he hd' => hclear e _ d' he ?_
  · exact hQ _ _ { htables.frame hb.others, himpl, hpath d', logStored_nil hb.bytes with
      locked := hb.locked.trans h.locked }
  · rcases hd' with rfl | hb
    · exact { htables, himpl, hpath _ with locked := h.locked, log := Or.inl hfile }
    · exact { htables.frame hb.others, himpl, hpath _ with
        locked := hb.locked.trans h.locked, log := Or.inr hb.bytes }

/-! ## Merging -/

theorem does_mergeFrom (hp : p.Lawful) {hs : List SsTable} {ts : List (ℕ × Memtable)}
    (h : List.Forall₂ (SsTable.HandleOf p) hs ts)
    (hfiles : ∀ x ∈ ts, ∃ f, d.files[sstName x.1]? = some f ∧ f.Holds p x.2.toList)
    (merged : Memtable) {Q : Memtable → Store → Disk → Prop} {E : Stop → Store → Disk → Prop}
    (hQ : Q (ts.foldl (fun (m : Memtable) t => m.insertMany t.2.toList) merged) s d)
    (hE : ∀ e, env.Faults (fun c => ∃ x ∈ ts, readCalls (sstName x.1) c) e → E e s d) :
    Does env (Store.mergeFrom p hs merged) s d Q E := by
  induction h generalizing merged with
  | nil => exact .pure hQ
  | @cons tb x hs ts hr _ ih =>
    obtain ⟨f, hf, hholds⟩ := hfiles x (List.mem_cons_self ..)
    unfold Store.mergeFrom
    refine Does.bind (does_readAllEntries hp (by rw [hr.path]; exact hf) hholds hr.serves.index ?_
      fun e he => hE e (he.mono fun c hc => ⟨x, List.mem_cons_self .., by rw [← hr.path]; exact hc⟩))
    exact ih (fun y hy => hfiles y (List.mem_cons_of_mem _ hy)) _ hQ fun e he =>
      hE e (he.mono fun c ⟨y, hy, hc⟩ => ⟨y, List.mem_cons_of_mem _ hy, hc⟩)

/-- **Merging.** The merge of all tables, oldest to newest, without tombstones. -/
theorem does_mergeTables (hp : p.Lawful) (h : Running p s d L)
    {Q : Memtable → Store → Disk → Prop} {E : Stop → Store → Disk → Prop}
    (hQ : Q (mergedTables L.tables) s d) (hE : ∀ e, env.Faults (onTables L) e → E e s d) :
    Does env (Store.mergeTables p) s d Q E := by
  unfold Store.mergeTables
  refine .withSelf (Does.bind (does_mergeFrom hp (List.forall₂_reverse_iff.2 h.handles)
    (fun x hx => h.table x (List.mem_reverse.1 hx)) ∅ (.pure hQ) fun e he => ?_))
  exact hE e (he.mono fun c ⟨x, hx, hc⟩ => ⟨x, List.mem_reverse.1 hx, hc⟩)

/-! ## Removing obsolete files -/

/-- Removing the file of a table in the stack. -/
theorem TablesStored.erase {pre post : List (ℕ × Memtable)} {x : ℕ × Memtable}
    (h : TablesStored p d (pre ++ x :: post)) :
    TablesStored p { d with files := d.files.erase (sstName x.1) } (pre ++ post) where
  table y hy := by
    have hne : sstName x.1 ≠ sstName y.1 := fun he => by
      have hid := sstName_injective he
      rcases List.mem_append.1 hy with hy | hy
      · have := (List.pairwise_append.1 h.descending).2.2 y hy x (List.mem_cons_self ..); omega
      · have := (List.pairwise_cons.1 (List.pairwise_append.1 h.descending).2.1).1 y hy; omega
    have hget : (d.files.erase (sstName x.1))[sstName y.1]? = d.files[sstName y.1]? := by
      rw [Std.ExtTreeMap.getElem?_erase, if_neg (by rw [Std.compare_eq_iff_eq]; exact hne)]
    rw [hget]
    exact h.table y (List.mem_append.2 ((List.mem_append.1 hy).imp_right (List.mem_cons_of_mem _)))
  descending := h.descending.sublist (List.Sublist.append_left (List.sublist_cons_self _ _) _)
  ids y hy := h.ids y (List.mem_append.2 ((List.mem_append.1 hy).imp_right (List.mem_cons_of_mem _)))
  files name f hname := by
    rw [Std.ExtTreeMap.getElem?_erase] at hname
    split at hname
    · cases hname
    · next hne =>
      rcases h.files name f hname with h' | h' | ⟨y, hy, rfl⟩
      · exact Or.inl h'
      · exact Or.inr (Or.inl h')
      · refine Or.inr (Or.inr ⟨y, ?_, rfl⟩)
        rcases List.mem_append.1 hy with hy | hy
        · exact List.mem_append_left _ hy
        · rcases List.mem_cons.1 hy with rfl | hy
          · exact absurd (Std.compare_eq_iff_eq.2 rfl) hne
          · exact List.mem_append_right _ hy

theorem does_removeFile {σ : Type} {a : σ} {name : FileName} {f : File} (hf : d.files[name]? = some f)
    {Q : Unit → σ → Disk → Prop} {E : Stop → σ → Disk → Prop}
    (hQ : Q () a { d with files := d.files.erase name })
    (hE : ∀ e, env.Faults (· = ⟨.remove, name⟩) e → E e a d) : Does env (removeFile name) a d Q E := by
  refine .ioCall_noEffect ?_ hE
  rw [if_pos (by rw [Std.ExtTreeMap.contains_iff_mem, Std.ExtTreeMap.mem_iff_isSome_getElem?, hf]; rfl)]
  exact hQ

/-- The calls that are not on the log. -/
def offLog (c : IoCall) : Prop := c.path ≠ walName

/-- The calls that remove a table file. -/
def removeCalls (c : IoCall) : Prop := c.op = .remove ∧ offLog c

/-- **Cleanup.** Some of the old files may survive it: those whose removal failed, and those left
when the process stopped. -/
theorem does_cleanup {new : List (ℕ × Memtable)} (old kept : List (ℕ × Memtable))
    (h : TablesStored p d (new ++ (kept ++ old))) {Q : Unit → Store → Disk → Prop}
    {E : Stop → Store → Disk → Prop}
    (hQ : ∀ sv d', sv.Sublist old → (env.Spares removeCalls → sv = []) →
      d'.files[walName]? = d.files[walName]? → d'.locked = d.locked →
      TablesStored p d' (new ++ (kept ++ sv)) → Q () s d')
    (hE : ∀ e sv d', sv.Sublist old → env.Faults removeCalls e → e = .crash →
      d'.files[walName]? = d.files[walName]? → d'.locked = d.locked →
      TablesStored p d' (new ++ (kept ++ sv)) → E e s d') :
    Does env (Store.cleanup (old.map fun x => sstName x.1)) s d Q E := by
  induction old generalizing kept d with
  | nil => exact .pure (hQ [] d .slnil (fun _ => rfl) rfl rfl h)
  | cons x old ih =>
    have hmem : x ∈ new ++ (kept ++ x :: old) := by simp
    obtain ⟨f, hf, -⟩ := h.table x hmem
    unfold Store.cleanup
    rw [List.map_cons, List.forM_cons]
    refine Does.bind (.ignoreErr (does_removeFile hf ?_ fun e he => ?_))
    · -- the loop goes on, the file removed
      have herase : TablesStored p { d with files := d.files.erase (sstName x.1) }
          (new ++ (kept ++ old)) := by
        have hsplit : TablesStored p d ((new ++ kept) ++ x :: old) := by simpa using h
        simpa using hsplit.erase
      have hwal : (Disk.files { d with files := d.files.erase (sstName x.1) })[walName]? =
          d.files[walName]? := by
        show (d.files.erase (sstName x.1))[walName]? = _
        rw [Std.ExtTreeMap.getElem?_erase, if_neg]
        rw [Std.compare_eq_iff_eq]; exact sstName_ne_walName _
      refine ih kept herase (fun sv d' hsv hsp hw hl ht => ?_) fun e sv d' hsv he hcr hw hl ht => ?_
      · exact hQ sv d' (hsv.cons x) hsp (hw.trans hwal) hl ht
      · exact hE e sv d' (hsv.cons x) he hcr (hw.trans hwal) hl ht
    · have hfault : env.Faults removeCalls e :=
        he.mono fun c hc => by rw [hc]; exact ⟨rfl, sstName_ne_walName _⟩
      rcases hfault.cases with ⟨msg, rfl⟩ | rfl
      · -- the loop goes on, the file kept
        have hkeep : TablesStored p d (new ++ ((kept ++ [x]) ++ old)) := by simpa using h
        refine ih (kept ++ [x]) hkeep (fun sv d' hsv hsp hw hl ht => ?_)
          fun e sv d' hsv he hcr hw hl ht => ?_
        · refine hQ (x :: sv) d' (hsv.cons_cons x) (fun hsp => (hsp.not_faults hfault).elim) hw hl ?_
          simpa using ht
        · exact hE e (x :: sv) d' (hsv.cons_cons x) he hcr hw hl (by simpa using ht)
      · exact hE _ (x :: old) d (List.Sublist.refl _) hfault rfl rfl rfl h

/-! ## Compaction -/

/-- What a compaction leaves: the merged layers, with the old tables `sv` still in the directory. -/
structure Compacted (p : Prost) (s : Store) (d d' : Disk) (L : Layers) (sv : List (ℕ × Memtable)) :
    Prop extends Implements p s L.compact, s.OnLog d' where
  tables : TablesStored p d' (L.compact.tables ++ sv)
  log : d'.files[walName]? = d.files[walName]?
  locked : d'.locked = true

/-- With nothing left behind, the store follows the compacted layers. -/
theorem Compacted.follows (h : Compacted p s d d' L []) : Follows p s d' L.compact := by
  have htables := h.tables
  rw [List.append_nil] at htables
  exact { htables, h.toImplements, h.toOnLog with locked := h.locked }

/-- The calls of a compaction other than removals. -/
def mergeCalls (L : Layers) (c : IoCall) : Prop := onTables L c ∨ flushCalls (sstName L.nextId) c

theorem Implements.withTables (h : Implements p s L) (hs : List SsTable)
    (tables : List (ℕ × Memtable)) (n : ℕ) (hh : List.Forall₂ (SsTable.HandleOf p) hs tables)
    (hb : ∀ x ∈ tables, x.1 < n) (hn : n < 2 ^ 64) :
    Implements p { s with nextSstableId := n, sstables := hs }
      { L with tables, nextId := n } where
  data := h.data
  counted := h.counted
  budget := h.budget
  sequence := h.sequence
  nextId := rfl
  handles := hh
  below := hb
  nextId_lt := hn

/-- The course of installing the merged table, or none if nothing is left. -/
theorem does_installMerged_file (h : Implements p s L) (hlen : 2 ≤ L.tables.length)
    (hfits : (mergedTables L.tables).isEmpty = false → L.TableFits p (mergedTables L.tables))
    {Q : Unit → Store → Disk → Prop} {E : Stop → Store → Disk → Prop}
    (hnone : ∀ s', Implements p s' L.compact → s'.wal = s.wal → L.compact = { L with tables := [] } →
      Q () s' d)
    (hnew : ∀ s' f, Implements p s' L.compact → s'.wal = s.wal → L.TableFits p (mergedTables L.tables) →
      L.compact = { L with
        tables := [(L.nextId, mergedTables L.tables)], nextId := L.nextId + 1 } →
      f.Holds p (mergedTables L.tables).toList → Q () s' (d.put (sstName L.nextId) f))
    (hsst : ∀ e, (mergedTables L.tables).isEmpty = false →
      env.Faults (flushCalls (sstName L.nextId)) e → E e s d ∧
      ∀ f : File, f.bytes <+: (encodeTable p (mergedTables L.tables).toList).file →
        E e s (d.put (sstName L.nextId) f)) :
    Does env (Store.installMerged p (mergedTables L.tables)) s d Q E := by
  unfold Store.installMerged
  refine .withSelf ?_
  by_cases hemp : (mergedTables L.tables).isEmpty = true
  · rw [if_pos hemp]
    have hcompact : L.compact = { L with tables := [] } := by
      unfold Layers.compact; rw [if_neg (by omega), if_pos hemp]
    have himpl : Implements p { s with sstables := [] } { L with tables := [] } :=
      { h with handles := .nil, below := fun x hx => by cases hx }
    rw [← hcompact] at himpl
    exact .setSelf (hnone _ himpl rfl hcompact)
  · have hfits := hfits (by simpa using hemp)
    rw [if_neg hemp, h.nextId]
    have hcompact : L.compact = { L with
        tables := [(L.nextId, mergedTables L.tables)], nextId := L.nextId + 1 } := by
      unfold Layers.compact; rw [if_neg (by omega), if_neg hemp]
    have hasc := ascending_toList (mergedTables L.tables)
    refine Does.bind (does_flush hfits.table.file ?_ fun e he => hsst e (by simpa using hemp) he)
    refine Does.bind (does_succU64 hfits.nextId (.setSelf ?_))
    have himpl := h.withTables
      [freshTable p (sstName L.nextId) (mergedTables L.tables).toList]
      [(L.nextId, mergedTables L.tables)] (L.nextId + 1)
      (.cons ⟨rfl, serves_freshTable _ _⟩ .nil) (by simp) hfits.nextId
    rw [← hcompact] at himpl
    exact hnew _ _ himpl rfl hfits hcompact (holds_tableFile hfits.table hasc)

/-- **Installing the merged table**, or none if nothing is left; the old files are still there. -/
theorem does_installMerged (h : Follows p s d L) (hlen : 2 ≤ L.tables.length)
    (hfits : (mergedTables L.tables).isEmpty = false → L.TableFits p (mergedTables L.tables))
    {Q : Unit → Store → Disk → Prop} {E : Stop → Store → Disk → Prop}
    (hQ : ∀ s' d', Compacted p s' d d' L L.tables → Q () s' d')
    (hsst : ∀ e, (mergedTables L.tables).isEmpty = false →
      env.Faults (flushCalls (sstName L.nextId)) e → E e s d ∧
      ∀ f : File, f.bytes <+: (encodeTable p (mergedTables L.tables).toList).file →
        E e s (d.put (sstName L.nextId) f)) :
    Does env (Store.installMerged p (mergedTables L.tables)) s d Q E := by
  refine does_installMerged_file h.toImplements hlen hfits (fun s' himpl hw hcompact => ?_)
    (fun s' f himpl hw hfit hcompact hf => ?_) hsst
  · refine hQ _ d { himpl, h.toOnLog.moved hw rfl with tables := ?_, log := rfl, locked := h.locked }
    rw [hcompact]
    exact h.toTablesStored
  · have hfile := files_put_walName d L.nextId f
    refine hQ _ _ { himpl, h.toOnLog.moved hw hfile with tables := ?_, log := hfile, locked := h.locked }
    rw [hcompact]
    exact h.toTablesStored.put (x := (L.nextId, mergedTables L.tables)) h.below hfit.nextId hf

theorem map_path {hs : List SsTable} {ts : List (ℕ × Memtable)}
    (h : List.Forall₂ (SsTable.HandleOf p) hs ts) :
    hs.map SsTable.path = ts.map fun x => sstName x.1 := by
  induction h with
  | nil => rfl
  | cons hr _ ih => rw [List.map_cons, List.map_cons, hr.path, ih]

/-- **Compaction**, when only removals may fault. -/
theorem does_compact (hp : p.Lawful) (h : Follows p s d L) (hfits : L.CompactFits p)
    {Q : Unit → Store → Disk → Prop} {E : Stop → Store → Disk → Prop}
    (hfew : L.tables.length < 2 → Q () s d)
    (hQ : ∀ s' d' sv, 2 ≤ L.tables.length → sv.Sublist L.tables →
      (env.Spares removeCalls → sv = []) → Compacted p s' d d' L sv → Q () s' d')
    (hread : ∀ e, env.Faults (onTables L) e → E e s d)
    (hsst : ∀ e, 2 ≤ L.tables.length → (mergedTables L.tables).isEmpty = false →
      env.Faults (flushCalls (sstName L.nextId)) e → E e s d ∧
      ∀ f : File, f.bytes <+: (encodeTable p (mergedTables L.tables).toList).file →
        E e s (d.put (sstName L.nextId) f))
    (hremove : ∀ s' d' sv, 2 ≤ L.tables.length → sv.Sublist L.tables →
      env.Faults removeCalls .crash → Compacted p s' d d' L sv → E .crash s' d') :
    Does env (Store.compact p) s d Q E := by
  have hlen := h.handles.length_eq
  have hpaths := map_path h.handles
  unfold Store.compact
  refine .withSelf ?_
  by_cases hfewer : s.sstables.length < 2
  · rw [if_pos hfewer]
    exact .pure (hfew (by omega))
  · rw [if_neg hfewer, hpaths]
    refine Does.bind (does_mergeTables hp h.running ?_ hread)
    refine Does.bind (does_installMerged h (by omega) (hfits (by omega)) (fun s' d' hc => ?_)
      fun e hemp he => hsst e (by omega) hemp he)
    have hframe : ∀ sv d'', TablesStored p d'' (L.compact.tables ++ ([] ++ sv)) →
        d''.files[walName]? = d'.files[walName]? → d''.locked = d'.locked →
        Compacted p s' d d'' L sv := fun sv d'' ht hw hl =>
      { hc.toImplements, hc.toOnLog.frame hw with
        tables := by simpa using ht, log := hw.trans hc.log, locked := hl.trans hc.locked }
    refine does_cleanup L.tables [] (by simpa using hc.tables) (fun sv d'' hsv hsp hw hl ht => ?_)
      fun e sv d'' hsv he hcr hw hl ht => ?_
    · exact hQ s' d'' sv (by omega) hsv hsp (hframe sv d'' ht hw hl)
    · subst hcr
      exact hremove s' d'' sv (by omega) hsv he (hframe sv d'' ht hw hl)

/-! ## Flushes whose compaction runs through -/

/-- The environment lets every call of a compaction of `L` succeed. -/
structure Env.SparesCompact (env : Env) (L : Layers) : Prop where
  merge : env.Spares (mergeCalls L)
  remove : env.Spares removeCalls

theorem sparesCompact (henv : env.Spares offLog) (L : Layers) : env.SparesCompact L where
  merge n c hc := by
    refine henv n c ?_
    rcases hc with ⟨x, -, hc, -⟩ | rfl | ⟨hc, -⟩
    · unfold offLog; rw [show c.path = sstName x.1 from hc]; exact sstName_ne_walName _
    · exact (by decide : ("" : FileName) ≠ walName)
    · unfold offLog; rw [show c.path = sstName L.nextId from hc]; exact sstName_ne_walName _
  remove n c hc := henv n c hc.2

theorem does_compact_through (hp : p.Lawful) (h : Follows p s d L) (hfits : L.CompactFits p)
    (henv : env.SparesCompact L) {Q : Unit → Store → Disk → Prop} {E : Stop → Store → Disk → Prop}
    (hQ : ∀ s' d', Follows p s' d' L.compact → d'.files[walName]? = d.files[walName]? → Q () s' d') :
    Does env (Store.compact p) s d Q E := by
  refine does_compact hp h hfits (fun hfew => ?_) (fun s' d' sv _ _ hsp hc => ?_)
    (fun e he => (henv.merge.not_faults (he.mono fun c hc => Or.inl hc)).elim)
    (fun e _ _ he => (henv.merge.not_faults (he.mono fun c hc => Or.inr hc)).elim)
    fun s' d' sv _ _ he _ => (henv.remove.not_faults he).elim
  · have hsame : L.compact = L := if_pos hfew
    have hQ := hQ s d
    rw [hsame] at hQ
    exact hQ h rfl
  · rw [hsp henv.remove] at hc
    exact hQ s' d' hc.follows hc.log

theorem does_maybeCompact (hp : p.Lawful) (h : Follows p s d L)
    (hfits : L.tables.length > MAX_SSTABLES → L.CompactFits p) (henv : env.SparesCompact L)
    {Q : Unit → Store → Disk → Prop} {E : Stop → Store → Disk → Prop}
    (hQ : ∀ s' d', Follows p s' d' L.maybeCompact → d'.files[walName]? = d.files[walName]? →
      Q () s' d') :
    Does env (Store.maybeCompact p) s d Q E := by
  have hlen := h.handles.length_eq
  unfold Layers.maybeCompact at hQ
  unfold Store.maybeCompact
  refine .withSelf ?_
  by_cases hmany : L.tables.length > MAX_SSTABLES
  · rw [if_pos hmany] at hQ
    rw [if_pos (by omega)]
    exact does_compact_through hp h (hfits hmany) henv hQ
  · rw [if_neg hmany] at hQ
    rw [if_neg (by omega)]
    exact .pure (hQ s d h rfl)

theorem maybeCompact_log (L : Layers) :
    L.maybeCompact.log = L.log ∧ L.maybeCompact.data = L.data := by
  unfold Layers.maybeCompact
  split
  · exact compact_log L
  · exact ⟨rfl, rfl⟩

/-- **Flush.** Whatever the log held before, it is empty afterwards. -/
theorem does_flush_store (hp : p.Lawful) (h : Follows p s d L) (hfits : L.FlushFits p)
    (henv : env.SparesCompact L.flushTable) {Q : Unit → Store → Disk → Prop}
    {E : Stop → Store → Disk → Prop} (hsame : L.data.isEmpty = true → Q () s d)
    (hQ : ∀ s' d', L.data.isEmpty = false → Agrees p s' d' L.flush [] [] → Q () s' d')
    (hsst : ∀ e, L.data.isEmpty = false → env.Faults (flushCalls (sstName L.nextId)) e → E e s d ∧
      ∀ f : File, f.bytes <+: (encodeTable p L.data.toList).file → E e s (d.put (sstName L.nextId) f))
    (hclear : ∀ e s' d', L.data.isEmpty = false → env.Faults clearCalls e →
      ClearCut p s' d d' L → E e s' d') :
    Does env (Store.flush p) s d Q E := by
  unfold Store.flush
  refine .withSelf ?_
  rw [h.data]
  cases hemp : L.data.isEmpty with
  | true =>
    rw [if_pos rfl]
    exact .pure (hsame hemp)
  | false =>
    rw [if_neg (by simp)]
    have hfits := hfits hemp
    have hflush : L.flush = L.flushTable.maybeCompact := by
      unfold Layers.flush; rw [hemp]; rfl
    rw [hflush] at hQ
    refine Does.bind (does_flushTable h hfits.table (fun s' d' h' => ?_) (fun e he => hsst e hemp he)
      fun e s' d' he hc => hclear e s' d' hemp he hc)
    refine does_maybeCompact hp h'.toFollows hfits.compact henv fun s'' d'' h'' hwal => ?_
    obtain ⟨hlog, hdata⟩ := maybeCompact_log L.flushTable
    have hstored := h'.toLogStored.frame hwal
    rw [← hlog, ← hdata] at hstored
    exact hQ s'' d'' hemp { h'', hstored with }

theorem maybeFlush_eq (h : ¬ L.Flushes) : L.maybeFlush = L := by
  unfold Layers.maybeFlush
  split
  · next hfull =>
    unfold Layers.flush
    rw [if_pos (Bool.of_not_eq_false fun hne => h ⟨hfull, hne⟩)]
  · rfl

theorem maybeFlush_eq_flush (h : L.Flushes) : L.maybeFlush = L.flush := if_pos h.1

/-- **Flushing at the budget**, when only calls on the log may fault. -/
theorem does_maybeFlush (hp : p.Lawful) (h : Follows p s d L)
    (hfits : L.bytes ≥ L.budget → L.FlushFits p) (henv : env.Spares offLog)
    {Q : Unit → Store → Disk → Prop} {E : Stop → Store → Disk → Prop}
    (hsame : ¬ L.Flushes → L.maybeFlush = L → Q () s d)
    (hQ : ∀ s' d', L.Flushes → Agrees p s' d' L.maybeFlush [] [] → Q () s' d')
    (hclear : ∀ e s' d', env.Faults clearCalls e → ClearCut p s' d d' L → E e s' d') :
    Does env (Store.maybeFlush p) s d Q E := by
  unfold Store.maybeFlush
  refine .withSelf ?_
  rw [h.bytes_eq, h.budget]
  by_cases hfull : L.bytes ≥ L.budget
  · rw [if_pos hfull]
    refine does_flush_store hp h (hfits hfull) (sparesCompact henv _) (fun hemp => ?_)
      (fun s' d' hne h' => ?_)
      (fun e _ he => ((sparesCompact henv L).merge.not_faults (he.mono fun c hc => Or.inr hc)).elim)
      fun e s' d' _ he hc => hclear e s' d' he hc
    · have hnot : ¬ L.Flushes := fun hf => by rw [hf.2] at hemp; cases hemp
      exact hsame hnot (maybeFlush_eq hnot)
    · have hflushes : L.Flushes := ⟨hfull, hne⟩
      rw [← maybeFlush_eq_flush hflushes] at h'
      exact hQ s' d' hflushes h'
  · rw [if_neg hfull]
    have hnot : ¬ L.Flushes := fun hf => hfull hf.1
    exact .pure (hsame hnot (maybeFlush_eq hnot))

end FerrumDB
