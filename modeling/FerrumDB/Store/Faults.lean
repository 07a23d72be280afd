import FerrumDB.Store.Open
import FerrumDB.Store.Keeps

/-!
# Flush and compaction under any fault

A live store relies on its own files only (`Running.ignores`), and the next id is above the ids of all
live tables, so neither a table written halfway nor the removal of merged tables touches them. Whatever
call fails, and however often, a flush or a compaction leaves layers that read as before
(`Running.does_flush`, `Running.does_compact`), and so does a write, whether or not it got through the log
(`Running.does_recordBatch`). Opening a directory of whole tables starts such a store, whatever the log
holds (`does_openWithDir_whole`).
-/

namespace FerrumDB

variable {env : Env} {s : Store} {d d' : Disk} {L : Layers} {p : Prost} {dir : String}
  {m : Bytes → Option Value} {tables : List (ℕ × Memtable)}

/-! ## Frames -/

theorem Running.frame (h : Running p s d L) (hwal : d'.files[walName]? = d.files[walName]?)
    (hf : ∀ x ∈ L.tables, d'.files[sstName x.1]? = d.files[sstName x.1]?) : Running p s d' L :=
  { h.toImplements, h.toOnLog.frame hwal with
    table := fun x hx => by rw [hf x hx]; exact h.table x hx
    descending := h.descending }

/-- A file that is neither the log nor that of a live table does not matter. -/
theorem Running.ignores {name : FileName} (hwal : name ≠ walName)
    (hlive : ∀ x ∈ L.tables, sstName x.1 ≠ name) : Ignores (fun s d => Running p s d L) name := by
  intro s d d' hd h
  exact h.frame (hd walName hwal.symm) fun x hx => hd _ (hlive x hx)

/-- The next table is none of the live ones. -/
theorem Running.fresh (h : Running p s d L) : ∀ x ∈ L.tables, sstName x.1 ≠ sstName L.nextId := by
  intro x hx heq
  have hlt := h.below x hx
  rw [sstName_injective heq] at hlt
  omega

theorem Running.put (h : Running p s d L) (f : File) : Running p s (d.put (sstName L.nextId) f) L :=
  Running.ignores (sstName_ne_walName _) h.fresh s d _ files_put_of_ne h

/-- The store runs on layers that read as `m`. -/
def Reads (p : Prost) (m : Bytes → Option Value) (s : Store) (d : Disk) : Prop :=
  ∃ L, Running p s d L ∧ L.get = m

theorem Reads.returns_getValue (hp : p.Lawful) (h : Reads p m s d) (key : Bytes) :
    Returns (Store.getValue p key) s d fun r _ _ => r = m key := by
  obtain ⟨L, hL, rfl⟩ := h
  exact hL.does_getValue hp (fun _ _ => rfl) fun _ he => absurd he Env.not_faults_quiet

/-! ## Compaction -/

/-- **Compaction.** It goes through, or it leaves the tables, or the merged one. -/
theorem Running.does_compact (hp : p.Lawful) (h : Running p s d L) (hfits : L.CompactFits p)
    {Q : Unit → Store → Disk → Prop} {E : Stop → Store → Disk → Prop}
    (hQ : ∀ s' d', Running p s' d' L.compact → Q () s' d')
    (hE : ∀ e s' d', Running p s' d' L ∨ Running p s' d' L.compact → E e s' d') :
    Does env (Store.compact p) s d Q E := by
  have hlen := h.handles.length_eq
  unfold Store.compact
  refine .withSelf ?_
  by_cases hfew : s.sstables.length < 2
  · have hsame : L.compact = L := if_pos (by omega)
    rw [if_pos hfew]
    rw [hsame] at hQ
    exact .pure (hQ s d h)
  · rw [if_neg hfew, map_path h.handles]
    have hcleanup : ∀ s' d', Running p s' d' L.compact → (∀ x ∈ L.compact.tables, x.1 = L.nextId) →
        Does env (Store.cleanup (L.tables.map fun x => sstName x.1)) s' d' Q E := by
      intro s' d' h' hnew
      refine (keeps_cleanup (I := fun s d => Running p s d L.compact) (fun path hpath => ?_) env s' d' h').mono
        (fun _ s'' d'' hr => hQ s'' d'' hr.1) fun e s'' d'' he => hE e s'' d'' (Or.inr he)
      obtain ⟨x, hx, rfl⟩ := List.mem_map.1 hpath
      refine Running.ignores (sstName_ne_walName _) fun y hy => ?_
      rw [hnew y hy]
      exact (h.fresh x hx).symm
    refine Does.bind (does_mergeTables hp h ?_ fun e _ => hE e s d (Or.inl h))
    refine Does.bind (does_installMerged_file h.toImplements (by omega) (hfits (by omega))
      (fun s' himpl hw hcompact => ?_) (fun s' f himpl hw _ hcompact hf => ?_) fun e _ _ => ?_)
    · refine hcleanup s' d { himpl, h.toOnLog.moved hw rfl with table := ?_, descending := ?_ } ?_
      · rw [hcompact]; exact nofun
      · rw [hcompact]; exact .nil
      · rw [hcompact]; exact nofun
    · have hfile := files_put_walName d L.nextId f
      refine hcleanup s' _ { himpl, h.toOnLog.moved hw hfile with table := ?_, descending := ?_ } ?_
      · rw [hcompact]
        intro x hx
        rw [List.mem_singleton.1 hx]
        exact ⟨f, by simp, hf⟩
      · rw [hcompact]; exact List.pairwise_singleton _ _
      · rw [hcompact]
        intro x hx
        rw [List.mem_singleton.1 hx]
    · exact ⟨hE e s d (Or.inl h), fun f _ => hE e s _ (Or.inl (h.put f))⟩

theorem Running.does_maybeCompact (hp : p.Lawful) (h : Running p s d L)
    (hfits : L.tables.length > MAX_SSTABLES → L.CompactFits p)
    {Q : Unit → Store → Disk → Prop} {E : Stop → Store → Disk → Prop}
    (hQ : ∀ s' d', Running p s' d' L.maybeCompact → Q () s' d')
    (hE : ∀ e s' d', Reads p L.get s' d' → E e s' d') :
    Does env (Store.maybeCompact p) s d Q E := by
  have hlen := h.handles.length_eq
  unfold Layers.maybeCompact at hQ
  unfold Store.maybeCompact
  refine .withSelf ?_
  by_cases hmany : L.tables.length > MAX_SSTABLES
  · rw [if_pos hmany] at hQ
    rw [if_pos (by omega)]
    refine h.does_compact hp (hfits hmany) hQ fun e s' d' h' => hE e s' d' ?_
    rcases h' with h' | h'
    · exact ⟨L, h', rfl⟩
    · exact ⟨L.compact, h', get_compact L⟩
  · rw [if_neg hmany] at hQ
    rw [if_neg (by omega)]
    exact .pure (hQ s d h)

/-! ## Flush -/

/-- A store whose memtable became the newest table, in the file `f`. -/
theorem Running.flushed (h : Running p s d L) (hid : L.nextId + 1 < 2 ^ 64) {f : File}
    (hf : f.Holds p L.data.toList) (hother : ∀ n ≠ walName, d'.files[n]? = (d.put (sstName L.nextId) f).files[n]?) :
    Running p (s.flushed p) d' L.flushTable where
  toImplements := h.toImplements.flushed hid
  path := h.path
  live hopen := by cases hopen
  table x hx := by
    rw [hother _ (sstName_ne_walName _)]
    rcases List.mem_cons.1 hx with rfl | hx
    · exact ⟨f, by simp, hf⟩
    · rw [files_put_of_ne _ (h.fresh x hx)]
      exact h.table x hx
  descending := List.pairwise_cons.2 ⟨h.below, h.descending⟩

/-- **Flushing the memtable.** It goes through, or it leaves the memtable, or the new table. -/
theorem Running.does_flushTable (h : Running p s d L) (hfits : L.TableFits p L.data)
    {Q : Unit → Store → Disk → Prop} {E : Stop → Store → Disk → Prop}
    (hQ : ∀ s' d', Running p s' d' L.flushTable → Q () s' d')
    (hE : ∀ e s' d', Running p s' d' L ∨ Running p s' d' L.flushTable → E e s' d') :
    Does env (Store.flushTable p) s d Q E := by
  have hnext := h.nextId
  obtain ⟨hlen, hholds⟩ := h.toImplements.holds_data hfits
  refine does_flushTable_file hlen (by rw [hnext]; exact hfits.nextId) h.path (fun d' hb => ?_)
    (fun e _ => ?_) fun e d' _ hd' => ?_
  · rw [hnext] at hb
    exact hQ _ d' (h.flushed hfits.nextId hholds hb.others)
  · rw [hnext]
    exact ⟨hE e s d (Or.inl h), fun f _ => hE e s _ (Or.inl (h.put f))⟩
  · rw [hnext] at hd'
    refine hE e _ d' (Or.inr (h.flushed hfits.nextId hholds ?_))
    rcases hd' with rfl | hb
    · exact fun _ _ => rfl
    · exact hb.others

/-- **Flush.** -/
theorem Running.does_flush (hp : p.Lawful) (h : Running p s d L) (hfits : L.FlushFits p)
    {Q : Unit → Store → Disk → Prop} {E : Stop → Store → Disk → Prop}
    (hQ : ∀ s' d', Running p s' d' L.flush → Q () s' d')
    (hE : ∀ e s' d', Reads p L.get s' d' → E e s' d') : Does env (Store.flush p) s d Q E := by
  unfold Layers.flush at hQ
  unfold Store.flush
  refine .withSelf ?_
  rw [h.data]
  cases hemp : L.data.isEmpty with
  | true =>
    rw [hemp, if_pos rfl] at hQ
    rw [if_pos rfl]
    exact .pure (hQ s d h)
  | false =>
    rw [hemp, if_neg (by simp)] at hQ
    rw [if_neg (by simp)]
    have hfits := hfits hemp
    refine Does.bind (h.does_flushTable hfits.table (fun s' d' h' => ?_) fun e s' d' h' => ?_)
    · refine h'.does_maybeCompact hp hfits.compact hQ fun e s'' d'' h'' => hE e s'' d'' ?_
      rwa [get_flushTable] at h''
    · refine hE e s' d' ?_
      rcases h' with h' | h'
      · exact ⟨L, h', rfl⟩
      · exact ⟨L.flushTable, h', get_flushTable L⟩

theorem Running.does_maybeFlush (hp : p.Lawful) (h : Running p s d L)
    (hfits : L.bytes ≥ L.budget → L.FlushFits p)
    {Q : Unit → Store → Disk → Prop} {E : Stop → Store → Disk → Prop}
    (hQ : ∀ s' d', Running p s' d' L.maybeFlush → Q () s' d')
    (hE : ∀ e s' d', Reads p L.get s' d' → E e s' d') : Does env (Store.maybeFlush p) s d Q E := by
  unfold Layers.maybeFlush at hQ
  unfold Store.maybeFlush
  refine .withSelf ?_
  rw [h.bytes_eq, h.budget]
  by_cases hfull : L.bytes ≥ L.budget
  · rw [if_pos hfull] at hQ
    rw [if_pos hfull]
    exact h.does_flush hp (hfits hfull) hQ hE
  · rw [if_neg hfull] at hQ
    rw [if_neg hfull]
    exact .pure (hQ s d h)

/-! ## Writes -/

/-- **A batch is recorded**, or it is cut in the log and the reads are as before. -/
theorem Running.does_recordBatch (h : Running p s d L) {b : Batch}
    (hseq : L.sequence.toNat + b.length < 2 ^ 64) {Q : Unit → Store → Disk → Prop}
    {E : Stop → Store → Disk → Prop} (hQ : ∀ s' d', Running p s' d' (L.write b) → Q () s' d')
    (hE : ∀ e s' d', Reads p L.get s' d' → E e s' d') : Does env (Store.recordBatch p b) s d Q E := by
  refine FerrumDB.does_recordBatch b h.toOnLog h.counted (fun _ w' d' bs hw' hlive _ hb => ?_)
    (fun e w' d' n u hw' hlive hb _ => ?_) (Or.inl (by rw [h.sequence]; exact hseq))
  · refine hQ _ d' { h.toImplements.write b w' with
      path := hw', live := hlive, table := fun x hx => ?_, descending := h.descending }
    rw [hb.others _ (sstName_ne_walName _)]
    exact h.table x hx
  · refine hE e _ d' ⟨{ L with sequence := n }, { h.toImplements with
      sequence := rfl, path := hw', live := hlive, table := fun x hx => ?_,
      descending := h.descending }, rfl⟩
    rw [hb.others _ (sstName_ne_walName _)]
    exact h.table x hx

/-! ## Opening -/

/-- The table files of the directory are whole: each is one that a flush wrote and fsynced. -/
def Disk.Whole (p : Prost) (d : Disk) : Prop := ∃ tables, TablesStored p d tables

/-- **Opening** a directory of whole tables, whatever its log holds: a store that opens runs on them. -/
theorem does_openWithDir_whole (h : TablesStored p d tables) (hfree : d.locked = false) :
    Does Env.quiet (Store.openWithDir p dir) s d
      (fun _ s' d' => ∃ L, Running p s' d' L ∧ L.tables = tables) fun _ _ _ => True := by
  have htables : TablesStored p d.lockedBy tables := h.lockedBy
  refine does_openWithDir_start (Env.quiet_spares _) hfree ?_
  refine Does.bind (does_loadSstables htables.lists (Env.quiet_spares _) ?_)
  have hrecover : Keeps (fun w d' => w.filePath = walName ∧ w.file = false ∧
      ∀ n ≠ walName, d'.files[n]? = d.lockedBy.files[n]?) (Wal.readForRecovery p) := by
    refine keeps_readForRecovery (fun w _ hw w' d₁ d₂ hd h' => ?_) fun w d' hw => ⟨hw.1, rfl, hw.2.2⟩
    rw [hw.1] at hd
    exact ⟨h'.1, h'.2.1, fun n hn => (hd n hn).trans (h'.2.2 n hn)⟩
  unfold Store.replayWal
  refine Does.bind (Does.onField ((hrecover Env.quiet ⟨walName, false⟩ d.lockedBy
    ⟨rfl, rfl, fun _ _ => rfl⟩).mono (fun entries w d' hw => ?_) fun _ _ _ _ => trivial))
  obtain ⟨⟨hpath, hclosed, hothers⟩, -⟩ := hw
  refine .withSelf (Does.bind (.ofStop (fun r hr => .setSelf ?_) fun _ _ => trivial))
  have hcounted : ∀ t : Store, t.data = ∅ → t.memtableBytes = 0 → t.Counted := by
    intro t hdata hbytes
    unfold Store.Counted
    rw [hdata, hbytes, OrderedMap.total_empty]
  have hheld := replayEntries_holding entries [] (hcounted _ rfl rfl) hr
  rw [hheld]
  refine ⟨⟨r.data, DEFAULT_MEMTABLE_MAX_BYTES, [], r.sequence, tables, nextIdOf tables⟩, ?_, rfl⟩
  exact {
    data := rfl
    counted := counted_holding _ _ _
    budget := rfl
    sequence := rfl
    nextId := nextIdOfDir_freshHandles tables
    handles := freshHandles_forall₂ tables
    below := lt_nextIdOf h.descending
    nextId_lt := nextIdOf_lt h.ids
    path := hpath
    live := fun hopen => by
      have hopen : w.file = true := hopen
      rw [hclosed] at hopen
      cases hopen
    table := fun x hx => by rw [hothers _ (sstName_ne_walName _)]; exact htables.table x hx
    descending := h.descending }

end FerrumDB
