import FerrumDB.Store.Keeps
import FerrumDB.Store.Write
import FerrumDB.Database

/-!
# What every method keeps

An assertion about a store and its directory is `Steady` if it survives the few things that methods do to
the fields of a store: a change of the table handles, of the log handle or of the sequence number, an
insertion into the memtable, and its clearing by a flush. Every write, every read and the replay of a log
keep a steady assertion, whatever call fails (`keeps_writeBatch`, `keeps_flush`, `keeps_replayWal`), and
so does every call on a table (`keeps_call`).
-/

namespace FerrumDB

open CrashLogic

variable {α β : Type} {R : α → Prop} {p : Prost}

/-! ## The log -/

section Wal

variable {I : Wal → Disk → Prop}

/-- The assertion does not depend on the file of the log, nor on whether it is open. -/
structure OffLog (I : Wal → Disk → Prop) : Prop where
  path : ∀ w d, I w d → Ignores I w.filePath
  file : ∀ w d b, I w d → I { w with file := b } d

theorem keeps_writer (hI : OffLog I) : Keeps I Wal.writer := by
  unfold Wal.writer
  refine .withSelf fun env w d h => ?_
  split_ifs
  · exact .pure ⟨h, trivial⟩
  · have hopen : ∀ d', (∀ n ≠ w.filePath, d'.files[n]? = d.files[n]?) → I { w with file := true } d' :=
      fun d' hd => hI.file w d' true (hI.path w d h w d d' hd h)
    refine Does.bind (.ioCall_noEffect ?_ fun _ _ => h)
    dsimp only
    split_ifs
    · exact .setSelf ⟨hopen d fun _ _ => rfl, trivial⟩
    · exact .setSelf ⟨hopen _ files_put_of_ne, trivial⟩

theorem keeps_append (hI : OffLog I) (e : WalEntry) : Keeps I (Wal.append p e) := by
  unfold Wal.append
  refine (keeps_writer hI).bind fun _ => .withSelf fun env w d h => ?_
  exact keeps_writeAll (hI.path w d h) _ env w d h

theorem keeps_writeCommit (hI : OffLog I) (sequence : UInt64) : Keeps I (Wal.writeCommit p sequence) := by
  unfold Wal.writeCommit
  refine (keeps_writer hI).bind fun _ => .withSelf fun env w d h => ?_
  exact (keeps_writeAll (hI.path w d h) _).bind (fun _ => keeps_syncAll (hI.path w d h)) env w d h

theorem keeps_clear (hI : OffLog I) : Keeps I Wal.clear := by
  unfold Wal.clear
  intro env w d h
  refine Does.bind (.modifySelf ?_)
  have hclosed : I { w with file := false } d := hI.file w d false h
  refine Keeps.withSelf (fun env w d h => ?_) env _ d hclosed
  exact (keeps_openTruncate (hI.path w d h)).bind (fun _ => keeps_syncAll (hI.path w d h)) env w d h

end Wal

theorem keeps_onWal {I : Store → Disk → Prop} {m : Prog Wal α}
    (h : ∀ s : Store, Keeps (fun w d => I { s with wal := w } d) m R) : Keeps I (Store.onWal m) R := by
  intro env s d hs
  exact Does.onField (h s env s.wal d hs)

/-! ## The store -/

/-- The assertion survives what methods do to a store. -/
structure Steady (kept : FileName) (I : Store → Disk → Prop) : Prop extends OffTables kept I where
  wal : ∀ s : Store, OffLog fun w d => I { s with wal := w } d
  sequence : ∀ (s : Store) d n, I s d → I { s with sequence := n } d
  insert : ∀ (s s' : Store) d key entry, s.memtableInsert key entry = .ok s' → I s d → I s' d
  clear : ∀ (s : Store) d, I s d → I { s with data := ∅, memtableBytes := 0 } d

section Store

variable {I : Store → Disk → Prop} {kept : FileName}

theorem keeps_flush (hI : Steady kept I) : Keeps I (Store.flush p) := by
  have htable : Keeps I (Store.flushTable p) := by
    unfold Store.flushTable
    refine .withSelf fun env s d hs => ?_
    have hflush : Keeps (fun s' d' => s' = s ∧ I s' d')
        (SsTable.flush p (sstName s.nextSstableId) s.data.toList) fun t => t.path = sstName s.nextSstableId := by
      refine keeps_sstFlush (fun a d d' hd h => ⟨h.1, ?_⟩) _
      exact hI.ignores (hI.name.sstName_ne _) a d d' hd h.2
    refine Does.bind ((hflush env s d ⟨rfl, hs⟩).mono (fun t s' d' ht => ?_) fun _ _ _ he => he.2)
    obtain ⟨⟨rfl, hs'⟩, hpath⟩ := ht
    unfold succU64
    split_ifs
    · refine Does.bind (.pure (Does.bind (.setSelf ?_)))
      refine keeps_onWal (fun s => keeps_clear (hI.wal s)) env _ d' ?_
      refine hI.handles { s' with data := ∅, memtableBytes := 0 } d' _ _ (fun u hu => ?_) (hI.clear s' d' hs')
      rcases List.mem_cons.1 hu with rfl | hu
      · rw [hpath]
        exact hI.name.sstName_ne _
      · exact hI.paths s' d' hs' u hu
    · exact Does.bind (.throw hs')
  unfold Store.flush
  refine .withSelf fun env s d hs => ?_
  split_ifs
  · exact .pure ⟨hs, trivial⟩
  · exact htable.bind (fun _ => keeps_maybeCompact hI.toOffTables) env s d hs

theorem keeps_maybeFlush (hI : Steady kept I) : Keeps I (Store.maybeFlush p) := by
  unfold Store.maybeFlush
  refine .withSelf fun env s d hs => ?_
  split_ifs
  · exact keeps_flush hI env s d hs
  · exact .pure ⟨hs, trivial⟩

theorem keeps_logEntry (hI : Steady kept I) (entry : UInt64 → WalEntry) : Keeps I (Store.logEntry p entry) := by
  unfold Store.logEntry
  refine .withSelf fun env s d hs => ?_
  split_ifs
  · refine Does.bind (.setSelf ?_)
    exact keeps_onWal (fun s => keeps_append (hI.wal s) _) env _ d (hI.sequence s d _ hs)
  · exact .throw hs

theorem keeps_logCommit (hI : Steady kept I) : Keeps I (Store.logCommit p) := by
  unfold Store.logCommit
  refine .withSelf fun env s d hs => ?_
  exact keeps_onWal (fun s => keeps_writeCommit (hI.wal s) _) env s d hs

theorem keeps_insert (hI : Steady kept I) (key : Bytes) (entry : Entry) : Keeps I (Store.insert key entry) := by
  unfold Store.insert
  refine .withSelf fun env s d hs => ?_
  cases hins : s.memtableInsert key entry with
  | error e => exact Does.bind (.throw hs)
  | ok s' => exact Does.bind (.pure (.setSelf ⟨hI.insert s s' d key entry hins hs, trivial⟩))

theorem keeps_forM {f : β → Prog Store PUnit} (h : ∀ x, Keeps I (f x)) (l : List β) :
    Keeps I (forM l f) := by
  induction l with
  | nil => exact .pure trivial
  | cons x l ih =>
    rw [List.forM_cons]
    exact (h x).bind fun _ => ih

/-- A write keeps a steady assertion up to the budget check. -/
theorem keeps_recordBatch (hI : Steady kept I) (b : Batch) : Keeps I (Store.recordBatch p b) := by
  unfold Store.recordBatch
  refine (keeps_forM (fun e => keeps_logEntry hI _) b).bind fun _ => (keeps_logCommit hI).bind fun _ => ?_
  exact keeps_forM (fun e => keeps_insert hI _ _) b

/-- **Writes** keep a steady assertion. -/
theorem keeps_writeBatch (hI : Steady kept I) (b : Batch) : Keeps I (Store.writeBatch p b) := by
  rw [writeBatch_eq]
  exact (keeps_recordBatch hI b).bind fun _ => keeps_maybeFlush hI

theorem keeps_commit (hI : Steady kept I) (tx : Transaction) : Keeps I (Transaction.commit p tx) := by
  rw [commit_eq]
  split_ifs
  · exact .pure trivial
  · exact keeps_writeBatch hI _

theorem keeps_setValue (hI : Steady kept I) (key : Bytes) (value : Value) : Keeps I (Store.setValue p key value) := by
  rw [setValue_eq]
  exact (keeps_writeBatch hI _).bind fun _ => .pure trivial

theorem keeps_deleteValue (hI : Steady kept I) (key : Bytes) : Keeps I (Store.deleteValue p key) := by
  rw [deleteValue_eq]
  exact (keeps_writeBatch hI _).bind fun _ => .pure trivial

end Store

/-! ## Reads -/

theorem keeps_scanTables {I : Store → Disk → Prop} (lo hi : Bound) (tables : List SsTable) (merged : Memtable) :
    Keeps I (Store.scanTables p lo hi tables merged) := by
  induction tables generalizing merged with
  | nil => exact .pure trivial
  | cons t tables ih =>
    unfold Store.scanTables
    split_ifs
    · exact ih merged
    · exact (keeps_readAllEntries t).bind fun entries => ih _

theorem keeps_scanRange {I : Store → Disk → Prop} (lo hi : Bound) : Keeps I (Store.scanRange p lo hi) := by
  unfold Store.scanRange
  refine .withSelf fun env s d hs => ?_
  exact (keeps_scanTables lo hi _ _).bind (fun merged => (Keeps.ofStop _).bind fun range => .pure trivial)
    env s d hs

theorem keeps_txnGet {I : Store → Disk → Prop} {key : Bytes} (hget : Keeps I (Store.getValue p key))
    (tx : Transaction) : Keeps I (tx.getValue p key) := by
  unfold Transaction.getValue
  cases tx.pending[key]? with
  | some v => exact .pure trivial
  | none => exact hget

/-! ## Replay -/

section Replay

variable {I : Store → Disk → Prop} {kept : FileName} {d : Disk}

theorem Steady.replayEntry (hI : Steady kept I) {s s' : Store} {e : WalEntry}
    (h : Store.replayEntry s e = .ok s') (hs : I s d) : I s' d := by
  unfold Store.replayEntry at h
  dsimp only at h
  split at h
  · split at h
    · split at h
      · obtain ⟨s₁, hs₁, hs'⟩ := ByteCodec.bind_eq_ok h
        cases hs'
        exact hI.sequence _ d _ (hI.insert s s₁ d _ _ hs₁ hs)
      · cases h
    · cases h
      exact hI.sequence _ d _ hs
  · obtain ⟨s₁, hs₁, hs'⟩ := ByteCodec.bind_eq_ok h
    cases hs'
    exact hI.sequence _ d _ (hI.insert s s₁ d _ _ hs₁ hs)
  · cases h
    exact hI.sequence _ d _ hs

theorem Steady.foldlM_replayEntry (hI : Steady kept I) {entries : List WalEntry} {s s' : Store}
    (h : entries.foldlM Store.replayEntry s = .ok s') (hs : I s d) : I s' d := by
  induction entries generalizing s with
  | nil =>
    cases h
    exact hs
  | cons e entries ih =>
    rw [List.foldlM_cons] at h
    obtain ⟨s₁, hs₁, hs'⟩ := ByteCodec.bind_eq_ok h
    exact ih hs' (hI.replayEntry hs₁ hs)

theorem Steady.replayEntries (hI : Steady kept I) {entries pending : List WalEntry} {s s' : Store}
    (h : Store.replayEntries entries pending s = .ok s') (hs : I s d) : I s' d := by
  induction entries generalizing pending s with
  | nil =>
    cases h
    exact hs
  | cons e entries ih =>
    unfold Store.replayEntries at h
    split at h
    · obtain ⟨s₁, hs₁, hs'⟩ := ByteCodec.bind_eq_ok h
      exact ih hs' (hI.sequence s₁ d _ (hI.foldlM_replayEntry hs₁ hs))
    · exact ih h hs

/-- **Replay** keeps a steady assertion, whatever the log holds. -/
theorem keeps_replayWal (hI : Steady kept I) : Keeps I (Store.replayWal p) := by
  unfold Store.replayWal
  have hread : ∀ s : Store, Keeps (fun w d => I { s with wal := w } d) (Wal.readForRecovery p) := fun s =>
    keeps_readForRecovery (hI.wal s).path fun w d => (hI.wal s).file w d false
  refine (keeps_onWal hread).bind fun entries => .withSelf fun env s d hs => ?_
  cases hrep : Store.replayEntries entries [] s with
  | error e => exact Does.bind (.throw hs)
  | ok s' => exact Does.bind (.pure (.setSelf ⟨hI.replayEntries hrep hs, trivial⟩))

end Replay

/-! ## Calls on a table -/

/-- The same for a method of the API. -/
def KeepsApi (I : Store → Disk → Prop) (c : Api α) : Prop :=
  ∀ x : Mem Store, I x.self x.disk → wp c x (fun _ y => I y.self y.disk) fun _ y => I y.self y.disk

section Api

variable {I : Store → Disk → Prop}

theorem KeepsApi.pure (r : α) : KeepsApi I (pure r) := fun _ h => h

theorem KeepsApi.bind {c : Api β} {f : β → Api α} (hc : KeepsApi I c) (hf : ∀ r, KeepsApi I (f r)) :
    KeepsApi I (c >>= f) := by
  intro x h
  exact (hc x h).seq fun r y hy => hf r y hy

theorem KeepsApi.discard {c : Api α} (h : KeepsApi I c) : KeepsApi I (discard c) := by
  intro x hx
  exact (wp_map c _ _ _ _).2 (h x hx)

theorem KeepsApi.ofResult (r : Except Error α) : KeepsApi I (ofResult r) := by
  cases r with
  | ok a => exact .pure a
  | error e => exact fun _ h => h

theorem KeepsApi.core {m : Prog Store α} (h : Keeps I m) : KeepsApi I (core m) := by
  rintro ⟨s, d, env, n⟩ hx
  have hm := h env s d hx n
  unfold wp FerrumDB.core at *
  cases hrun : m ⟨s, d, env, n⟩ with
  | ok r y => rw [hrun] at hm; exact hm.2.1
  | error e y => rw [hrun] at hm; exact hm.2

end Api

section Calls

variable {I : Store → Disk → Prop} {kept : FileName}

theorem keeps_tableGet {key : Bytes} (hget : Keeps I (Store.getValue p key)) : KeepsApi I (Table.get p key) := by
  unfold Table.get
  exact (KeepsApi.core hget).bind fun _ => .ofResult _

theorem keeps_getBatch (hget : ∀ key, Keeps I (Store.getValue p key)) (keys : List Bytes) :
    KeepsApi I (Table.getBatch p keys) := by
  induction keys with
  | nil => exact .pure []
  | cons key keys ih => exact (keeps_tableGet (hget key)).bind fun _ => ih.bind fun _ => .pure _

theorem keeps_rangeBounds (lo hi : Bound) : KeepsApi I (Table.rangeBounds p lo hi) := by
  unfold Table.rangeBounds
  exact (KeepsApi.core (keeps_scanRange lo hi)).bind fun _ => .ofResult _

theorem keeps_scanPrefix (start : Bytes) : KeepsApi I (Table.scanPrefix p start) := by
  unfold Table.scanPrefix
  cases prefixUpperBound start with
  | some u => exact keeps_rangeBounds _ _
  | none => exact keeps_rangeBounds _ _

/-- **Calls** on a table keep a steady assertion. -/
theorem keeps_call (hI : Steady kept I) (c : Call) : KeepsApi I (c.run p) := by
  have hget : ∀ key, Keeps I (Store.getValue p key) := keeps_getValue hI.toOffTables
  cases c with
  | put key value => exact (KeepsApi.core (keeps_setValue hI _ _)).bind fun _ => .pure ()
  | get key => exact (keeps_tableGet (hget key)).discard
  | contains key => exact ((keeps_tableGet (hget key)).bind fun _ => .pure _).discard
  | delete key => exact (KeepsApi.core (keeps_deleteValue hI _)).bind fun _ => .pure ()
  | putBatch entries => exact .core (keeps_commit hI _)
  | getBatch keys => exact (keeps_getBatch hget keys).discard
  | commit calls => exact .core (keeps_commit hI _)
  | rollback calls => exact .core (.pure trivial)
  | txnGet calls key =>
    exact ((KeepsApi.core (keeps_txnGet (hget key) _)).bind fun _ => .ofResult _).discard
  | scan => exact (keeps_rangeBounds _ _).discard
  | range start stop => exact (keeps_rangeBounds _ _).discard
  | scanPrefix start => exact (keeps_scanPrefix start).discard

end Calls

end FerrumDB
