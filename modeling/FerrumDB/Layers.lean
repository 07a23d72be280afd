import FerrumDB.Store
import FerrumDB.Wal.Framing
import FerrumDB.SsTable.Locate
import FerrumDB.Lib.Overlay
import Mathlib.Logic.Function.Basic

/-!
# The store as a stack of maps

`Layers` is what a store means: the memtable, the entries of the log, and the tables as maps, newest
first. Its steps are those of the store without files or bytes. A key reads as the newest layer that
mentions it says (`Layers.get`), so a write updates one key (`get_write`), and flushing and
compacting change nothing (`get_flush`, `get_compact`).

`WriteFits`, `FlushFits` and `CompactFits` say when a step fits the fields of the files it writes.
-/

namespace FerrumDB

open Overlay

/-- The writes of one batch, in order: `some v` is a put, `none` a delete. -/
abbrev Batch := List (Bytes × Option Value)

structure Layers where
  data : Memtable
  budget : ℕ
  log : List WalEntry
  sequence : UInt64
  tables : List (ℕ × Memtable)
  nextId : ℕ

/-! ## Reading -/

def layer (m : Memtable) : Bytes → Option Entry := fun key => m[key]?

def Layers.stack (L : Layers) : List (Bytes → Option Entry) :=
  layer L.data :: L.tables.map fun t => layer t.2

/-- What a key reads as. -/
def Layers.get (L : Layers) (key : Bytes) : Option Value := resolve Entry.live L.stack key

/-! ## Steps -/

/-- The log entries of a batch, numbered after `sequence`. -/
def batchLog : UInt64 → Batch → List WalEntry
  | _, [] => []
  | sequence, e :: b => pendingEntry e.1 e.2 (sequence + 1) :: batchLog (sequence + 1) b

def batchEnd : UInt64 → Batch → UInt64
  | sequence, [] => sequence
  | sequence, _ :: b => batchEnd (sequence + 1) b

def applyBatch (m : Memtable) (b : Batch) : Memtable :=
  b.foldl (fun m e => m.insert e.1 (entryOf e.2)) m

/-- Log a batch under one COMMIT and apply it to the memtable. -/
def Layers.write (b : Batch) (L : Layers) : Layers :=
  { L with
    data := applyBatch L.data b
    log := L.log ++ (batchLog L.sequence b ++ [commitEntry (batchEnd L.sequence b)])
    sequence := batchEnd L.sequence b }

/-- All tables merged, without tombstones. -/
def mergedTables (tables : List (ℕ × Memtable)) : Memtable :=
  (tables.reverse.foldl (fun (m : Memtable) t => m.insertMany t.2.toList) ∅).filter fun _ e => e.isValue

def Layers.compact (L : Layers) : Layers :=
  if L.tables.length < 2 then L
  else if (mergedTables L.tables).isEmpty then { L with tables := [] }
  else { L with tables := [(L.nextId, mergedTables L.tables)], nextId := L.nextId + 1 }

def Layers.maybeCompact (L : Layers) : Layers :=
  if L.tables.length > MAX_SSTABLES then L.compact else L

/-- Move the memtable to a new table and empty the log. -/
def Layers.flushTable (L : Layers) : Layers :=
  { L with
    data := ∅
    log := []
    tables := (L.nextId, L.data) :: L.tables
    nextId := L.nextId + 1 }

def Layers.flush (L : Layers) : Layers :=
  if L.data.isEmpty then L else L.flushTable.maybeCompact

/-- The memtable's footprint. -/
def Layers.bytes (L : Layers) : ℕ := OrderedMap.total entryFootprint L.data

/-- A write that reached the budget. -/
def Layers.Flushes (L : Layers) : Prop := L.bytes ≥ L.budget ∧ L.data.isEmpty = false

def Layers.maybeFlush (L : Layers) : Layers := if L.bytes ≥ L.budget then L.flush else L

/-- A whole write: log, apply, and flush if the budget is reached. -/
def Layers.commit (b : Batch) (L : Layers) : Layers := (L.write b).maybeFlush

/-- The highest sequence number of a log. -/
def lastSequence (log : List WalEntry) : UInt64 := log.foldl (fun s e => max s e.sequence) 0

def nextIdOf : List (ℕ × Memtable) → ℕ
  | [] => 1
  | t :: _ => t.1 + 1

/-- Drop the store and open the directory again. -/
def Layers.reopen (L : Layers) : Layers :=
  { L with
    budget := DEFAULT_MEMTABLE_MAX_BYTES
    sequence := lastSequence L.log
    nextId := nextIdOf L.tables }

/-! ## Steps that fit -/

variable (p : Prost)

/-- The batch fits the log and the sequence numbers. -/
structure Layers.WriteFits (b : Batch) (L : Layers) : Prop where
  log : (logBytes p (L.write b).log).length ≤ maxFileLen
  sequence : L.sequence.toNat + b.length < 2 ^ 64

/-- The table with the next id fits the file format, and there is an id after it. -/
structure Layers.TableFits (m : Memtable) (L : Layers) : Prop where
  table : FerrumDB.TableFits p m.toList
  nextId : L.nextId + 1 < 2 ^ 64

def Layers.CompactFits (L : Layers) : Prop :=
  2 ≤ L.tables.length → (mergedTables L.tables).isEmpty = false → L.TableFits p (mergedTables L.tables)

structure Layers.FlushesFit (L : Layers) : Prop where
  table : L.TableFits p L.data
  compact : L.flushTable.tables.length > MAX_SSTABLES → L.flushTable.CompactFits p

def Layers.FlushFits (L : Layers) : Prop := L.data.isEmpty = false → L.FlushesFit p

/-- The write fits, and so does the flush it triggers. -/
structure Layers.CommitFits (b : Batch) (L : Layers) : Prop where
  write : L.WriteFits p b
  flush : (L.write b).bytes ≥ (L.write b).budget → (L.write b).FlushFits p

instance (b : Batch) (L : Layers) : Decidable (L.WriteFits p b) :=
  decidable_of_iff ((logBytes p (L.write b).log).length ≤ maxFileLen ∧
    L.sequence.toNat + b.length < 2 ^ 64) ⟨fun ⟨h, h'⟩ => ⟨h, h'⟩, fun ⟨h, h'⟩ => ⟨h, h'⟩⟩

instance (m : Memtable) (L : Layers) : Decidable (L.TableFits p m) :=
  decidable_of_iff (FerrumDB.TableFits p m.toList ∧ L.nextId + 1 < 2 ^ 64)
    ⟨fun ⟨h, h'⟩ => ⟨h, h'⟩, fun ⟨h, h'⟩ => ⟨h, h'⟩⟩

instance (L : Layers) : Decidable (L.CompactFits p) :=
  inferInstanceAs (Decidable (_ → _ → _))

instance (L : Layers) : Decidable (L.FlushesFit p) :=
  decidable_of_iff (L.TableFits p L.data ∧
    (L.flushTable.tables.length > MAX_SSTABLES → L.flushTable.CompactFits p))
    ⟨fun ⟨h, h'⟩ => ⟨h, h'⟩, fun ⟨h, h'⟩ => ⟨h, h'⟩⟩

instance (L : Layers) : Decidable (L.FlushFits p) := inferInstanceAs (Decidable (_ → _))

instance (b : Batch) (L : Layers) : Decidable (L.CommitFits p b) :=
  decidable_of_iff (L.WriteFits p b ∧ ((L.write b).bytes ≥ (L.write b).budget → (L.write b).FlushFits p))
    ⟨fun ⟨h, h'⟩ => ⟨h, h'⟩, fun ⟨h, h'⟩ => ⟨h, h'⟩⟩

/-! ## What steps do to reads -/

/-- The plain map after a batch. -/
def applyMap (m : Bytes → Option Value) (b : Batch) : Bytes → Option Value :=
  b.foldl (fun m e => Function.update m e.1 e.2) m

theorem live_entryOf (v : Option Value) : (entryOf v).live = v := by cases v <;> rfl

theorem resolve_insert (m : Memtable) (key : Bytes) (v : Option Value)
    (ls : List (Bytes → Option Entry)) :
    resolve Entry.live (layer (m.insert key (entryOf v)) :: ls) =
      Function.update (resolve Entry.live (layer m :: ls)) key v := by
  funext key'
  by_cases hk : key' = key
  · subst hk
    rw [Function.update_self, resolve_cons_some (e := entryOf v), live_entryOf]
    exact Std.ExtTreeMap.getElem?_insert_self
  · rw [Function.update_of_ne hk]
    apply resolve_of_first_eq
    have hl : layer (m.insert key (entryOf v)) key' = layer m key' := by
      unfold layer
      rw [Std.ExtTreeMap.getElem?_insert, if_neg]
      rw [Std.compare_eq_iff_eq]; exact Ne.symm hk
    rw [first_cons, first_cons, hl]

theorem resolve_applyBatch (m : Memtable) (b : Batch) (ls : List (Bytes → Option Entry)) :
    resolve Entry.live (layer (applyBatch m b) :: ls) =
      applyMap (resolve Entry.live (layer m :: ls)) b := by
  induction b generalizing m with
  | nil => rfl
  | cons e b ih =>
    have h := ih (m.insert e.1 (entryOf e.2))
    rw [resolve_insert] at h
    exact h

/-- **A write updates the keys of its batch.** -/
theorem get_write (b : Batch) (L : Layers) : (L.write b).get = applyMap L.get b :=
  resolve_applyBatch L.data b _

/-! ## Merging -/

theorem layer_foldl_insertMany (tables : List (ℕ × Memtable)) (m : Memtable) (key : Bytes) :
    layer (tables.reverse.foldl (fun (m : Memtable) t => m.insertMany t.2.toList) m) key =
      (first (tables.map fun t => layer t.2) key).or (layer m key) := by
  induction tables with
  | nil => rfl
  | cons t tables ih =>
    rw [List.reverse_cons, List.foldl_append, List.foldl_cons, List.foldl_nil, List.map_cons,
      first_cons, Option.or_assoc, ← ih]
    exact OrderedMap.getElem?_insertMany_toList _ _ _

theorem isValue_eq (e : Entry) : e.isValue = (e.live).isSome := by cases e <;> rfl

/-- The merged table is the full merge without tombstones. -/
theorem merges_mergedTables (tables : List (ℕ × Memtable)) (key : Bytes) :
    Merges Entry.live (layer (mergedTables tables)) (tables.map fun t => layer t.2) key := by
  unfold Merges mergedTables
  have hm := layer_foldl_insertMany tables ∅ key
  have hnone : layer ∅ key = none := Std.ExtTreeMap.getElem?_empty
  rw [hnone, Option.or_none] at hm
  rw [← hm]
  unfold layer
  rw [Std.ExtTreeMap.getElem?_filter']
  simp only [isValue_eq]

theorem layer_mergedTables (tables : List (ℕ × Memtable)) (key : Bytes) :
    layer (mergedTables tables) key = (first (tables.map fun t => layer t.2) key).filter Entry.isValue := by
  have h := merges_mergedTables tables key
  unfold Merges at h
  rw [h, funext isValue_eq]

/-- A merge that keeps nothing has nothing live to keep. -/
theorem layer_eq_none_of_isEmpty {m : Memtable} (h : m.isEmpty = true) (key : Bytes) :
    layer m key = none := by
  rw [Std.ExtTreeMap.isEmpty_iff.1 h]
  exact Std.ExtTreeMap.getElem?_empty

theorem resolve_congr_tail {l : Bytes → Option Entry} {ls ls' : List (Bytes → Option Entry)}
    {key : Bytes} (h : resolve Entry.live ls key = resolve Entry.live ls' key) :
    resolve Entry.live (l :: ls) key = resolve Entry.live (l :: ls') key := by
  unfold resolve at *
  rw [first_cons, first_cons]
  cases l key with
  | none => rw [Option.none_or, Option.none_or]; exact h
  | some e => rfl

theorem resolve_mergedTables (tables : List (ℕ × Memtable)) (key : Bytes) :
    resolve Entry.live [layer (mergedTables tables)] key =
      resolve Entry.live (tables.map fun t => layer t.2) key := by
  show resolve Entry.live ([] ++ [layer (mergedTables tables)]) key = resolve Entry.live ([] ++ _) key
  exact resolve_merge (merges_mergedTables tables key)

/-- The tables answer as before they were merged. -/
theorem below_compact (L : Layers) (key : Bytes) :
    resolve Entry.live (L.compact.tables.map fun t => layer t.2) key =
      resolve Entry.live (L.tables.map fun t => layer t.2) key := by
  unfold Layers.compact
  by_cases hlen : L.tables.length < 2
  · rw [if_pos hlen]
  · rw [if_neg hlen]
    by_cases hemp : (mergedTables L.tables).isEmpty = true
    · rw [if_pos hemp, ← resolve_mergedTables L.tables,
        resolve_cons_none (layer_eq_none_of_isEmpty hemp key)]
      rfl
    · rw [if_neg hemp]
      exact resolve_mergedTables L.tables key

theorem compact_log (L : Layers) : L.compact.log = L.log ∧ L.compact.data = L.data := by
  unfold Layers.compact
  split_ifs <;> exact ⟨rfl, rfl⟩

/-- **Compaction changes no read.** -/
theorem get_compact (L : Layers) : L.compact.get = L.get := by
  funext key
  unfold Layers.get Layers.stack
  rw [(compact_log L).2]
  exact resolve_congr_tail (below_compact L key)

theorem get_maybeCompact (L : Layers) : L.maybeCompact.get = L.get := by
  unfold Layers.maybeCompact
  split
  · exact get_compact L
  · rfl

theorem get_flushTable (L : Layers) : L.flushTable.get = L.get := by
  funext key
  exact resolve_cons_none Std.ExtTreeMap.getElem?_empty

/-- **Flushing changes no read.** -/
theorem get_flush (L : Layers) : L.flush.get = L.get := by
  unfold Layers.flush
  split
  · rfl
  · rw [get_maybeCompact, get_flushTable]

theorem get_maybeFlush (L : Layers) : L.maybeFlush.get = L.get := by
  unfold Layers.maybeFlush
  split
  · exact get_flush L
  · rfl

theorem get_commit (b : Batch) (L : Layers) : (L.commit b).get = applyMap L.get b := by
  rw [Layers.commit, get_maybeFlush, get_write]

theorem get_reopen (L : Layers) : L.reopen.get = L.get := rfl

end FerrumDB
