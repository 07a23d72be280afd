import FerrumDB.Wal
import FerrumDB.SsTable
import Mathlib.Data.List.Sort

/-!
# The store

`store.rs`: the memtable, writes through the log, flush and compaction, point reads, scans and
transactions, and opening a table directory. A write goes to the log first and reaches the
memtable only after its COMMIT record has been fsynced; a memtable that reaches its budget is
flushed to a new table, and more than `MAX_SSTABLES` tables are merged into one.
-/

namespace FerrumDB

open CrashLogic

variable {σ α : Type}

def DEFAULT_MEMTABLE_MAX_BYTES : ℕ := 4 * 2 ^ 20

def MAX_SSTABLES : ℕ := 8

/-- A `BTreeMap<Vec<u8>, Entry>`. -/
abbrev Memtable := Std.ExtTreeMap Bytes Entry compare

/-- A single table. `nextSstableId` is a `u64`, see `succU64`. -/
structure Store where
  data : Memtable
  memtableBytes : ℕ
  memtableMaxBytes : ℕ
  wal : Wal
  sequence : UInt64
  dir : String
  sstables : List SsTable
  nextSstableId : ℕ

/-- Approximate in-memory footprint of one memtable entry. -/
def entryFootprint (key : Bytes) (entry : Entry) : ℕ :=
  key.length +
    match entry with
    | .value (.integer _) => 4
    | .value (.float _) => 8
    | .value (.boolean _) => 1
    | .value (.text s) => s.utf8ByteSize
    | .value (.bytes b) => b.length
    | .tombstone => 0

/-- Insert into the memtable, keeping the byte estimate in sync. Subtracting more than the estimate
holds underflows. -/
def Store.memtableInsert (s : Store) (key : Bytes) (entry : Entry) : Except Stop Store :=
  let bytes := s.memtableBytes + entryFootprint key entry
  match s.data[key]? with
  | some old =>
    if bytes < entryFootprint key old then .error .panic
    else .ok { s with memtableBytes := bytes - entryFootprint key old, data := s.data.insert key entry }
  | none => .ok { s with memtableBytes := bytes, data := s.data.insert key entry }

def Store.insert (key : Bytes) (entry : Entry) : Prog Store Unit := do
  let s ← self
  setSelf (← ofStop (s.memtableInsert key entry))

def Store.setMemtableBudget (bytes : ℕ) : Prog Store Unit :=
  modifySelf fun s => { s with memtableMaxBytes := bytes }

def Store.onWal (m : Prog Wal α) : Prog Store α :=
  onField Store.wal (fun wal s => { s with wal }) m

/-- `n + 1` in a `u64`. -/
def succU64 (n : ℕ) : Prog σ ℕ := if n + 1 < 2 ^ 64 then pure (n + 1) else panics

/-! ## File names -/

def walName : FileName := "wal.log"

def sstName (id : ℕ) : FileName := s!"sstable_{id}.sst"

def stripPlus : List Char → List Char
  | '+' :: rest => rest
  | cs => cs

/-- `str::parse::<u64>`: an optional plus sign and decimal digits, within 64 bits. -/
def parseU64 (cs : List Char) : Option ℕ :=
  let digits := stripPlus cs
  if digits = [] ∨ digits.all Char.isDigit = false then none
  else
    let n := Nat.ofDigitChars 10 digits 0
    if n < 2 ^ 64 then some n else none

def stripPrefix (pre cs : List Char) : Option (List Char) :=
  if pre <+: cs then some (cs.drop pre.length) else none

def stripSuffix (suf cs : List Char) : Option (List Char) :=
  if suf <:+ cs then some (cs.take (cs.length - suf.length)) else none

/-- The id in a `sstable_<id>.sst` file name. -/
def sstableIdFromPath (name : FileName) : Option ℕ :=
  (stripPrefix "sstable_".toList name.toList).bind fun rest =>
    (stripSuffix ".sst".toList rest).bind parseU64

/-! ## Flush and compaction -/

/-- Merge the entries of `tables`, in this order, over `merged`. -/
def Store.mergeFrom (p : Prost) : List SsTable → Memtable → Prog Store Memtable
  | [], merged => pure merged
  | t :: tables, merged => do
    let entries ← t.readAllEntries p
    Store.mergeFrom p tables (merged.insertMany entries)

def Entry.isValue : Entry → Bool
  | .value _ => true
  | .tombstone => false

/-- All tables merged, oldest to newest, without tombstones. -/
def Store.mergeTables (p : Prost) : Prog Store Memtable := do
  let s ← self
  let merged ← Store.mergeFrom p s.sstables.reverse ∅
  return merged.filter fun _ entry => entry.isValue

/-- Make the merged table the only one; if nothing is left, no table is written. -/
def Store.installMerged (p : Prost) (merged : Memtable) : Prog Store Unit := do
  let s ← self
  if merged.isEmpty then setSelf { s with sstables := [] }
  else do
    let newSst ← SsTable.flush p (sstName s.nextSstableId) merged.toList
    let next ← succU64 s.nextSstableId
    setSelf { s with nextSstableId := next, sstables := [newSst] }

/-- Best-effort removal of obsolete files. -/
def Store.cleanup (paths : List FileName) : Prog Store Unit :=
  forM paths fun path => ignoreErr (removeFile path)

def Store.compact (p : Prost) : Prog Store Unit := do
  let s ← self
  if s.sstables.length < 2 then return ()
  else do
    let merged ← Store.mergeTables p
    Store.installMerged p merged
    Store.cleanup (s.sstables.map SsTable.path)

def Store.maybeCompact (p : Prost) : Prog Store Unit := do
  let s ← self
  if s.sstables.length > MAX_SSTABLES then Store.compact p else return ()

/-- Write the memtable out as a new table, then clear the memtable and the log. -/
def Store.flushTable (p : Prost) : Prog Store Unit := do
  let s ← self
  let sst ← SsTable.flush p (sstName s.nextSstableId) s.data.toList
  let next ← succU64 s.nextSstableId
  setSelf { s with nextSstableId := next, sstables := sst :: s.sstables, data := ∅, memtableBytes := 0 }
  Store.onWal Wal.clear

def Store.flush (p : Prost) : Prog Store Unit := do
  let s ← self
  if s.data.isEmpty then return ()
  else do
    Store.flushTable p
    Store.maybeCompact p

def Store.maybeFlush (p : Prost) : Prog Store Unit := do
  let s ← self
  if s.memtableBytes ≥ s.memtableMaxBytes then Store.flush p else return ()

/-! ## Writes -/

/-- Take the next sequence number and append the entry built from it. -/
def Store.logEntry (p : Prost) (entry : UInt64 → WalEntry) : Prog Store Unit := do
  let s ← self
  if s.sequence.toNat + 1 < 2 ^ 64 then do
    setSelf { s with sequence := s.sequence + 1 }
    Store.onWal (Wal.append p (entry (s.sequence + 1)))
  else panics

def Store.logCommit (p : Prost) : Prog Store Unit := do
  let s ← self
  Store.onWal (Wal.writeCommit p s.sequence)

def Store.setValue (p : Prost) (key : Bytes) (value : Value) : Prog Store String := do
  Store.logEntry p (Wal.createPutEntry key value)
  Store.logCommit p
  Store.insert key (.value value)
  Store.maybeFlush p
  return "Inserted value"

def Store.deleteValue (p : Prost) (key : Bytes) : Prog Store String := do
  Store.logEntry p (Wal.createDeleteEntry key)
  Store.logCommit p
  Store.insert key .tombstone
  Store.maybeFlush p
  return "Deleted value"

/-! ## Reads -/

/-- A method of the `i`-th table. -/
def Store.onTable (i : ℕ) (m : Prog SsTable (Option α)) : Prog Store (Option α) := do
  let s ← self
  match s.sstables[i]? with
  | none => return none
  | some t =>
    onField (fun _ => t) (fun t s => { s with sstables := s.sstables.set i t }) m

/-- Ask `n` tables from the `i`-th on, newest first. -/
def Store.getFromTables (p : Prost) (key : Bytes) : ℕ → ℕ → Prog Store (Option Value)
  | 0, _ => return none
  | n + 1, i => do
    match ← Store.onTable i (SsTable.get p key) with
    | some entry => return entry.live
    | none => Store.getFromTables p key n (i + 1)

/-- Look up a key in the memtable, then in the tables from newest to oldest. -/
def Store.getValue (p : Prost) (key : Bytes) : Prog Store (Option Value) := do
  let s ← self
  match s.data[key]? with
  | some entry => return entry.live
  | none => Store.getFromTables p key s.sstables.length 0

inductive Bound where
  | unbounded
  | included (b : Bytes)
  | excluded (b : Bytes)
  deriving DecidableEq

def Bound.aboveLo (key : Bytes) : Bound → Bool
  | .unbounded => true
  | .included b => b ≤ key
  | .excluded b => b < key

def Bound.belowHi (key : Bytes) : Bound → Bool
  | .unbounded => true
  | .included b => key ≤ b
  | .excluded b => key < b

def inBounds (key : Bytes) (lo hi : Bound) : Bool := lo.aboveLo key && hi.belowHi key

/-- Whether a table spanning `[min, max]` can contain any key within the bounds. -/
def rangeOverlaps (min max : Bytes) (lo hi : Bound) : Bool :=
  let maxBelowLo :=
    match lo with
    | .unbounded => false
    | .included b => decide (max < b)
    | .excluded b => decide (max ≤ b)
  let minAboveHi :=
    match hi with
    | .unbounded => false
    | .included b => decide (b < min)
    | .excluded b => decide (b ≤ min)
  !maxBelowLo && !minAboveHi

/-- The bounds `BTreeMap::range` accepts: the start is not after the end, and the two are not equal
and both excluded. -/
def rangeAccepts : Bound → Bound → Bool
  | .excluded s, .excluded e => s < e
  | .included s, .included e => s ≤ e
  | .included s, .excluded e => s ≤ e
  | .excluded s, .included e => s ≤ e
  | _, _ => true

/-- `BTreeMap::range`, as a list: an empty map checks nothing. -/
def Store.dataRange (s : Store) (lo hi : Bound) : Except Stop (List (Bytes × Entry)) :=
  if s.data.isEmpty = false ∧ rangeAccepts lo hi = false then .error .panic
  else .ok (s.data.toList.filter fun e => inBounds e.1 lo hi)

/-- Merge the entries of `tables` within the bounds, in this order, over `merged`, skipping tables
whose key range does not overlap the bounds. -/
def Store.scanTables (p : Prost) (lo hi : Bound) : List SsTable → Memtable → Prog Store Memtable
  | [], merged => pure merged
  | t :: tables, merged => do
    if (match t.keyRange with | some (min, max) => !rangeOverlaps min max lo hi | none => false) then
      Store.scanTables p lo hi tables merged
    else do
      let entries ← t.readAllEntries p
      Store.scanTables p lo hi tables (merged.insertMany (entries.filter fun e => inBounds e.1 lo hi))

/-- All pairs within the bounds, in key order. -/
def Store.scanRange (p : Prost) (lo hi : Bound) : Prog Store (List (Bytes × Value)) := do
  let s ← self
  let merged ← Store.scanTables p lo hi s.sstables.reverse ∅
  let range ← ofStop (s.dataRange lo hi)
  return (merged.insertMany range).toList.filterMap fun e => e.2.live.map (e.1, ·)

/-! ## Transactions -/

/-- Buffered writes: `some v` is a put, `none` a delete. -/
structure Transaction where
  pending : Std.ExtTreeMap Bytes (Option Value) compare

def Store.beginTransaction : Transaction := ⟨∅⟩

def Transaction.setValue (tx : Transaction) (key : Bytes) (value : Value) : Transaction :=
  ⟨tx.pending.insert key (some value)⟩

def Transaction.deleteValue (tx : Transaction) (key : Bytes) : Transaction :=
  ⟨tx.pending.insert key none⟩

/-- Read within the transaction: its own writes first, then the store. -/
def Transaction.getValue (p : Prost) (tx : Transaction) (key : Bytes) :
    Prog Store (Option Value) :=
  match tx.pending[key]? with
  | some val => return val
  | none => Store.getValue p key

/-- The log record of one buffered write. -/
def pendingEntry (key : Bytes) : Option Value → UInt64 → WalEntry
  | some v => Wal.createPutEntry key v
  | none => Wal.createDeleteEntry key

/-- The memtable entry of one buffered write. -/
def entryOf : Option Value → Entry
  | some v => .value v
  | none => .tombstone

def Transaction.commit (p : Prost) (tx : Transaction) : Prog Store Unit := do
  if tx.pending.isEmpty then return ()
  else do
    forM tx.pending.toList fun e => Store.logEntry p (pendingEntry e.1 e.2)
    Store.logCommit p
    forM tx.pending.toList fun e => Store.insert e.1 (entryOf e.2)
    Store.maybeFlush p

/-- Drop the buffer. -/
def Transaction.rollback (_tx : Transaction) : Prog Store Unit := return ()

/-! ## Opening -/

/-- Replay one entry of a committed batch. -/
def Store.replayEntry (s : Store) (e : WalEntry) : Except Stop Store := do
  let s ←
    match e.op with
    | .put =>
      match e.value with
      | some msg =>
        match Value.fromProto msg with
        | .ok value => s.memtableInsert e.key (.value value)
        | .error err => .error (.err err)
      | none => .ok s
    | .delete => s.memtableInsert e.key .tombstone
    | .commit => .ok s
  return { s with sequence := max s.sequence e.sequence }

/-- Replay log entries: a batch is buffered until its COMMIT and then applied. -/
def Store.replayEntries : List WalEntry → List WalEntry → Store → Except Stop Store
  | [], _, s => .ok s
  | e :: entries, pending, s =>
    match e.op with
    | .commit => do
      let s ← pending.foldlM Store.replayEntry s
      Store.replayEntries entries [] { s with sequence := max s.sequence e.sequence }
    | _ => Store.replayEntries entries (pending ++ [e]) s

def Store.replayWal (p : Prost) : Prog Store Unit := do
  let entries ← Store.onWal (Wal.readForRecovery p)
  let s ← self
  setSelf (← ofStop (Store.replayEntries entries [] s))

/-- Open every table file among `names`. -/
def Store.openFound : List FileName → List (ℕ × SsTable) → Prog Store (List (ℕ × SsTable))
  | [], found => pure found
  | name :: names, found =>
    match sstableIdFromPath name with
    | some id => do
      let t ← SsTable.open name
      Store.openFound names (found ++ [(id, t)])
    | none => Store.openFound names found

/-- One past the highest id, or 1 if there is none; `id + 1` overflows at the last `u64`. -/
def nextIdAfter (found : List (ℕ × SsTable)) : Except Stop ℕ :=
  if found.any fun x => decide (2 ^ 64 ≤ x.1 + 1) then .error .panic
  else .ok ((found.map fun x => x.1 + 1).max?.getD 1)

/-- `read_dir` of the table directory: a failure means that there is nothing to load. -/
def tryReadDir : Prog σ (Option (List FileName)) := fun s =>
  match readDir s with
  | .ok names t => .ok (some names) t
  | .error (.err _) t => .ok none t
  | .error e t => .error e t

/-- Open the table files of the directory and order them newest first. -/
def Store.loadSstables : Prog Store Unit := do
  match ← tryReadDir with
  | none => return ()
  | some names => do
    let found ← Store.openFound names []
    let next ← ofStop (nextIdAfter found)
    modifySelf fun s =>
      { s with
        nextSstableId := next
        sstables := (found.insertionSort fun a b => b.1 ≤ a.1).map Prod.snd }

/-- A store that has not loaded anything. -/
def Store.fresh (dir : String) (wal : Wal) : Store where
  data := ∅
  memtableBytes := 0
  memtableMaxBytes := DEFAULT_MEMTABLE_MAX_BYTES
  wal
  sequence := 0
  dir
  sstables := []
  nextSstableId := 1

/-- Dropping a store releases its lock. -/
def Store.drop : Prog σ Unit := modify fun s => { s with disk := { s.disk with locked := false } }

/-- Run `m`; if it stops, the store it was building is dropped. -/
def Store.dropOnStop (m : Prog Store α) : Prog Store α := fun s =>
  match m s with
  | .ok a t => .ok a t
  | .error e t => .error e { t with disk := { t.disk with locked := false } }

/-- Open the table in `dir`: take the lock, load the tables and replay the log on top. -/
def Store.openWithDir (p : Prost) (dir : String) : Prog Store Unit := do
  createDirAll
  openLock
  if !(← flock) then fail (.ioError s!"table is already open: {dir}/LOCK")
  else Store.dropOnStop do
    let wal ← Wal.withPath walName
    setSelf (Store.fresh dir wal)
    Store.loadSstables
    Store.replayWal p

end FerrumDB
