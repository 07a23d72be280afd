import FerrumDB.Disk
import FerrumDB.Lib.FramedLog

/-!
# The write-ahead log

`wal.rs`: framing, appending, committing, parsing and recovery. The log is a sequence of frames,
each an eight-byte length followed by the protobuf bytes of a `WalEntry`; a batch is durable once
its COMMIT record has been fsynced.
-/

namespace FerrumDB

open ByteCodec

variable {σ : Type}

/-- The log of a table. `file` says whether the append handle is open. -/
structure Wal where
  filePath : FileName
  file : Bool
  deriving DecidableEq

/-- `Wal::with_path`: a failure to create the directory is ignored. -/
def Wal.withPath (path : FileName) : Prog σ Wal := do
  ignoreErr createDirAll
  return ⟨path, false⟩

/-- Open the cached append handle on first use. -/
def Wal.writer : Prog Wal Unit := do
  let w ← self
  if w.file then pure ()
  else do
    openAppend w.filePath
    setSelf { w with file := true }

/-- Frame one entry: an 8-byte big-endian length followed by its protobuf bytes. -/
def frame (p : Prost) (entry : WalEntry) : Bytes :=
  let bytes := p.encodeEntry entry
  beBytes 8 bytes.length ++ bytes

/-- Append an entry without fsyncing. -/
def Wal.append (p : Prost) (entry : WalEntry) : Prog Wal Unit := do
  Wal.writer
  let w ← self
  writeAll w.filePath (frame p entry)

def commitEntry (sequence : UInt64) : WalEntry where
  operation := Operation.commit.toInt32
  key := []
  value := none
  sequence
  timestamp := 0

/-- Write a COMMIT marker and fsync. -/
def Wal.writeCommit (p : Prost) (sequence : UInt64) : Prog Wal Unit := do
  Wal.writer
  let w ← self
  writeAll w.filePath (frame p (commitEntry sequence))
  syncAll w.filePath

/-- The whole file, or `none` if it does not exist. -/
def Wal.readFile : Prog Wal (Option Bytes) := do
  let w ← self
  if ← pathExists w.filePath then do
    openRead w.filePath
    return some (← readToEnd w.filePath)
  else return none

/-! ## Parsing -/

/-- The variables of the parsing loop. -/
structure Parsed where
  entries : List WalEntry
  committedCount : ℕ
  committedEnd : ℕ
  offset : ℕ

/-- One more decoded entry, ending at `offset`. -/
def Parsed.push (st : Parsed) (entry : WalEntry) (offset : ℕ) : Parsed :=
  let entries := st.entries ++ [entry]
  if entry.op = .commit then
    { entries, committedCount := entries.length, committedEnd := offset, offset }
  else { st with entries, offset }

/-- The parsing loop; every round advances by at least the eight bytes of a length. The addition
of a length to the offset overflows `usize` when it reaches `2 ^ 64`. -/
def parseLoop (p : Prost) (buffer : Bytes) : ℕ → Parsed → Except Stop Parsed
  | 0, st => .ok st
  | fuel + 1, st =>
    if st.offset < buffer.length then
      if st.offset + 8 > buffer.length then .ok st
      else
        let len := ofBe ((buffer.drop st.offset).take 8)
        let offset := st.offset + 8
        if offset + len ≥ 2 ^ 64 then .error .panic
        else if offset + len > buffer.length then .ok { st with offset }
        else
          match p.decodeEntry ((buffer.drop offset).take len) with
          | .ok entry => parseLoop p buffer fuel (st.push entry (offset + len))
          | .error _ => parseLoop p buffer fuel { st with offset := offset + len }
    else .ok st

/-- All decoded entries, the number of them up to the last COMMIT, and the byte offset just past
that COMMIT. -/
def parseBuffer (p : Prost) (buffer : Bytes) : Except Stop (List WalEntry × ℕ × ℕ) :=
  match parseLoop p buffer buffer.length ⟨[], 0, 0, 0⟩ with
  | .ok st => .ok (st.entries, st.committedCount, st.committedEnd)
  | .error e => .error e

/-- All entries of the file, up to a truncated tail. -/
def Wal.readAll (p : Prost) : Prog Wal (List WalEntry) := do
  match ← Wal.readFile with
  | none => return []
  | some buffer => do
    let (entries, _, _) ← ofStop (parseBuffer p buffer)
    return entries

/-- The committed entries; the bytes after the last COMMIT are cut off the file. -/
def Wal.readForRecovery (p : Prost) : Prog Wal (List WalEntry) := do
  match ← Wal.readFile with
  | none => return []
  | some buffer => do
    let (entries, committedCount, committedEnd) ← ofStop (parseBuffer p buffer)
    let w ← self
    if committedEnd < buffer.length then do
      openWrite w.filePath
      setLen w.filePath committedEnd
      syncAll w.filePath
      setSelf { w with file := false }
    return entries.take committedCount

/-- Empty the file and fsync it. -/
def Wal.clear : Prog Wal Unit := do
  modifySelf fun w => { w with file := false }
  let w ← self
  openTruncate w.filePath
  syncAll w.filePath

/-! ## Entry builders -/

def Wal.createPutEntry (key : Bytes) (value : Value) (sequence : UInt64) : WalEntry where
  operation := Operation.put.toInt32
  key
  value := some value.toProto
  sequence
  timestamp := 0

def Wal.createDeleteEntry (key : Bytes) (sequence : UInt64) : WalEntry where
  operation := Operation.delete.toInt32
  key
  value := none
  sequence
  timestamp := 0

@[simp] theorem op_commitEntry (sequence : UInt64) : (commitEntry sequence).op = .commit := rfl

@[simp] theorem op_createPutEntry (key : Bytes) (value : Value) (sequence : UInt64) :
    (Wal.createPutEntry key value sequence).op = .put := rfl

@[simp] theorem op_createDeleteEntry (key : Bytes) (sequence : UInt64) :
    (Wal.createDeleteEntry key sequence).op = .delete := rfl

end FerrumDB
