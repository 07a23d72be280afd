import FerrumDB.Value
import FerrumDB.Lib.CrashLogic
import FerrumDB.Lib.OrderedMap

/-!
# The table directory and its I/O calls

A `Disk` is the directory of one table: its files by name, and whether its `LOCK` is held. A file
remembers how much of it has been fsynced, which is what a crash is sure to keep.

A program (`Prog`) works on the structure it is a method of, the disk, and an environment that
decides for every I/O call whether it succeeds, fails, or is the call at which the process stops.
A failed or interrupted write may have put a part of its bytes into the file. A program stops with
an `AppError`, a panic or a crash, and keeps the state it reached.
-/

namespace FerrumDB

open CrashLogic

/-! ## Files -/

abbrev FileName := String

/-- File offsets are signed 64-bit numbers. -/
def maxFileLen : ℕ := 2 ^ 63 - 1

/-- A file: its bytes, and how many of them, from the start, have been fsynced. -/
structure File where
  bytes : Bytes
  synced : ℕ
  synced_le : synced ≤ bytes.length
  length_le : bytes.length ≤ maxFileLen

def File.empty : File := ⟨[], 0, Nat.le_refl _, Nat.zero_le _⟩

/-- Append `bs`, or as much of it as the file system has room for. -/
def File.append (f : File) (bs : Bytes) : File where
  bytes := f.bytes ++ bs.take (maxFileLen - f.bytes.length)
  synced := f.synced
  synced_le := by have := f.synced_le; simp only [List.length_append]; omega
  length_le := by have := f.length_le; simp only [List.length_append, List.length_take]; omega

def File.truncate (f : File) (n : ℕ) : File where
  bytes := f.bytes.take n
  synced := min f.synced n
  synced_le := by have := f.synced_le; simp only [List.length_take]; omega
  length_le := by have := f.length_le; simp only [List.length_take]; omega

def File.sync (f : File) : File := { f with synced := f.bytes.length, synced_le := Nat.le_refl _ }

/-- What a crash leaves: the fsynced bytes and `n` of those appended since. -/
def File.crash (f : File) (n : ℕ) : File := (f.truncate (f.synced + n)).sync

/-- The directory of a table. `locked` says that a live store holds the `LOCK` file. -/
structure Disk where
  files : Std.ExtTreeMap FileName File
  locked : Bool

def Disk.empty : Disk := ⟨∅, false⟩

def Disk.put (d : Disk) (name : FileName) (f : File) : Disk :=
  { d with files := d.files.insert name f }

/-- The bytes of a file, none for a missing file. -/
def Disk.bytesOf (d : Disk) (name : FileName) : Bytes := (d.files[name]?.map File.bytes).getD []

/-- A crash: every file loses what was not fsynced, up to the bytes `keep` says survived, and the
lock dies with its process. -/
def Disk.crash (d : Disk) (keep : FileName → ℕ) : Disk where
  files := d.files.map fun name f => f.crash (keep name)
  locked := false

/-! ## Calls, faults and programs -/

inductive IoOp where
  | createDirAll | openLock | flock | exists | readDir | openRead | openAppend | openTruncate
  | openWrite | fileLen | read | write | sync | setLen | remove
  deriving DecidableEq, Repr

/-- An I/O call: what is done, and to which file of the directory. -/
structure IoCall where
  op : IoOp
  path : FileName
  deriving DecidableEq, Repr

/-- What can happen to a call. A write that fails may have written some of its bytes, but not all;
a crash may fall at any byte of a write, and before any other call takes effect. -/
inductive Fault where
  | error (msg : String) (written : ℕ)
  | crash (written : ℕ)
  deriving DecidableEq, Repr

/-- The outcome of the `n`-th call of the process. -/
abbrev Env := ℕ → IoCall → Option Fault

/-- No call fails. -/
def Env.quiet : Env := fun _ _ => none

/-- Why a program stopped. -/
inductive Stop where
  | err (e : AppError)
  | panic
  | crash
  deriving DecidableEq, Repr

/-- The memory a method runs on: the value it is called on, the disk and the environment. -/
structure Mem (σ : Type) where
  self : σ
  disk : Disk
  env : Env
  clock : ℕ

abbrev Prog (σ α : Type) := EStateM Stop (Mem σ) α

variable {σ τ α : Type}

/-- The partial effect of a faulty call on the disk, none unless the call writes. -/
abbrev TornEffect := Fault → Disk → Disk

/-- Make one I/O call: `act` is its effect when nothing goes wrong, `torn` what a fault leaves. -/
def ioCall (c : IoCall) (torn : TornEffect) (act : Disk → Except String α × Disk) : Prog σ α :=
  fun s =>
    match s.env s.clock c with
    | none =>
      match act s.disk with
      | (.ok a, d) => .ok a { s with disk := d, clock := s.clock + 1 }
      | (.error msg, d) => .error (.err (.ioError msg)) { s with disk := d, clock := s.clock + 1 }
    | some (.error msg n) =>
      .error (.err (.ioError msg)) { s with disk := torn (.error msg n) s.disk, clock := s.clock + 1 }
    | some (.crash n) =>
      .error .crash { s with disk := torn (.crash n) s.disk, clock := s.clock + 1 }

def noEffect : TornEffect := fun _ d => d

/-- Run a program, ignoring an `AppError` it stops with (`let _ = ...`, `.ok()`). -/
def ignoreErr (m : Prog σ α) : Prog σ Unit := fun s =>
  match m s with
  | .ok _ t => .ok () t
  | .error (.err _) t => .ok () t
  | .error e t => .error e t

def fail (e : AppError) : Prog σ α := throw (.err e)

/-- An arithmetic overflow, a bad slice or a failed allocation. -/
def panics : Prog σ α := throw .panic

/-- The result of a pure computation, an error as an `AppError`. -/
def ofExcept : Except AppError α → Prog σ α
  | .ok a => pure a
  | .error e => fail e

/-- The result of a pure computation that may panic. -/
def ofStop : Except Stop α → Prog σ α
  | .ok a => pure a
  | .error e => throw e

/-! ## The calls -/

def noSuchFile : String := "No such file or directory (os error 2)"
def fileTooLarge : String := "File too large (os error 27)"
def invalidArgument : String := "Invalid argument (os error 22)"
def unexpectedEof : String := "failed to fill whole buffer"

/-- `std::fs::create_dir_all` of the table directory. -/
def createDirAll : Prog σ Unit := ioCall ⟨.createDirAll, ""⟩ noEffect fun d => (.ok (), d)

/-- Open the lock file, creating it if it is missing and never truncating it. -/
def openLock : Prog σ Unit := ioCall ⟨.openLock, "LOCK"⟩ noEffect fun d =>
  (.ok (), if d.files.contains "LOCK" then d else d.put "LOCK" File.empty)

/-- `flock(LOCK_EX | LOCK_NB)`: whether the lock was taken. -/
def flock : Prog σ Bool := fun s =>
  match ioCall ⟨.flock, "LOCK"⟩ noEffect (fun d => (.ok (!d.locked), { d with locked := true })) s with
  | .error (.err _) t => .ok false t
  | r => r

/-- `Path::exists`: a failing metadata call reads as "no". -/
def pathExists (name : FileName) : Prog σ Bool := fun s =>
  match ioCall ⟨.exists, name⟩ noEffect (fun d => (.ok (d.files.contains name), d)) s with
  | .error (.err _) t => .ok false t
  | r => r

/-- The names of the files in the directory. -/
def readDir : Prog σ (List FileName) := ioCall ⟨.readDir, ""⟩ noEffect fun d =>
  (.ok d.files.keys, d)

/-- `File::open`. -/
def openRead (name : FileName) : Prog σ Unit := ioCall ⟨.openRead, name⟩ noEffect fun d =>
  (if d.files.contains name then .ok () else .error noSuchFile, d)

/-- `OpenOptions::new().create(true).append(true)`. -/
def openAppend (name : FileName) : Prog σ Unit := ioCall ⟨.openAppend, name⟩ noEffect fun d =>
  (.ok (), if d.files.contains name then d else d.put name File.empty)

/-- `File::create`, and `OpenOptions::new().create(true).write(true).truncate(true)`. -/
def openTruncate (name : FileName) : Prog σ Unit := ioCall ⟨.openTruncate, name⟩ noEffect fun d =>
  (.ok (), d.put name File.empty)

/-- `OpenOptions::new().write(true)`. -/
def openWrite (name : FileName) : Prog σ Unit := ioCall ⟨.openWrite, name⟩ noEffect fun d =>
  (if d.files.contains name then .ok () else .error noSuchFile, d)

def fileLen (name : FileName) : Prog σ ℕ := ioCall ⟨.fileLen, name⟩ noEffect fun d =>
  match d.files[name]? with
  | some f => (.ok f.bytes.length, d)
  | none => (.error noSuchFile, d)

/-- `read_to_end` of a whole file. -/
def readToEnd (name : FileName) : Prog σ Bytes := ioCall ⟨.read, name⟩ noEffect fun d =>
  match d.files[name]? with
  | some f => (.ok f.bytes, d)
  | none => (.error noSuchFile, d)

/-- `seek(SeekFrom::Start(offset))` and `read_exact` of `len` bytes. A seek past the end succeeds, and so does
reading nothing there. -/
def readExactAt (name : FileName) (offset len : ℕ) : Prog σ Bytes :=
  ioCall ⟨.read, name⟩ noEffect fun d =>
    match d.files[name]? with
    | some f =>
      if offset > maxFileLen then (.error invalidArgument, d)
      else if 0 < len ∧ offset + len > f.bytes.length then (.error unexpectedEof, d)
      else (.ok ((f.bytes.drop offset).take len), d)
    | none => (.error noSuchFile, d)

/-- Append bytes to a file of the directory. -/
def Disk.append (d : Disk) (name : FileName) (bs : Bytes) : Disk :=
  match d.files[name]? with
  | some f => d.put name (f.append bs)
  | none => d

/-- What a faulty `write_all` leaves: a proper prefix of the bytes when it returns an error, any
prefix when the process stops. -/
def tornWrite (name : FileName) (bs : Bytes) : TornEffect
  | .error _ n, d => d.append name (bs.dropLast.take n)
  | .crash n, d => d.append name (bs.take n)

/-- `write_all` at the end of an open file. -/
def writeAll (name : FileName) (bs : Bytes) : Prog σ Unit :=
  ioCall ⟨.write, name⟩ (tornWrite name bs) fun d =>
    match d.files[name]? with
    | some f =>
      if f.bytes.length + bs.length ≤ maxFileLen then (.ok (), d.append name bs)
      else (.error fileTooLarge, d.append name bs)
    | none => (.error noSuchFile, d)

/-- `sync_all`. -/
def syncAll (name : FileName) : Prog σ Unit := ioCall ⟨.sync, name⟩ noEffect fun d =>
  match d.files[name]? with
  | some f => (.ok (), d.put name f.sync)
  | none => (.error noSuchFile, d)

/-- `set_len` to a length within the file. -/
def setLen (name : FileName) (n : ℕ) : Prog σ Unit := ioCall ⟨.setLen, name⟩ noEffect fun d =>
  match d.files[name]? with
  | some f => (.ok (), d.put name (f.truncate n))
  | none => (.error noSuchFile, d)

/-- `std::fs::remove_file`. -/
def removeFile (name : FileName) : Prog σ Unit := ioCall ⟨.remove, name⟩ noEffect fun d =>
  if d.files.contains name then (.ok (), { d with files := d.files.erase name })
  else (.error noSuchFile, d)

/-! ## Methods on a part of a structure -/

/-- Run a method of a field: `get` reads the field, `put` writes it back. -/
def onField (get : σ → τ) (put : τ → σ → σ) (m : Prog τ α) : Prog σ α :=
  zoom (fun s : Mem σ => { s with self := get s.self })
    (fun t s => { t with self := put t.self s.self }) m

/-- Read the receiver. -/
def self : Prog σ σ := do return (← get).self

/-- Write the receiver. -/
def setSelf (a : σ) : Prog σ Unit := modify fun s => { s with self := a }

def modifySelf (f : σ → σ) : Prog σ Unit := modify fun s => { s with self := f s.self }

end FerrumDB
