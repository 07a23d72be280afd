import FerrumDB.Table
import Mathlib.Logic.Function.Basic

/-!
# Databases

`database.rs`: a database is a directory with one subdirectory for each table, and a handle on it that
keeps the tables it has opened. Several handles can be open on one directory, so paths and inodes are
kept apart here: a path leads to a directory, a directory holds files by name, and its `LOCK` file is an
inode of its own, which stays locked when its name is gone.

A call on a handle is taken in steps (`Handle.step`). Opening a table makes the directory, opens `LOCK`,
and locks it; deleting one drops the store of this handle and then removes the files one by one and the
directory. Between two steps of a handle any other handle may take some (`World.step`).
-/

namespace FerrumDB

/-! ## Paths -/

abbrev Path := Bytes

/-- The path that a string names. -/
def pathOf (s : String) : Path := s.toUTF8.data.toList

/-- `Path::join` of a name without separators. -/
def joinPath (root : Path) (name : String) : Path :=
  if root = [] ∨ root.getLast? = some 47 then root ++ pathOf name else root ++ 47 :: pathOf name

/-- Table names must be non-empty and safe to use as a directory name. -/
def validateName (name : String) : Except Error Unit :=
  if name = "" ∨ '/' ∈ name.toList ∨ '\\' ∈ name.toList ∨ name = "." ∨ name = ".." then
    .error (.invalidTableName name)
  else .ok ()

/-! ## The file system -/

abbrev Inode := ℕ

/-- Where paths lead, the files of each directory, the inode of its `LOCK` file if it has one, which
inodes are locked, and the first unused inode. -/
structure Fs where
  dirs : Std.ExtTreeMap Path Inode
  files : Inode → Std.ExtTreeMap FileName File
  lock : Inode → Inode
  locked : Inode → Bool
  next : Inode

def Fs.empty : Fs := ⟨∅, fun _ => ∅, fun _ => 0, fun _ => false, 0⟩

/-- `std::fs::create_dir_all`. -/
def Fs.createDirAll (fs : Fs) (path : Path) : Fs :=
  if fs.dirs.contains path then fs
  else { fs with
    dirs := fs.dirs.insert path fs.next
    files := Function.update fs.files fs.next ∅
    next := fs.next + 1 }

/-- Open the lock file of a directory, creating it if it is missing. -/
def Fs.openLock (fs : Fs) (dir : Inode) : Fs :=
  if (fs.files dir).contains "LOCK" then fs
  else { fs with
    files := Function.update fs.files dir ((fs.files dir).insert "LOCK" File.empty)
    lock := Function.update fs.lock dir fs.next
    locked := Function.update fs.locked fs.next false
    next := fs.next + 1 }

def Fs.setLocked (fs : Fs) (lock : Inode) (b : Bool) : Fs :=
  { fs with locked := Function.update fs.locked lock b }

def Fs.setFiles (fs : Fs) (dir : Inode) (files : Std.ExtTreeMap FileName File) : Fs :=
  { fs with files := Function.update fs.files dir files }

/-- What a store finds in its directory. A store whose directory is gone finds nothing, and its calls on
`wal.log` fail; in the source the open file is written to still, and such a call returns `Ok`. -/
def Fs.disk (fs : Fs) (path : Path) : Disk where
  files :=
    match fs.dirs[path]? with
    | some dir => fs.files dir
    | none => ∅
  locked := true

/-- What a store leaves in its directory. If the directory was gone, it is there again if files are. -/
def Fs.putDisk (fs : Fs) (path : Path) (d : Disk) : Fs :=
  match fs.dirs[path]? with
  | some dir => fs.setFiles dir d.files
  | none => if d.files.isEmpty then fs else (fs.createDirAll path).setFiles fs.next d.files

/-! ## Handles -/

/-- A store in the map of a database, and the inode of the lock file it holds. -/
structure OpenStore where
  store : Store
  lock : Inode

/-- An embedded database rooted at a directory. -/
structure Database where
  root : Path
  opened : Std.ExtTreeMap String OpenStore

/-- What a handle does next: nothing, or the next step of a call. -/
inductive Phase where
  | idle
  | createDirAll (name : String)
  | openLock (name : String)
  | flock (name : String) (lock : Inode)
  | remove (name : String)
  | removeDirAll (name : String)
  | unlink (name : String) (dir : Inode)
  | dropping
  deriving DecidableEq

/-- A handle, and what its last call returned. -/
structure Handle where
  db : Database
  phase : Phase
  result : Except Error Unit

/-- `Database::open` of an existing directory. -/
def Handle.new (root : Path) : Handle := ⟨⟨root, ∅⟩, .idle, .ok ()⟩

/-- A call of the user, a call on a table handle, the next step of the call in progress, the removal of
one file, a failure of the next system call, or the end of one store of a handle that is dropped. -/
inductive Action where
  | createTable (name : String)
  | table (name : String)
  | deleteTable (name : String)
  | drop
  | access (name : String) (c : Call) (env : Env) (clock : ℕ)
  | advance
  | load (env : Env) (clock : ℕ)
  | unlink (file : FileName)
  | fail (msg : String)
  | close (name : String)

/-- The rest of `open_with_dir`, after the lock was taken. -/
def Store.openLocked (p : Prost) (dir : String) : Prog Store Unit := do
  let wal ← Wal.withPath walName
  setSelf (Store.fresh dir wal)
  Store.loadSstables
  Store.replayWal p

theorem openWithDir_eq (p : Prost) (dir : String) : Store.openWithDir p dir = (do
    createDirAll
    openLock
    if !(← flock) then fail (.ioError s!"table is already open: {dir}/LOCK")
    else Store.dropOnStop (Store.openLocked p dir)) := rfl

section Handle

variable (p : Prost) (lossy : Path → String)

/-- The string a store is opened with; `lossy` is `to_string_lossy`. -/
def Database.storeDir (db : Database) (name : String) : String := lossy (joinPath db.root name)

/-- Where the files of a store are. -/
def Database.storePath (db : Database) (name : String) : Path := pathOf (db.storeDir lossy name)

/-- The call returns. -/
def Handle.done (x : Handle) (r : Except Error Unit) : Handle := { x with phase := .idle, result := r }

/-- The call fails, or ends the handle. -/
def Handle.failed (x : Handle) : Failure → Handle
  | .err e => x.done (.error e)
  | .panic | .crash => { x with phase := .dropping }

def Handle.createTable (x : Handle) (fs : Fs) (name : String) : Handle :=
  match validateName name with
  | .error e => x.done (.error e)
  | .ok () =>
    if fs.dirs.contains (joinPath x.db.root name) then x.done (.error (.tableExists name))
    else { x with phase := .createDirAll name }

def Handle.table (x : Handle) (name : String) : Handle :=
  match validateName name with
  | .error e => x.done (.error e)
  | .ok () =>
    if x.db.opened.contains name then x.done (.ok ()) else { x with phase := .createDirAll name }

def Handle.deleteTable (x : Handle) (fs : Fs) (name : String) : Handle :=
  match validateName name with
  | .error e => x.done (.error e)
  | .ok () =>
    if fs.dirs.contains (joinPath x.db.root name) then { x with phase := .remove name }
    else x.done (.error (.tableNotFound name))

def alreadyOpen (dir : String) : Error := .io s!"table is already open: {dir}/LOCK"

/-- Remove a store from the map and drop it, which releases its lock. -/
def Handle.close (x : Handle) (fs : Fs) (name : String) : Handle × Fs :=
  match x.db.opened[name]? with
  | some live =>
    ({ x with db := { x.db with opened := x.db.opened.erase name } }, fs.setLocked live.lock false)
  | none => (x, fs)

/-- Put a store into the map; one that is replaced is dropped. -/
def Handle.insert (x : Handle) (fs : Fs) (name : String) (live : OpenStore) : Handle × Fs :=
  let (x, fs) := x.close fs name
  ({ x with db := { x.db with opened := x.db.opened.insert name live } }, fs)

/-- Take the lock and load the table. The directory is there again if it was gone, since `Wal::with_path`
makes it. -/
def Handle.load (x : Handle) (fs : Fs) (name : String) (lock : Inode) (env : Env) (clock : ℕ) : Handle × Fs :=
  let dir := x.db.storeDir lossy name
  let path := x.db.storePath lossy name
  if fs.locked lock then (x.done (.error (alreadyOpen dir)), fs)
  else
    let fs := fs.createDirAll path
    match Store.openLocked p dir ⟨Store.fresh dir ⟨walName, false⟩, fs.disk path, env, clock⟩ with
    | .ok () y =>
      let (x, fs) := x.insert ((fs.putDisk path y.disk).setLocked lock true) name ⟨y.self, lock⟩
      (x.done (.ok ()), fs)
    | .error e y => (x.failed (.ofStop e), fs.putDisk path y.disk)

/-- A call on the handle of an open table. It reaches the files by path, so it says what the source does as
long as no other handle has removed the directory. -/
def Handle.access (x : Handle) (fs : Fs) (name : String) (c : Call) (env : Env) (clock : ℕ) : Handle × Fs :=
  let path := x.db.storePath lossy name
  match x.db.opened[name]? with
  | some live =>
    let keep (s : Store) : Handle :=
      { x with db := { x.db with opened := x.db.opened.insert name { live with store := s } } }
    match c.run p ⟨live.store, fs.disk path, env, clock⟩ with
    | .ok () y => ((keep y.self).done (.ok ()), fs.putDisk path y.disk)
    | .error e y => ((keep y.self).failed e, fs.putDisk path y.disk)
  | none => (x, fs)

def directoryNotEmpty : String := "Directory not empty (os error 39)"

/-- The end of `remove_dir_all`: the directory goes if it is empty. -/
def Handle.removeDir (x : Handle) (fs : Fs) (name : String) : Handle × Fs :=
  let path := joinPath x.db.root name
  match fs.dirs[path]? with
  | some dir =>
    if (fs.files dir).isEmpty then (x.done (.ok ()), { fs with dirs := fs.dirs.erase path })
    else (x.done (.error (.io directoryNotEmpty)), fs)
  | none => (x.done (.error (.io noSuchFile)), fs)

/-- One step of a handle; an action that does not fit its phase does nothing. -/
def Handle.step (x : Handle) (fs : Fs) (a : Action) : Handle × Fs :=
  match x.phase, a with
  | .idle, .createTable name => (x.createTable fs name, fs)
  | .idle, .table name => (x.table name, fs)
  | .idle, .deleteTable name => (x.deleteTable fs name, fs)
  | .idle, .drop => ({ x with phase := .dropping }, fs)
  | .idle, .access name c env clock => x.access p lossy fs name c env clock
  | .createDirAll name, .advance =>
    ({ x with phase := .openLock name }, fs.createDirAll (x.db.storePath lossy name))
  | .openLock name, .advance =>
    match fs.dirs[x.db.storePath lossy name]? with
    | some dir => ({ x with phase := .flock name ((fs.openLock dir).lock dir) }, fs.openLock dir)
    | none => (x.done (.error (.io noSuchFile)), fs)
  | .flock name lock, .load env clock => x.load p lossy fs name lock env clock
  | .remove name, .advance =>
    let (x, fs) := x.close fs name
    ({ x with phase := .removeDirAll name }, fs)
  | .removeDirAll name, .advance =>
    match fs.dirs[joinPath x.db.root name]? with
    | some dir => ({ x with phase := .unlink name dir }, fs)
    | none => (x.done (.error (.io noSuchFile)), fs)
  | .unlink _ dir, .unlink file => (x, fs.setFiles dir ((fs.files dir).erase file))
  | .unlink name _, .advance => x.removeDir fs name
  | .dropping, .close name => x.close fs name
  | .dropping, .advance => if x.db.opened.isEmpty then (x.done (.ok ()), fs) else (x, fs)
  | .createDirAll _, .fail msg => (x.done (.error (.io msg)), fs)
  | .openLock _, .fail msg => (x.done (.error (.io msg)), fs)
  | .flock name _, .fail _ => (x.done (.error (alreadyOpen (x.db.storeDir lossy name))), fs)
  | .removeDirAll _, .fail msg => (x.done (.error (.io msg)), fs)
  | .unlink _ _, .fail msg => (x.done (.error (.io msg)), fs)
  | _, _ => (x, fs)

end Handle

/-! ## Handles on one file system -/

/-- The handles of a file system; `H` names them. -/
structure World (H : Type) where
  fs : Fs
  handles : H → Handle

variable {H : Type} [DecidableEq H]

/-- All handles are on one root, and nothing is there yet. -/
def World.new (root : Path) : World H := ⟨Fs.empty, fun _ => Handle.new root⟩

/-- The handle `h` takes a step. -/
def World.step (p : Prost) (lossy : Path → String) (w : World H) (h : H) (a : Action) : World H :=
  let (x, fs) := (w.handles h).step p lossy w.fs a
  { fs, handles := Function.update w.handles h x }

/-- The handles take steps in this order. -/
def World.run (p : Prost) (lossy : Path → String) (w : World H) (steps : List (H × Action)) : World H :=
  steps.foldl (fun w e => w.step p lossy e.1 e.2) w

end FerrumDB
