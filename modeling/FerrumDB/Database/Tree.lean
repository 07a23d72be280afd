import FerrumDB.Database
import FerrumDB.Wire

/-!
# Databases in the tree of directories

`database.rs`, call by call: the system calls resolve paths from a working directory, directories are
made with those above them and removed with those below, and a listing is of the directories in the root.
Only directories and the files of tables are in the tree; there are no symbolic links. A call runs to its
end before the next one, and no system call fails that has no reason to in the tree. Every directory has a
number of its own, never used again, and a store that is dropped unlocks the directory it was opened in, not
one that has taken its place.
-/

namespace FerrumDB

/-! ## Paths -/

/-- A place in the tree: the names on the way to it, the last one first. -/
abbrev Place := List Bytes

/-- The components of a path. Empty ones and `.` lead nowhere. -/
def components (path : Path) : List Bytes := (path.splitOn 47).filter fun c => c ≠ [] ∧ c ≠ [46]

/-- Follow a component; `..` leads up. -/
def Place.enter (place : Place) (c : Bytes) : Place := if c = [46, 46] then place.tail else c :: place

/-- Where a path starts: at the top if it begins with a slash, else in the working directory. -/
def startOf (cwd : Place) (path : Path) : Place := if path.head? = some 47 then [] else cwd

/-- The places that the components lead through, from `place` on. -/
def wayFrom (place : Place) : List Bytes → List Place
  | [] => [place]
  | c :: cs => place :: wayFrom (place.enter c) cs

/-- The places on the way of a path, its own last. -/
def wayOf (cwd : Place) (path : Path) : List Place := wayFrom (startOf cwd path) (components path)

/-- The place a path leads to. -/
def placeOf (cwd : Place) (path : Path) : Place := (components path).foldl Place.enter (startOf cwd path)

/-- The second bytes that can follow the first byte of a sequence of three or four. -/
def allowsSecond (a b : UInt8) : Bool :=
  if a = 0xE0 then 0xA0 ≤ b ∧ b ≤ 0xBF
  else if a = 0xED then 0x80 ≤ b ∧ b ≤ 0x9F
  else if a = 0xF0 then 0x90 ≤ b ∧ b ≤ 0xBF
  else if a = 0xF4 then 0x80 ≤ b ∧ b ≤ 0x8F
  else 0x80 ≤ b ∧ b ≤ 0xBF

/-- The bytes at the front that one replacement character stands for, where no character begins: those of
a sequence as far as it is a valid one, and one byte at least. -/
def invalidLen : Bytes → ℕ
  | a :: b :: rest =>
    if 0xE0 ≤ a ∧ a ≤ 0xF4 ∧ allowsSecond a b then
      if 0xF0 ≤ a ∧ rest.head?.any fun c => 0x80 ≤ c ∧ c ≤ 0xBF then 3 else 2
    else 1
  | _ => 1

/-- The characters of the first `n` sequences, with replacements. -/
def lossyChars : ℕ → Bytes → List Char
  | 0, _ => []
  | _, [] => []
  | n + 1, bytes =>
    match bytes.toByteArray.utf8DecodeChar? 0 with
    | some c => c :: lossyChars n (bytes.drop c.utf8Size)
    | none => '\uFFFD' :: lossyChars n (bytes.drop (invalidLen bytes))

/-- `Path::to_string_lossy`. -/
def toStringLossy (path : Path) : String := String.ofList (lossyChars path.length path)

/-! ## Directories -/

/-- A directory: its number, its files and whether its `LOCK` is held. -/
structure Dir where
  id : Inode
  disk : Disk

structure Tree where
  dirs : Std.ExtTreeMap Place Dir
  next : Inode

def notADirectory : String := "Not a directory (os error 20)"
def fileExists : String := "File exists (os error 17)"
def nulByte : String := "file name contained an unexpected NUL byte"

/-- What a store finds at a place, nothing if there is no directory. -/
def Tree.diskAt (t : Tree) (place : Place) : Disk := (t.dirs[place]?.map Dir.disk).getD Disk.empty

abbrev Tree.dirAt (t : Tree) (place : Place) : Option Dir := t.dirs[place]?

/-- A file of the directory above has this place. -/
def Tree.isFile (t : Tree) : Place → Bool
  | [] => false
  | c :: up => (t.diskAt up).files.keys.any fun name => pathOf name = c

/-- `Path::is_dir`. -/
def Tree.isDir (t : Tree) (cwd : Place) (path : Path) : Bool :=
  path ≠ [] ∧ 0 ∉ path ∧ ∀ v ∈ wayOf cwd path, t.dirs.contains v

/-- `Path::exists`. -/
def Tree.pathExists (t : Tree) (cwd : Place) (path : Path) : Bool :=
  t.isDir cwd path ||
    (path ≠ [] ∧ 0 ∉ path ∧ (∀ v ∈ (wayOf cwd path).dropLast, t.dirs.contains v) ∧
      t.isFile (placeOf cwd path))

/-- A new directory, empty, unless there is one. -/
def Tree.make (t : Tree) (place : Place) : Tree :=
  if t.dirs.contains place then t
  else { dirs := t.dirs.insert place ⟨t.next, Disk.empty⟩, next := t.next + 1 }

/-- `std::fs::create_dir_all`: all directories on the way, up to one whose place a file has. That file is in
the way of `mkdir` or of a path through it. -/
def Tree.createDirAll (t : Tree) (cwd : Place) (path : Path) : Except String Unit × Tree :=
  if path = [] then (.ok (), t)
  else if 0 ∈ path then (.error nulByte, t)
  else if !t.dirs.contains (startOf cwd path) then (.error noSuchFile, t)
  else
    let free := fun v => t.dirs.contains v || !t.isFile v
    let pre := (wayOf cwd path).takeWhile free
    match (wayOf cwd path).dropWhile free with
    | [] => (.ok (), pre.foldl Tree.make t)
    | _ :: post =>
      let msg := if post = [] ∨ pre.any fun v => !t.dirs.contains v then fileExists else notADirectory
      (.error msg, pre.foldl Tree.make t)

/-- `std::fs::remove_dir_all` of a path that exists. -/
def Tree.removeDirAll (t : Tree) (cwd : Place) (path : Path) : Except String Tree :=
  if t.isDir cwd path then .ok { t with dirs := t.dirs.filter fun v _ => !(placeOf cwd path).isSuffixOf v }
  else .error notADirectory

/-- `std::fs::read_dir`, its directories. -/
def Tree.subdirs (t : Tree) (cwd : Place) (path : Path) : Except String (List Bytes) :=
  if 0 ∈ path then .error nulByte
  else if t.isDir cwd path then
    .ok (t.dirs.keys.filterMap fun
      | [] => none
      | c :: up => if up = placeOf cwd path then some c else none)
  else .error noSuchFile

/-- What a store leaves at a place; a directory that was gone is there again if files are. -/
def Tree.putDisk (t : Tree) (place : Place) (d : Disk) : Tree :=
  match t.dirs[place]? with
  | some dir => { t with dirs := t.dirs.insert place { dir with disk := d } }
  | none =>
    if d.files.isEmpty then t else { dirs := t.dirs.insert place ⟨t.next, d⟩, next := t.next + 1 }

/-- The store that locked the directory `id` is dropped. -/
def Tree.unlock (t : Tree) (place : Place) (id : Inode) : Tree :=
  match t.dirs[place]? with
  | some dir =>
    if dir.id = id then
      { t with dirs := t.dirs.insert place { dir with disk := { dir.disk with locked := false } } }
    else t
  | none => t

/-! ## Databases -/

/-- A database and the tree it is in. -/
structure DbMem where
  db : Database
  tree : Tree

section Database

variable (p : Prost) (lossy : Path → String) (cwd : Place)

/-- `Database::open`. -/
def Database.open (root : Path) (t : Tree) : Except Error Database × Tree :=
  match t.createDirAll cwd root with
  | (.error msg, tree) => (.error (.io msg), tree)
  | (.ok (), tree) => (.ok ⟨root, ∅⟩, tree)

/-- Where the files of a table are. -/
def Database.tablePlace (db : Database) (name : String) : Place := placeOf cwd (db.storePath lossy name)

/-- Remove a store from the map and drop it. -/
def DbMem.close (x : DbMem) (name : String) : DbMem :=
  match x.db.opened[name]? with
  | some live =>
    { db := { x.db with opened := x.db.opened.erase name }
      tree := x.tree.unlock (x.db.tablePlace lossy cwd name) live.lock }
  | none => x

/-- Put a store into the map; one that is replaced is dropped. -/
def DbMem.insert (x : DbMem) (name : String) (store : Store) : DbMem :=
  let id := (x.tree.dirs[x.db.tablePlace lossy cwd name]?.map Dir.id).getD 0
  let x := x.close lossy cwd name
  { x with db := { x.db with opened := x.db.opened.insert name ⟨store, id⟩ } }

/-- `Store::open_with_dir`, with `d` in the directory. -/
def openedIn (dir : String) (d : Disk) : EStateM.Result Stop (Mem Store) Unit :=
  Store.openWithDir p dir ⟨Store.fresh dir ⟨walName, false⟩, d, Env.quiet, 0⟩

def DbMem.openStore (x : DbMem) (name : String) : Except Failure Unit × DbMem :=
  let dir := x.db.storeDir lossy name
  let place := x.db.tablePlace lossy cwd name
  match x.tree.createDirAll cwd (x.db.storePath lossy name) with
  | (.error msg, tree) => (.error (.err (.io msg)), { x with tree })
  | (.ok (), tree) =>
    match openedIn p dir (tree.diskAt place) with
    | .ok () y => (.ok (), DbMem.insert lossy cwd { x with tree := tree.putDisk place y.disk } name y.self)
    | .error e y => (.error (.ofStop e), { x with tree := tree.putDisk place y.disk })

def DbMem.createTable (x : DbMem) (name : String) : Except Failure Unit × DbMem :=
  match validateName name with
  | .error e => (.error (.err e), x)
  | .ok () =>
    if x.tree.pathExists cwd (joinPath x.db.root name) then (.error (.err (.tableExists name)), x)
    else x.openStore p lossy cwd name

def DbMem.table (x : DbMem) (name : String) : Except Failure Unit × DbMem :=
  match validateName name with
  | .error e => (.error (.err e), x)
  | .ok () => if x.db.opened.contains name then (.ok (), x) else x.openStore p lossy cwd name

def DbMem.deleteTable (x : DbMem) (name : String) : Except Failure Unit × DbMem :=
  match validateName name with
  | .error e => (.error (.err e), x)
  | .ok () =>
    if x.tree.pathExists cwd (joinPath x.db.root name) then
      let x := x.close lossy cwd name
      match x.tree.removeDirAll cwd (joinPath x.db.root name) with
      | .error msg => (.error (.err (.io msg)), x)
      | .ok tree => (.ok (), { x with tree })
    else (.error (.err (.tableNotFound name)), x)

/-- The names of all tables, sorted. A name that is not UTF-8 is left out. -/
def DbMem.listTables (x : DbMem) : Except Failure (List String) :=
  match x.tree.subdirs cwd x.db.root with
  | .error msg => .error (.err (.io msg))
  | .ok names => .ok ((names.filterMap ofUtf8Bytes).insertionSort (· ≤ ·))

/-- A method on the handle of an open table. -/
def DbMem.access {α : Type} (x : DbMem) (name : String) (m : Api α) : Option (Except Failure α × DbMem) :=
  let place := x.db.tablePlace lossy cwd name
  x.db.opened[name]?.map fun live =>
    let leave (y : Mem Store) : DbMem :=
      { db := { x.db with opened := x.db.opened.insert name { live with store := y.self } }
        tree := x.tree.putDisk place { y.disk with locked := (x.tree.diskAt place).locked } }
    match m ⟨live.store, x.tree.diskAt place, Env.quiet, 0⟩ with
    | .ok r y => (.ok r, leave y)
    | .error e y => (.error e, leave y)

/-- The database is dropped, and with it its stores. -/
def DbMem.drop (x : DbMem) : Tree :=
  x.db.opened.toList.foldl (fun t e => t.unlock (x.db.tablePlace lossy cwd e.1) e.2.lock) x.tree

/-! ## Calls -/

/-- A call on a database, or a call on the handle of a table that it has open. -/
inductive DbCall where
  | createTable (name : String)
  | table (name : String)
  | access (name : String) (c : Call)
  | deleteTable (name : String)
  | listTables

/-- The table a call is about. -/
def DbCall.name : DbCall → Option String
  | .createTable name | .table name | .access name _ | .deleteTable name => some name
  | .listTables => none

def DbCall.run (x : DbMem) : DbCall → Except Failure Unit × DbMem
  | .createTable name => x.createTable p lossy cwd name
  | .table name => x.table p lossy cwd name
  | .access name c => (x.access lossy cwd name (c.run p)).getD (.ok (), x)
  | .deleteTable name => x.deleteTable lossy cwd name
  | .listTables => ((x.listTables cwd).map fun _ => (), x)

/-- The tree, and the databases that are open in it, at most one for a root. -/
structure Host where
  tree : Tree
  dbs : Path → Option Database

def Host.keep (w : Host) (root : Path) (x : DbMem) : Host :=
  { tree := x.tree, dbs := Function.update w.dbs root (some x.db) }

inductive HostOp where
  | open (root : Path)
  | drop (root : Path)
  | call (root : Path) (c : DbCall)

def HostOp.root : HostOp → Path
  | .open root => root
  | .drop root => root
  | .call root _ => root

/-- What an operation returns and leaves. A root that is open is not opened again before it is dropped, and
what is not open is not dropped or called. -/
def Host.step (w : Host) : HostOp → Option (Except Failure Unit × Host)
  | .open root =>
    match w.dbs root with
    | some _ => none
    | none =>
      match Database.open cwd root w.tree with
      | (.error e, tree) => some (.error (.err e), { w with tree })
      | (.ok db, tree) => some (.ok (), w.keep root ⟨db, tree⟩)
  | .drop root => (w.dbs root).map fun db =>
    (.ok (), { tree := DbMem.drop lossy cwd ⟨db, w.tree⟩, dbs := Function.update w.dbs root none })
  | .call root c => (w.dbs root).map fun db =>
    let r := c.run p lossy cwd ⟨db, w.tree⟩
    (r.1, w.keep root r.2)

/-- What a method on the handle of a table returns; the table is opened for it if it is not open. -/
def Host.read {α : Type} (w : Host) (root : Path) (name : String) (m : Api α) : Option (Except Failure α) :=
  (w.dbs root).bind fun db =>
    match DbMem.table p lossy cwd ⟨db, w.tree⟩ name with
    | (.error e, _) => some (.error e)
    | (.ok (), x) => (x.access lossy cwd name m).map Prod.fst

end Database

end FerrumDB
