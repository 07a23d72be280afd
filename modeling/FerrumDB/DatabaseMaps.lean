import FerrumDB.ByteMaps
import FerrumDB.TableNames

/-!
# A database is a map of sorted maps

A table whose directory is there holds a byte map: in its files while it is closed, in its store once it is
open. Opening and dropping keep what it holds, `delete_table` takes it away, and a call that fits does to it
what it does to a sorted map, whatever is done to other tables and other roots in between
(`Host.DataRun.holds`). So every read, on a handle or after opening the table for it, replies what the map
of its name does (`database_is_map_of_maps`).
-/

namespace FerrumDB

variable {p : Prost} {lossy : Path → String} {cwd v : Place} {R : Set Path} {t₀ t : Tree} {root : Path}
  {name : String} {names : Path → Set String} {w w' : Host} {db : Database} {live : OpenStore} {m : ByteMap}
  {s : Store} {d : Disk} {L : Layers} {α β : Type}

/-! ## What a table holds -/

/-- The files of a closed table hold the map. -/
def Dir.Holds (p : Prost) (m : ByteMap) (dir : Dir) : Prop :=
  dir.disk.locked = false ∧ ∃ L, Stored p dir.disk L [] [] ∧ L.get = m.read

/-- The store of an open table holds the map, and the lock of its directory. -/
def OpenStore.Holds (p : Prost) (m : ByteMap) (dir : Dir) (live : OpenStore) : Prop :=
  dir.id = live.lock ∧ ∃ L, Table.Holds p L m live.store dir.disk

/-- A table holds the map: with its directory, if there is one, and its store, if it is open. -/
def TableHolds (p : Prost) (m : ByteMap) : Option Dir → Option OpenStore → Prop
  | none, none => m = ∅
  | none, some _ => False
  | some dir, none => dir.Holds p m
  | some dir, some live => live.Holds p m dir

/-- The store of a table, if it is open. -/
def Host.liveAt (w : Host) (root : Path) (name : String) : Option OpenStore :=
  (w.dbs root).bind fun db => db.opened[name]?

def Host.Holds (p : Prost) (cwd : Place) (w : Host) (root : Path) (name : String) (m : ByteMap) : Prop :=
  TableHolds p m (w.tree.dirAt (tableAt cwd root name)) (w.liveAt root name)

theorem tableAt_injective {name' : String} (h : tableAt cwd root name = tableAt cwd root name') : name = name' := by
  have hsuf : tableAt cwd root name <:+ tableAt cwd root name := List.suffix_refl _
  nth_rewrite 2 [h] at hsuf
  exact name_of_suffix hsuf

theorem liveAt_of_dbs (h : w.dbs root = some db) : w.liveAt root name = db.opened[name]? := by
  unfold Host.liveAt
  rw [h]
  rfl

theorem Host.Unchanged.liveAt_eq (h : w.Unchanged cwd w' root name) : w'.liveAt root name = w.liveAt root name := by
  unfold Host.liveAt
  cases hdb : w.dbs root with
  | none => rw [h.dropped hdb]
  | some db =>
    obtain ⟨db', hdb', hopened⟩ := h.live db hdb
    rw [hdb']
    exact hopened

/-- Where nothing has changed the table holds what it held. -/
theorem Host.Holds.of_eq (hm : w.Holds p cwd root name m)
    (hdirs : w'.tree.dirs[tableAt cwd root name]? = w.tree.dirs[tableAt cwd root name]?)
    (hlive : w'.liveAt root name = w.liveAt root name) : w'.Holds p cwd root name m := by
  unfold Host.Holds Tree.dirAt
  rw [hdirs, hlive]
  exact hm

/-- A closed table opens, and its store holds what its files did. -/
theorem openedIn_holds (hp : p.Lawful) (dir : String) {slot : Option Dir} (h : TableHolds p m slot none) :
    ∃ y, openedIn p dir ((slot.map Dir.disk).getD Disk.empty) = .ok () y ∧
      ∃ L, Table.Holds p L m y.self y.disk := by
  cases slot with
  | none =>
    obtain ⟨y, hopen, hagrees⟩ := openedIn_empty hp dir
    refine ⟨y, hopen, _, hagrees, ?_⟩
    rw [show m = ∅ from h, get_reopen, get_empty, read_empty]
  | some dir' =>
    obtain ⟨hfree, L, hstored, hread⟩ := h
    have hopen : Returns (Store.openWithDir p dir) (Store.fresh dir ⟨walName, false⟩) dir'.disk
        fun _ s d => Agrees p s d L.reopen [] [] := does_openWithDir hp hstored hfree fun _ _ h => h
    obtain ⟨_, y, hrun, hagrees⟩ := hopen.run 0
    exact ⟨y, hrun, _, hagrees, hread⟩

/-! ## Opening a table -/

theorem dirs_make_self : ∃ dir, (t.make v).dirs[v]? = some dir :=
  Option.isSome_iff_exists.1 (Std.ExtTreeMap.mem_iff_isSome_getElem?.1 (mem_make.2 (Or.inl rfl)))

theorem dirs_putDisk_self {dir : Dir} (h : t.dirs[v]? = some dir) :
    (t.putDisk v d).dirs[v]? = some { dir with disk := d } := by
  unfold Tree.putDisk
  rw [h]
  dsimp only
  rw [getElem?_insert_place, if_pos rfl]

variable (lossy cwd) in
/-- A store that replaces none has the number of its directory. -/
theorem insert_closed (x : DbMem) (hclosed : x.db.opened[name]? = none) {dir : Dir}
    (hdir : x.tree.dirs[x.db.tablePlace lossy cwd name]? = some dir) :
    x.insert lossy cwd name s =
      ⟨{ x.db with opened := x.db.opened.insert name ⟨s, dir.id⟩ }, x.tree⟩ := by
  unfold DbMem.insert DbMem.close
  rw [hclosed, hdir]
  rfl

section Calls

variable (hlossy : ∀ s, lossy (pathOf s) = s) (hp : p.Lawful) (hR : Apart cwd t₀ R) (hw : w.Named cwd t₀ R names)
  (hdb : w.dbs root = some db)

include hlossy hR hw hdb

/-- **A closed table opens**, and holds what it held. -/
theorem Host.Named.openStore_holds (hp : p.Lawful) (hname : validateName name = .ok ()) (hnul : 0 ∉ pathOf name)
    (hclosed : db.opened[name]? = none) (hm : w.Holds p cwd root name m) : ∃ x live,
      DbMem.openStore p lossy cwd ⟨db, w.tree⟩ name = (.ok (), x) ∧ x.db.opened[name]? = some live ∧
        (w.keep root x).Holds p cwd root name m := by
  unfold Host.Holds Tree.dirAt at hm
  rw [liveAt_of_dbs hdb, hclosed] at hm
  obtain ⟨y, hopen, L, hL⟩ := openedIn_holds hp (db.storeDir lossy name) hm
  obtain ⟨hplace, hmake⟩ := hw.createDirAll hlossy hR hdb hname hnul
  obtain ⟨dir, hdir⟩ := dirs_make_self (t := w.tree) (v := tableAt cwd root name)
  have hput := dirs_putDisk_self (d := y.disk) hdir
  have hinsert := insert_closed (s := y.self) lossy cwd
    ⟨db, (w.tree.make (tableAt cwd root name)).putDisk (tableAt cwd root name) y.disk⟩ hclosed
    (by rw [hplace]; exact hput)
  have hrun : DbMem.openStore p lossy cwd ⟨db, w.tree⟩ name =
      (.ok (), ⟨{ db with opened := db.opened.insert name ⟨y.self, dir.id⟩ },
        (w.tree.make (tableAt cwd root name)).putDisk (tableAt cwd root name) y.disk⟩) := by
    unfold DbMem.openStore
    dsimp only
    rw [hmake, hplace]
    dsimp only
    rw [diskAt_make]
    unfold Tree.diskAt
    rw [hopen]
    dsimp only
    rw [hinsert]
  have hlive : (db.opened.insert name ⟨y.self, dir.id⟩)[name]? = some ⟨y.self, dir.id⟩ := by
    rw [getElem?_insert_name, if_pos rfl]
  refine ⟨_, ⟨y.self, dir.id⟩, hrun, hlive, ?_⟩
  unfold Host.Holds Tree.dirAt
  rw [liveAt_of_dbs dbs_keep_self]
  dsimp only [Host.keep]
  rw [hput, hlive]
  exact ⟨rfl, L, hL⟩

/-! ## Calls on an open table -/

omit hlossy hR hw hdb in
theorem access_discard (x : DbMem) (c : Api α) : x.access lossy cwd name (discard c) =
    (x.access lossy cwd name c).map fun e => (e.1.map fun _ => (), e.2) := by
  unfold DbMem.access
  dsimp only
  rw [Option.map_map]
  congr 1
  funext live
  dsimp only [Function.comp_apply]
  cases hc : c ⟨live.store, x.tree.diskAt (x.db.tablePlace lossy cwd name), Env.quiet, 0⟩ with
  | ok r y => rw [discard_ok hc]; rfl
  | error e y => rw [discard_error hc]; rfl

omit hlossy hR hw hdb in
/-- An open table has a directory. -/
theorem Host.Holds.dir_of_live (hm : w.Holds p cwd root name m) (hlive : w.liveAt root name = some live) :
    ∃ dir, w.tree.dirs[tableAt cwd root name]? = some dir ∧ live.Holds p m dir := by
  unfold Host.Holds Tree.dirAt at hm
  rw [hlive] at hm
  cases hdir : w.tree.dirs[tableAt cwd root name]? with
  | none => rw [hdir] at hm; exact hm.elim
  | some dir => rw [hdir] at hm; exact ⟨dir, rfl, hm⟩

/-- **A call on an open table** replies what its map does, and leaves a table that holds the next map. -/
theorem Host.Named.access_holds (hp : p.Lawful) (hlive : w.liveAt root name = some live)
    (hm : w.Holds p cwd root name m) (c : Call)
    (hfits : c.FitsStore p live.store (w.tree.diskAt (tableAt cwd root name))) : ∃ x,
      DbMem.access lossy cwd ⟨db, w.tree⟩ name (c.reply p) = some (.ok (c.answer m), x) ∧
        (w.keep root x).Holds p cwd root name (c.onMap m) := by
  have hopened : db.opened[name]? = some live := (liveAt_of_dbs hdb).symm.trans hlive
  obtain ⟨-, hname, hnul⟩ := hw.valid root name (hw.opened root db name live hdb hopened)
  have hplace := (hw.createDirAll hlossy hR hdb hname hnul).1
  obtain ⟨dir, hdir, hid, L, hagrees, hread⟩ := hm.dir_of_live hlive
  have hdisk : w.tree.diskAt (tableAt cwd root name) = dir.disk := by
    unfold Tree.diskAt
    rw [hdir]
    rfl
  rw [hdisk] at hfits
  obtain ⟨r, y, hrun, -, rfl, hholds⟩ := (c.answers hp ⟨hagrees, hread⟩ (hfits L hagrees)).run 0
  -- the lock is as it was
  have hlocked : { y.disk with locked := dir.disk.locked } = y.disk := by
    rw [hagrees.locked, ← hholds.1.locked]
  refine ⟨⟨{ db with opened := db.opened.insert name { live with store := y.self } },
    w.tree.putDisk (tableAt cwd root name) y.disk⟩, ?_, ?_⟩
  · unfold DbMem.access
    dsimp only
    rw [hplace, hopened, Option.map_some, hdisk, hrun]
    dsimp only
    rw [hlocked]
  · unfold Host.Holds Tree.dirAt
    rw [liveAt_of_dbs dbs_keep_self]
    dsimp only [Host.keep]
    rw [dirs_putDisk_self hdir, getElem?_insert_name, if_pos rfl]
    exact ⟨hid, _, hholds⟩

/-! ## Deleting and dropping -/

omit hlossy hR hdb in
/-- A table that is not named holds nothing. -/
theorem Host.Named.holds_absent (hroot : root ∈ R) (hno : name ∉ names root) : w.Holds p cwd root name ∅ := by
  have hdir : w.tree.dirs[tableAt cwd root name]? = none :=
    Std.ExtTreeMap.getElem?_eq_none (mt (hw.mem_dirs hroot).1 hno)
  have hlive : w.liveAt root name = none := by
    cases hopen : w.dbs root with
    | none => unfold Host.liveAt; rw [hopen]; rfl
    | some db =>
      rw [liveAt_of_dbs hopen]
      exact Option.eq_none_iff_forall_ne_some.2 fun live hlive => hno (hw.opened root db name live hopen hlive)
  unfold Host.Holds Tree.dirAt
  rw [hdir, hlive]
  rfl

omit hlossy hR hw hdb in
/-- Every store unlocks its own directory. -/
theorem foldl_unlock_self (place : String × OpenStore → Place) {l : List (String × OpenStore)}
    (hl : l.Pairwise fun e e' => place e ≠ place e') {e : String × OpenStore} (he : e ∈ l) {dir : Dir}
    (hdir : t.dirs[place e]? = some dir) (hid : dir.id = e.2.lock) :
    (l.foldl (fun t e => t.unlock (place e) e.2.lock) t).dirs[place e]? =
      some { dir with disk := { dir.disk with locked := false } } := by
  induction l generalizing t with
  | nil => cases he
  | cons e' l ih =>
    obtain ⟨hne, hl⟩ := List.pairwise_cons.1 hl
    rw [List.foldl_cons]
    rcases List.mem_cons.1 he with rfl | he
    · rw [(foldl_unlock place l).2.2 fun e' he' => hne e' he']
      unfold Tree.unlock
      rw [hdir]
      dsimp only
      rw [if_pos hid, getElem?_insert_place, if_pos rfl]
    · exact ih hl he (by rwa [dirs_unlock_of_ne (hne e he).symm])

/-- **A dropped table** holds what it held. -/
theorem Host.Named.drop_holds (hm : w.Holds p cwd root name m) :
    Host.Holds p cwd ⟨DbMem.drop lossy cwd ⟨db, w.tree⟩, Function.update w.dbs root none⟩ root name m := by
  have hplace : ∀ e ∈ db.opened.toList, db.tablePlace lossy cwd e.1 = tableAt cwd root e.1 := by
    intro e he
    have hopened := Std.ExtTreeMap.mem_toList_iff_getElem?_eq_some.1 he
    obtain ⟨-, hname, hnul⟩ := hw.valid root e.1 (hw.opened root db e.1 e.2 hdb hopened)
    exact (hw.createDirAll hlossy hR hdb hname hnul).1
  have hdistinct : db.opened.toList.Pairwise fun e e' =>
      db.tablePlace lossy cwd e.1 ≠ db.tablePlace lossy cwd e'.1 := by
    refine db.opened.distinct_keys_toList.imp_of_mem fun {e e'} he he' hne heq => ?_
    rw [hplace e he, hplace e' he'] at heq
    exact hne (Std.compare_eq_iff_eq.2 (tableAt_injective heq))
  have hnone : Host.liveAt ⟨DbMem.drop lossy cwd ⟨db, w.tree⟩, Function.update w.dbs root none⟩ root name = none := by
    unfold Host.liveAt
    dsimp only
    rw [Function.update_self]
    rfl
  unfold Host.Holds Tree.dirAt DbMem.drop
  unfold DbMem.drop at hnone
  rw [hnone]
  cases hlive : db.opened[name]? with
  | none =>
    -- no store of the database is in its directory
    rw [(foldl_unlock (fun e => db.tablePlace lossy cwd e.1) db.opened.toList).2.2 fun e he heq => ?_]
    · unfold Host.Holds Tree.dirAt at hm
      rwa [liveAt_of_dbs hdb, hlive] at hm
    · rw [hplace e he] at heq
      obtain rfl := tableAt_injective heq
      rw [Std.ExtTreeMap.mem_toList_iff_getElem?_eq_some.1 he] at hlive
      cases hlive
  | some live =>
    obtain ⟨dir, hdir, hid, L, hagrees, hread⟩ := hm.dir_of_live ((liveAt_of_dbs hdb).trans hlive)
    have hmem := Std.ExtTreeMap.mem_toList_iff_getElem?_eq_some.2 hlive
    rw [← hplace _ hmem, foldl_unlock_self (fun e => db.tablePlace lossy cwd e.1) hdistinct hmem
      (by rwa [hplace _ hmem]) hid]
    exact ⟨rfl, L, hagrees.dropped, hread⟩

/-! ## One call -/

theorem Host.Named.openStore_keeps (hp : p.Lawful) (hname : validateName name = .ok ())
    (hclosed : db.opened[name]? = none) (hm : w.Holds p cwd root name m) :
    (w.keep root (DbMem.openStore p lossy cwd ⟨db, w.tree⟩ name).2).Holds p cwd root name m := by
  by_cases hnul : 0 ∈ pathOf name
  · rw [hw.openStore_nul hlossy hR hdb hname hnul, keep_self hdb]
    exact hm
  · obtain ⟨x, live, hopen, -, hx⟩ := hw.openStore_holds hlossy hR hdb hp hname hnul hclosed hm
    rw [hopen]
    exact hx

theorem Host.Named.table_keeps (hp : p.Lawful) (hm : w.Holds p cwd root name m) :
    (w.keep root (DbMem.table p lossy cwd ⟨db, w.tree⟩ name).2).Holds p cwd root name m := by
  unfold DbMem.table
  split
  · rwa [keep_self hdb]
  next hname =>
  dsimp only
  rw [contains_opened]
  cases hlive : db.opened[name]? with
  | some live => rwa [Option.isSome_some, if_pos rfl, keep_self hdb]
  | none =>
    rw [Option.isSome_none, if_neg Bool.false_ne_true]
    exact hw.openStore_keeps hlossy hR hdb hp hname hlive hm

theorem Host.Named.createTable_keeps (hp : p.Lawful) (hm : w.Holds p cwd root name m) :
    (w.keep root (DbMem.createTable p lossy cwd ⟨db, w.tree⟩ name).2).Holds p cwd root name m := by
  unfold DbMem.createTable
  split
  · rwa [keep_self hdb]
  next hname =>
  dsimp only
  split_ifs with hexists
  · rwa [keep_self hdb]
  · have hclosed := (hw.absent hdb (mt (hw.exists_iff hR hdb hname).2 hexists)).2
    exact hw.openStore_keeps hlossy hR hdb hp hname hclosed hm

/-- What the tables of a root hold once a call on it has returned. -/
def DbCall.onMaps (c : DbCall) (r : Except Failure Unit) (maps : String → ByteMap) : String → ByteMap :=
  match c, r with
  | .access name c, .ok () => Function.update maps name (c.onMap (maps name))
  | .deleteTable name, .ok () => Function.update maps name ∅
  | _, _ => maps

/-- A call on a handle is on a table that is open, and fits it. -/
def DbCall.Fits (p : Prost) (cwd : Place) (w : Host) (root : Path) : DbCall → Prop
  | .access name c => ∃ live, w.liveAt root name = some live ∧
      c.FitsStore p live.store (w.tree.diskAt (tableAt cwd root name))
  | _ => True

/-- **Step.** A call does to the table it names what it does to the map. -/
theorem Host.Named.call_holds (hp : p.Lawful) (c : DbCall) (hc : c.name = some name)
    (hfits : c.Fits p cwd w root) {maps : String → ByteMap} (hm : w.Holds p cwd root name (maps name)) :
    (w.keep root (c.run p lossy cwd ⟨db, w.tree⟩).2).Holds p cwd root name
      (c.onMaps (c.run p lossy cwd ⟨db, w.tree⟩).1 maps name) := by
  cases c with
  | createTable n =>
    cases hc
    exact hw.createTable_keeps hlossy hR hdb hp hm
  | table n =>
    cases hc
    exact hw.table_keeps hlossy hR hdb hp hm
  | access n c =>
    cases hc
    obtain ⟨live, hlive, hfits⟩ := hfits
    obtain ⟨x, haccess, hx⟩ := hw.access_holds hlossy hR hdb hp hlive hm c hfits
    have hrun : DbCall.run p lossy cwd ⟨db, w.tree⟩ (.access name c) = (.ok (), x) := by
      unfold DbCall.run
      dsimp only
      rw [run_eq_discard, access_discard, haccess]
      rfl
    rw [hrun]
    unfold DbCall.onMaps
    dsimp only
    rw [Function.update_self]
    exact hx
  | deleteTable n =>
    cases hc
    by_cases hmem : name ∈ names root
    · obtain ⟨x, hdelete, hcall⟩ := hw.callNamed_deleteTable hlossy hR hdb hmem
      have hrun : DbCall.run p lossy cwd ⟨db, w.tree⟩ (.deleteTable name) = (.ok (), x) := hdelete
      rw [hrun]
      unfold DbCall.onMaps
      dsimp only
      rw [Function.update_self]
      refine hcall.named.holds_absent (hw.root root db hdb).1 ?_
      rw [Function.update_self]
      exact fun h => h.2 rfl
    · have hrun : ∃ e, DbCall.run p lossy cwd ⟨db, w.tree⟩ (.deleteTable name) = (.error e, ⟨db, w.tree⟩) := by
        unfold DbCall.run DbMem.deleteTable
        dsimp only
        split
        · exact ⟨_, rfl⟩
        next hname =>
        rw [if_neg (mt (hw.exists_iff hR hdb hname).1 hmem)]
        exact ⟨_, rfl⟩
      obtain ⟨e, hrun⟩ := hrun
      rw [hrun, keep_self hdb]
      exact hm
  | listTables => cases hc

end Calls

/-! ## Runs -/

/-- What all tables hold once an operation has returned. -/
def HostOp.onMaps (op : HostOp) (r : Except Failure Unit) (maps : Path → String → ByteMap) :
    Path → String → ByteMap :=
  match op with
  | .call root c => Function.update maps root (c.onMaps r (maps root))
  | _ => maps

def HostOp.Fits (p : Prost) (cwd : Place) (w : Host) : HostOp → Prop
  | .call root c => c.Fits p cwd w root
  | _ => True

/-- The states of runs of operations that fit on the roots `R`, and what the tables hold. -/
inductive Host.DataRun (p : Prost) (lossy : Path → String) (cwd : Place) (t₀ : Tree) (R : Set Path) :
    Host → (Path → String → ByteMap) → Prop
  | start : Host.DataRun p lossy cwd t₀ R ⟨t₀, fun _ => none⟩ fun _ _ => ∅
  | step {w w' : Host} {maps : Path → String → ByteMap} {op : HostOp} {r : Except Failure Unit}
      (before : Host.DataRun p lossy cwd t₀ R w maps) (mem : op.root ∈ R) (fits : op.Fits p cwd w)
      (run : w.step p lossy cwd op = some (r, w')) : Host.DataRun p lossy cwd t₀ R w' (op.onMaps r maps)

/-- An operation does nothing to the tables it is not about. -/
theorem onMaps_of_not_touches {op : HostOp} {maps : Path → String → ByteMap} (h : ¬ op.Touches root name)
    (r : Except Failure Unit) : op.onMaps r maps root name = maps root name := by
  cases op with
  | «open» r₀ => rfl
  | drop r₀ => rfl
  | call r₀ c =>
    unfold HostOp.onMaps
    dsimp only
    by_cases hroot : root = r₀
    · subst hroot
      have hne : ∀ n, c.name = some n → name ≠ n := fun n hn heq => h ⟨rfl, heq ▸ hn⟩
      rw [Function.update_self]
      unfold DbCall.onMaps
      split
      · exact Function.update_of_ne (hne _ rfl) ..
      · exact Function.update_of_ne (hne _ rfl) ..
      · rfl
    · rw [Function.update_of_ne hroot]

section Run

variable (hlossy : ∀ s, lossy (pathOf s) = s) (hp : p.Lawful) (hR : Apart cwd t₀ R) {maps : Path → String → ByteMap}

include hlossy hp hR

/-- **Step.** An operation does to the tables what it does to the maps. -/
theorem Host.Named.step_holds (hw : w.Named cwd t₀ R names) {op : HostOp} {r : Except Failure Unit}
    (hmem : op.root ∈ R) (hfits : op.Fits p cwd w) (hstep : w.step p lossy cwd op = some (r, w'))
    (hm : ∀ root ∈ R, ∀ name, w.Holds p cwd root name (maps root name)) (root : Path) (hroot : root ∈ R)
    (name : String) : w'.Holds p cwd root name (op.onMaps r maps root name) := by
  by_cases htouch : op.Touches root name
  · cases op with
    | «open» r₀ =>
      obtain rfl : r₀ = root := htouch
      unfold Host.step at hstep
      dsimp only at hstep
      split at hstep
      · cases hstep
      next hnone =>
      have hclosed : w.liveAt r₀ name = none := by
        unfold Host.liveAt
        rw [hnone]
        rfl
      split at hstep
      · next e tree hopen =>
        cases hstep
        exact (hm r₀ hroot name).of_eq ((hw.opening hR hmem hopen).2.2 r₀ hroot name) rfl
      · next db tree hopen =>
        cases hstep
        refine (hm r₀ hroot name).of_eq ((hw.opening hR hmem hopen).2.2 r₀ hroot name) ?_
        rw [hclosed, liveAt_of_dbs dbs_keep_self]
        obtain rfl : db = ⟨r₀, ∅⟩ := by
          unfold Database.open at hopen
          split at hopen
          · cases hopen
          · cases hopen; rfl
        exact Std.ExtTreeMap.getElem?_empty
    | drop r₀ =>
      obtain rfl : r₀ = root := htouch
      obtain ⟨db, hdb, hx⟩ := Option.map_eq_some_iff.1 hstep
      cases hx
      exact hw.drop_holds hlossy hR hdb (hm r₀ hroot name)
    | call r₀ c =>
      obtain ⟨rfl, hc⟩ := htouch
      obtain ⟨db, hdb, hx⟩ := Option.map_eq_some_iff.1 hstep
      cases hx
      unfold HostOp.onMaps
      dsimp only
      rw [Function.update_self]
      exact hw.call_holds hlossy hR hdb hp c hc hfits (hm r₀ hroot name)
  · have hsame := (hw.step hlossy hp hR hmem hstep).2 root hroot name htouch
    rw [onMaps_of_not_touches htouch]
    exact (hm root hroot name).of_eq hsame.dirs hsame.liveAt_eq

/-- **Run.** In every state of a run the tables hold the maps. -/
theorem Host.DataRun.holds (h : Host.DataRun p lossy cwd t₀ R w maps) :
    (∃ names, w.Named cwd t₀ R names) ∧ ∀ root ∈ R, ∀ name, w.Holds p cwd root name (maps root name) := by
  induction h with
  | start => exact ⟨⟨_, .start hR⟩, fun root hroot name => (Named.start hR).holds_absent hroot (by exact id)⟩
  | step _ hmem hfits hstep ih =>
    obtain ⟨⟨names, hw⟩, hm⟩ := ih
    exact ⟨⟨_, (hw.step hlossy hp hR hmem hstep).1⟩, hw.step_holds hlossy hp hR hmem hfits hstep hm⟩

end Run

/-! ## The map of maps -/

/-- Databases are maps of names to sorted maps: tables open, a call that reads replies what the map of the
table does, whether the table was open or is opened for it, and a call that fits an open table returns with
what the map replies. -/
structure Host.ReadsAs (p : Prost) (lossy : Path → String) (cwd : Place) (w : Host)
    (maps : Path → String → ByteMap) : Prop where
  opens : ∀ root db name, w.dbs root = some db → validateName name = .ok () → 0 ∉ pathOf name →
    (DbMem.table p lossy cwd ⟨db, w.tree⟩ name).1 = .ok ()
  reads : ∀ root db name (c : Call), w.dbs root = some db → validateName name = .ok () → 0 ∉ pathOf name →
    c.op = none → c.Accepted → w.read p lossy cwd root name (c.reply p) = some (.ok (c.answer (maps root name)))
  calls : ∀ root db name (c : Call), w.dbs root = some db → (DbCall.access name c).Fits p cwd w root →
    (DbMem.access lossy cwd ⟨db, w.tree⟩ name (c.reply p)).map Prod.fst = some (.ok (c.answer (maps root name)))

theorem Answers.returned_eq {c : Api α} {r : α} {Q : Store → Disk → Prop}
    (h : Answers c s d fun a s' d' => a = r ∧ Q s' d') : returned (c ⟨s, d, Env.quiet, 0⟩) = .ok r := by
  obtain ⟨a, y, hrun, -, rfl, -⟩ := h.run 0
  rw [hrun]
  rfl

/-- What a call on the store of a table returns, open or opened for it. -/
theorem readOf_holds (hp : p.Lawful) (dir : String) {slot : Option Dir} {live : Option OpenStore}
    (h : TableHolds p m slot live) {c : Call} (hc : c.op = none) (hacc : c.Accepted) :
    readOf p dir ((slot.map Dir.disk).getD Disk.empty) (c.reply p) (live.map OpenStore.store) =
      .ok (c.answer m) := by
  cases live with
  | none =>
    obtain ⟨y, hopen, L, hL⟩ := openedIn_holds hp dir h
    unfold readOf
    dsimp only [Option.map_none]
    rw [hopen]
    exact (c.answers hp hL (Call.fitsLayers_of_reads hc hacc)).returned_eq
  | some live =>
    cases slot with
    | none => exact h.elim
    | some dir' =>
      obtain ⟨-, L, hL⟩ := h
      exact (c.answers hp hL (Call.fitsLayers_of_reads hc hacc)).returned_eq

theorem Host.DataRun.readsAs (hlossy : ∀ s, lossy (pathOf s) = s) (hp : p.Lawful) (hR : Apart cwd t₀ R)
    {maps : Path → String → ByteMap} (h : Host.DataRun p lossy cwd t₀ R w maps) :
    w.ReadsAs p lossy cwd maps := by
  obtain ⟨⟨names, hw⟩, hm⟩ := h.holds hlossy hp hR
  refine ⟨fun root db name hdb hname hnul => ?_, fun root db name c hdb hname hnul hc hacc => ?_,
    fun root db name c hdb hfits => ?_⟩
  · have hroot := (hw.root root db hdb).1
    unfold DbMem.table
    rw [hname]
    dsimp only
    rw [contains_opened]
    cases hlive : db.opened[name]? with
    | some live => rw [Option.isSome_some, if_pos rfl]
    | none =>
      obtain ⟨x, live, hopen, -⟩ := hw.openStore_holds hlossy hR hdb hp hname hnul hlive (hm root hroot name)
      rw [Option.isSome_none, if_neg Bool.false_ne_true, hopen]
  · have hholds := hm root (hw.root root db hdb).1 name
    unfold Host.Holds Tree.dirAt at hholds
    rw [liveAt_of_dbs hdb] at hholds
    rw [hw.read_eq hlossy hR hdb hname _ hnul]
    exact congrArg some (readOf_holds hp _ hholds hc hacc)
  · obtain ⟨live, hlive, hfits⟩ := hfits
    obtain ⟨x, haccess, -⟩ := hw.access_holds hlossy hR hdb hp hlive (hm root (hw.root root db hdb).1 name) c hfits
    rw [haccess]
    rfl

/-- **A database is a map of sorted maps**: in every run of openings, drops and calls that fit, on roots that
lie apart, every table opens, and every call on it replies what the puts and deletes on its name make of the
empty map, whatever was done to other names and other roots, and however often it was closed and opened. -/
theorem database_is_map_of_maps (hp : p.Lawful) (hR : Apart cwd t₀ R) {maps : Path → String → ByteMap}
    (h : Host.DataRun p toStringLossy cwd t₀ R w maps) : w.ReadsAs p toStringLossy cwd maps :=
  h.readsAs toStringLossy_pathOf hp hR

/-- Open a database, make a call on a new table in it, drop the database and open it again; whether the call
fits comes along. -/
def callAndReopen (root : Path) (c : Call) : Option (List (Except Failure Unit) × Bool) := do
  let (r₁, w) ← Host.step Prost.wire toStringLossy [] ⟨topTree, fun _ => none⟩ (.open root)
  let (r₂, w) ← w.step Prost.wire toStringLossy [] (.call root (.table "t"))
  let live ← w.liveAt root "t"
  let fits := decide (live.store.sstables.length = 0 ∧
    ((w.tree.diskAt (tableAt [] root "t")).bytesOf walName).length = 0 ∧ c.FitsLayers Prost.wire live.store.memory)
  let (r₃, w) ← w.step Prost.wire toStringLossy [] (.call root (.access "t" c))
  let (r₄, w) ← w.step Prost.wire toStringLossy [] (.drop root)
  let (r₅, _) ← w.step Prost.wire toStringLossy [] (.open root)
  return ([r₁, r₂, r₃, r₄, r₅], fits)

theorem run_callAndReopen {c : Call} (h : callAndReopen root c = some (List.replicate 5 (.ok ()), true)) :
    ∃ w maps, Host.DataRun Prost.wire toStringLossy [] topTree {root} w maps ∧ maps root "t" = c.onMap ∅ := by
  obtain ⟨⟨r₁, w₁⟩, h₁, h⟩ := Option.bind_eq_some_iff.1 h
  obtain ⟨⟨r₂, w₂⟩, h₂, h⟩ := Option.bind_eq_some_iff.1 h
  obtain ⟨live, hlive, h⟩ := Option.bind_eq_some_iff.1 h
  obtain ⟨⟨r₃, w₃⟩, h₃, h⟩ := Option.bind_eq_some_iff.1 h
  obtain ⟨⟨r₄, w₄⟩, h₄, h⟩ := Option.bind_eq_some_iff.1 h
  obtain ⟨⟨r₅, w₅⟩, h₅, h⟩ := Option.bind_eq_some_iff.1 h
  simp only [pure, Option.some.injEq, Prod.mk.injEq, List.replicate, List.cons.injEq, and_true,
    decide_eq_true_eq] at h
  obtain ⟨⟨rfl, rfl, rfl, rfl, rfl⟩, hnil, hlog, hfits⟩ := h
  have hcall : (DbCall.access "t" c).Fits Prost.wire [] w₂ root :=
    ⟨live, hlive, Call.fitsStore_of_memory [] hnil hlog hfits⟩
  have hopened : Host.DataRun Prost.wire toStringLossy [] topTree {root} w₁ fun _ _ => ∅ :=
    .step .start (by exact rfl) (by exact trivial) h₁
  have hput := (hopened.step (by exact rfl) (by exact trivial) h₂).step (by exact rfl) (by exact hcall) h₃
  refine ⟨w₅, _, (hput.step (by exact rfl) (by exact trivial) h₄).step (by exact rfl) (by exact trivial) h₅, ?_⟩
  have hopen : HostOp.onMaps (.call root (.table "t")) (.ok ()) (fun _ _ => ∅) = fun _ _ => ∅ :=
    Function.update_eq_self ..
  show HostOp.onMaps (.call root (.access "t" c)) (.ok ()) (HostOp.onMaps (.call root (.table "t")) (.ok ())
    fun _ _ => ∅) root "t" = _
  rw [hopen]
  unfold HostOp.onMaps DbCall.onMaps
  dsimp only
  rw [Function.update_self, Function.update_self]

theorem database_is_map_of_maps_put : ∃ w maps, Host.DataRun Prost.wire toStringLossy [] topTree {[97]} w maps ∧
    maps [97] "t" = (∅ : ByteMap).insert [1] [2] ∧ w.ReadsAs Prost.wire toStringLossy [] maps := by
  have hrun : callAndReopen [97] (.put [1] [2]) = some (List.replicate 5 (.ok ()), true) := by decide +kernel
  obtain ⟨w, maps, h, hmaps⟩ := run_callAndReopen hrun
  exact ⟨w, maps, h, hmaps, database_is_map_of_maps wire_lawful apart_top h⟩

end FerrumDB
