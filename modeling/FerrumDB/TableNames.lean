import FerrumDB.Database.Named
import FerrumDB.PrefixScans
import Mathlib.Data.String.Basic

/-!
# Runs of databases

Databases are opened, called and dropped in one tree, in any order. The names of a root are those that
`create_table` and `table` have made and `delete_table` has not taken away since (`HostOp.record`), and in
every state of a run the tree is as the names say (`Host.Run.named`). So a database is a map from its names
to tables that do not touch each other (`names_kept`), for roots that lie apart and are UTF-8. In one that
is not, stores are opened where no call looks (`names_lost`).
-/

namespace FerrumDB

open CrashLogic

variable {p : Prost} {lossy : Path → String} {cwd v : Place} {R : Set Path} {t₀ t t' : Tree} {root root' : Path}
  {name : String} {names names' : Path → Set String} {w w' : Host} {db db' : Database} {x : DbMem} {α : Type}

/-! ## Opening and dropping -/

theorem foldl_unlock (place : String × OpenStore → Place) (l : List (String × OpenStore)) :
    (v ∈ (l.foldl (fun t e => t.unlock (place e) e.2.lock) t).dirs ↔ v ∈ t.dirs) ∧
    ((l.foldl (fun t e => t.unlock (place e) e.2.lock) t).diskAt v).files = (t.diskAt v).files ∧
    ((∀ e ∈ l, v ≠ place e) → (l.foldl (fun t e => t.unlock (place e) e.2.lock) t).dirs[v]? = t.dirs[v]?) := by
  induction l generalizing t with
  | nil => exact ⟨Iff.rfl, rfl, fun _ => rfl⟩
  | cons e l ih =>
    obtain ⟨hmem, hfiles, hdirs⟩ := ih (t := t.unlock (place e) e.2.lock)
    rw [List.foldl_cons]
    refine ⟨hmem.trans mem_unlock, hfiles.trans files_unlock, fun hne => ?_⟩
    rw [hdirs fun e he => hne e (List.mem_cons_of_mem _ he), dirs_unlock_of_ne (hne e (List.mem_cons_self ..))]

section Steps

variable (hR : Apart cwd t₀ R) (hw : w.Named cwd t₀ R names)

include hR hw

/-- Directories are made on the way to a root. -/
theorem Host.Named.made (hroot : root ∈ R) {ps : List Place} (hps : ∀ v ∈ ps, v ∈ wayOf cwd root) :
    Host.Named cwd t₀ R names { w with tree := ps.foldl Tree.make w.tree } ∧
      ∀ r ∈ R, ∀ n, (ps.foldl Tree.make w.tree).dirs[tableAt cwd r n]? = w.tree.dirs[tableAt cwd r n]? := by
  -- none of them is in a table
  have hdirs : ∀ r ∈ R, ∀ m v, tableAt cwd r m <:+ v → (ps.foldl Tree.make w.tree).dirs[v]? = w.tree.dirs[v]? :=
    fun r hr m v hin => dirs_foldl_make (Or.inr fun hv => hR.not_mem_way hr hroot (hps v hv) hin)
  refine ⟨⟨hw.root, fun r d hd => ?_, hw.valid, fun r hr m v hin => ?_, fun v hv => ?_, hw.opened⟩,
    fun r hr n => hdirs r hr n _ (List.suffix_refl _)⟩
  · obtain ⟨hnul, hway⟩ := hw.way r d hd
    exact ⟨hnul, fun v hv => mem_foldl_make.2 (Or.inr (hway v hv))⟩
  · exact (mem_of_dirs (hdirs r hr m v hin)).trans (hw.inside r hr m v hin)
  · exact (congrArg Disk.files diskAt_foldl_make).trans (hw.files v hv)

omit hR in
/-- A database whose root is there. -/
theorem Host.Named.keep_new (hroot : root ∈ R) (hnul : 0 ∉ root) (hway : ∀ v ∈ wayOf cwd root, v ∈ w.tree.dirs) :
    (w.keep root ⟨⟨root, ∅⟩, w.tree⟩).Named cwd t₀ R names := by
  refine ⟨fun r d hd => ?_, fun r d hd => ?_, hw.valid, hw.inside, hw.files, fun r d m live hd hlive => ?_⟩
  · rcases dbs_keep hd with ⟨rfl, rfl⟩ | ⟨-, hd⟩
    · exact ⟨hroot, rfl⟩
    · exact hw.root r d hd
  · rcases dbs_keep hd with ⟨rfl, -⟩ | ⟨-, hd⟩
    · exact ⟨hnul, hway⟩
    · exact hw.way r d hd
  · rcases dbs_keep hd with ⟨rfl, rfl⟩ | ⟨-, hd⟩
    · simp at hlive
    · exact hw.opened r d m live hd hlive

/-- **Step.** A database is opened, or is not; directories to its root are made. -/
theorem Host.Named.opening (hroot : root ∈ R) {r : Except Error Database}
    (hopen : Database.open cwd root w.tree = (r, t)) : Host.Named cwd t₀ R names { w with tree := t } ∧
      (∀ db, r = .ok db → (w.keep root ⟨db, t⟩).Named cwd t₀ R names) ∧
      ∀ r ∈ R, ∀ n, t.dirs[tableAt cwd r n]? = w.tree.dirs[tableAt cwd r n]? := by
  obtain ⟨ps, hmade, hps⟩ := createDirAll_made w.tree cwd root
  obtain ⟨hnamed, hdirs⟩ := hw.made hR hroot hps
  rw [← hmade] at hnamed hdirs
  unfold Database.open at hopen
  split at hopen
  · next msg tree hmake =>
    cases hopen
    rw [hmake] at hnamed hdirs
    exact ⟨hnamed, nofun, hdirs⟩
  · next tree hmake =>
    cases hopen
    rw [hmake] at hnamed hdirs
    obtain ⟨hnul, htree⟩ := createDirAll_eq_ok (hR.nonempty root hroot) hmake
    refine ⟨hnamed, fun db hdb => ?_, hdirs⟩
    cases hdb
    exact hnamed.keep_new hroot hnul fun v hv => by
      show v ∈ t.dirs
      rw [htree]
      exact mem_foldl_make.2 (Or.inl hv)

/-- **Step.** A database is dropped, and with it the stores of its tables. -/
theorem Host.Named.dropping (hlossy : ∀ s, lossy (pathOf s) = s) (hdb : w.dbs root = some db) :
    Host.Named cwd t₀ R names ⟨DbMem.drop lossy cwd ⟨db, w.tree⟩, Function.update w.dbs root none⟩ ∧
      ∀ r ∈ R, r ≠ root → ∀ n,
        (DbMem.drop lossy cwd ⟨db, w.tree⟩).dirs[tableAt cwd r n]? = w.tree.dirs[tableAt cwd r n]? := by
  have hdrop := fun v =>
    foldl_unlock (v := v) (t := w.tree) (fun e => db.tablePlace lossy cwd e.1) db.opened.toList
  have hmem : ∀ v, v ∈ (DbMem.drop lossy cwd ⟨db, w.tree⟩).dirs ↔ v ∈ w.tree.dirs := fun v => (hdrop v).1
  have hlive : ∀ r d, Function.update w.dbs root none r = some d → w.dbs r = some d := by
    intro r d hd
    by_cases heq : r = root
    · rw [heq, Function.update_self] at hd
      cases hd
    · rwa [Function.update_of_ne heq] at hd
  refine ⟨⟨fun r d hd => hw.root r d (hlive r d hd), fun r d hd => ?_, hw.valid, fun r hr m v hin => ?_,
    fun v hv => ?_, fun r d m live hd => hw.opened r d m live (hlive r d hd)⟩, fun r hr hne n => ?_⟩
  · obtain ⟨hnul, hway⟩ := hw.way r d (hlive r d hd)
    exact ⟨hnul, fun v hv => (hmem v).2 (hway v hv)⟩
  · exact (hmem v).trans (hw.inside r hr m v hin)
  · exact (hdrop v).2.1.trans (hw.files v hv)
  · refine (hdrop _).2.2 fun e he heq => ?_
    have hopened : db.opened[e.1]? = some e.2 := Std.ExtTreeMap.mem_toList_iff_getElem?_eq_some.1 he
    obtain ⟨hroot, hname, hnul⟩ := hw.valid root e.1 (hw.opened root db e.1 e.2 hdb hopened)
    rw [(hw.createDirAll hlossy hR hdb hname hnul).1] at heq
    have hsuf : tableAt cwd r n <:+ tableAt cwd root e.1 := heq ▸ List.suffix_refl _
    exact hne (hR.table_unique hr hroot hsuf).1

omit hw in
/-- At first there are no tables. -/
theorem Host.Named.start : Host.Named cwd t₀ R (fun _ => ∅) ⟨t₀, fun _ => none⟩ := by
  refine ⟨nofun, nofun, nofun, fun r hr m v hin => ?_, fun _ _ => rfl, nofun⟩
  refine iff_of_false (fun hv => hR.fresh r hr v hv m hin) ?_
  rintro ⟨hm, -⟩
  exact hm

end Steps

/-! ## Reads -/

/-- What a call returns, without the state it leaves. -/
def returned : EStateM.Result Failure (Mem Store) α → Except Failure α
  | .ok a _ => .ok a
  | .error e _ => .error e

/-- What a method returns on a store that is open, or else is opened for it in the directory. -/
def readOf (p : Prost) (dir : String) (d : Disk) (m : Api α) : Option Store → Except Failure α
  | some s => returned (m ⟨s, d, Env.quiet, 0⟩)
  | none =>
    match openedIn p dir d with
    | .ok () y => returned (m ⟨y.self, y.disk, Env.quiet, 0⟩)
    | .error e _ => .error (.ofStop e)

theorem access_fst (x : DbMem) (name : String) (m : Api α) : (x.access lossy cwd name m).map Prod.fst =
    x.db.opened[name]?.map fun live =>
      returned (m ⟨live.store, x.tree.diskAt (x.db.tablePlace lossy cwd name), Env.quiet, 0⟩) := by
  unfold DbMem.access
  dsimp only
  rw [Option.map_map]
  congr 1
  funext live
  dsimp only [Function.comp_apply]
  split
  · next hm => rw [hm]; rfl
  · next hm => rw [hm]; rfl

theorem contains_opened {opened : Std.ExtTreeMap String OpenStore} :
    opened.contains name = opened[name]?.isSome := by
  rw [Std.ExtTreeMap.contains_eq_isSome_getElem?]

section Reads

variable (hlossy : ∀ s, lossy (pathOf s) = s) (hR : Apart cwd t₀ R) (hw : w.Named cwd t₀ R names)
  (hdb : w.dbs root = some db) (hname : validateName name = .ok ()) (m : Api α)

include hlossy hR hw hdb hname

/-- A read sees the store and the directory of its table, nothing else. -/
theorem Host.Named.read_eq (hnul : 0 ∉ pathOf name) : w.read p lossy cwd root name m =
    some (readOf p (db.storeDir lossy name) (w.tree.diskAt (tableAt cwd root name)) m
      (db.opened[name]?.map OpenStore.store)) := by
  have hplace := (hw.createDirAll hlossy hR hdb hname hnul).1
  unfold Host.read DbMem.table
  rw [hdb, Option.bind_some, hname]
  dsimp only
  rw [contains_opened]
  cases hlive : db.opened[name]? with
  | some live =>
    rw [Option.isSome_some, if_pos rfl]
    dsimp only
    rw [access_fst, hplace]
    dsimp only
    rw [hlive]
    rfl
  | none =>
    rw [Option.isSome_none, if_neg Bool.false_ne_true]
    unfold readOf
    dsimp only [Option.map_none]
    cases hrun : openedIn p (db.storeDir lossy name) (w.tree.diskAt (tableAt cwd root name)) with
    | ok r y =>
      obtain ⟨x, hopen, hwithin, -, ⟨lock, hopened⟩, hdisk⟩ := hw.openStore_ok hlossy hR hdb hname hnul hrun
      have hroot : x.db.tablePlace lossy cwd name = tableAt cwd root name := by
        unfold Database.tablePlace Database.storePath Database.storeDir at hplace ⊢
        rwa [hwithin.root]
      rw [hopen]
      dsimp only
      rw [access_fst, hopened, hroot, hdisk hlive]
      rfl
    | error e y =>
      obtain ⟨t, hopen, -, -⟩ := hw.openStore_error hlossy hR hdb hname hnul hrun
      rw [hopen]

theorem Host.Named.read_nul (hnul : 0 ∈ pathOf name) :
    w.read p lossy cwd root name m = some (.error (.err (.io nulByte))) := by
  have hclosed := (hw.absent hdb fun hm => (hw.valid root name hm).2.2 hnul).2
  unfold Host.read DbMem.table
  rw [hdb, Option.bind_some, hname]
  dsimp only
  rw [contains_opened, hclosed, Option.isSome_none, if_neg Bool.false_ne_true,
    hw.openStore_nul hlossy hR hdb hname hnul]

/-- A table reads as before if neither its store nor its directory has changed. -/
theorem Host.Named.read_congr (hw' : w'.Named cwd t₀ R names') (hdb' : w'.dbs root = some db')
    (hopened : db'.opened[name]? = db.opened[name]?)
    (hdirs : w'.tree.dirs[tableAt cwd root name]? = w.tree.dirs[tableAt cwd root name]?) :
    w'.read p lossy cwd root name m = w.read p lossy cwd root name m := by
  by_cases hnul : 0 ∈ pathOf name
  · rw [hw.read_nul hlossy hR hdb hname m hnul, hw'.read_nul hlossy hR hdb' hname m hnul]
  · have hdir : db'.storeDir lossy name = db.storeDir lossy name := by
      unfold Database.storeDir
      rw [(hw.root root db hdb).2, (hw'.root root db' hdb').2]
    rw [hw.read_eq hlossy hR hdb hname m hnul, hw'.read_eq hlossy hR hdb' hname m hnul, hopened,
      diskAt_of_dirs hdirs, hdir]

end Reads

theorem read_of_none (h : w.dbs root = none) (m : Api α) : w.read p lossy cwd root name m = none := by
  unfold Host.read
  rw [h, Option.bind_none]

/-! ## Runs -/

/-- The names of all roots once an operation has returned. -/
def HostOp.record (op : HostOp) (r : Except Failure Unit) (names : Path → Set String) : Path → Set String :=
  match op with
  | .call root c => Function.update names root (c.record r (names root))
  | _ => names

/-- The operation is about this table, or about all tables of its root. -/
def HostOp.Touches (op : HostOp) (root : Path) (name : String) : Prop :=
  match op with
  | .open r => r = root
  | .drop r => r = root
  | .call r c => r = root ∧ c.name = some name

/-- The states of runs of operations on the roots `R`, with the names of each root. -/
inductive Host.Run (p : Prost) (lossy : Path → String) (cwd : Place) (t₀ : Tree) (R : Set Path) :
    Host → (Path → Set String) → Prop
  | start : Host.Run p lossy cwd t₀ R ⟨t₀, fun _ => none⟩ fun _ => ∅
  | step {w w' : Host} {names : Path → Set String} {op : HostOp} {r : Except Failure Unit}
      (before : Host.Run p lossy cwd t₀ R w names) (mem : op.root ∈ R)
      (run : w.step p lossy cwd op = some (r, w')) : Host.Run p lossy cwd t₀ R w' (op.record r names)

/-- Nothing has changed for the table. -/
structure Host.Unchanged (cwd : Place) (w w' : Host) (root : Path) (name : String) : Prop where
  live : ∀ db, w.dbs root = some db → ∃ db', w'.dbs root = some db' ∧ db'.opened[name]? = db.opened[name]?
  dropped : w.dbs root = none → w'.dbs root = none
  dirs : w'.tree.dirs[tableAt cwd root name]? = w.tree.dirs[tableAt cwd root name]?

theorem Host.Unchanged.of_dbs (h : w'.dbs root = w.dbs root)
    (hdirs : w'.tree.dirs[tableAt cwd root name]? = w.tree.dirs[tableAt cwd root name]?) :
    w.Unchanged cwd w' root name :=
  ⟨fun db hdb => ⟨db, h.trans hdb, rfl⟩, fun hdb => h.trans hdb, hdirs⟩

theorem DbCall.exists_name (c : DbCall) : ∃ n, ∀ k, c.name = some k → k = n :=
  ⟨c.name.getD "", fun k hk => by rw [hk]; rfl⟩

section Run

variable (hlossy : ∀ s, lossy (pathOf s) = s) (hp : p.Lawful) (hR : Apart cwd t₀ R) (hw : w.Named cwd t₀ R names)

include hlossy hR hw

theorem Host.Named.read_unchanged (hw' : w'.Named cwd t₀ R names') (hname : validateName name = .ok ())
    (h : w.Unchanged cwd w' root name) (m : Api α) :
    w'.read p lossy cwd root name m = w.read p lossy cwd root name m := by
  cases hdb : w.dbs root with
  | none => rw [read_of_none hdb, read_of_none (h.dropped hdb)]
  | some db =>
    obtain ⟨db', hdb', hopened⟩ := h.live db hdb
    exact hw.read_congr hlossy hR hdb hname m hw' hdb' hopened h.dirs

include hp

/-- A call changes nothing for the tables of other names and other roots. -/
theorem Host.Named.call_unchanged (hdb : w.dbs root' = some db) (c : DbCall) (hroot : root ∈ R)
    (h : root' = root → c.name ≠ some name) :
    w.Unchanged cwd (w.keep root' (c.run p lossy cwd ⟨db, w.tree⟩).2) root name := by
  have hroot' := (hw.root root' db hdb).1
  by_cases heq : root = root'
  · subst heq
    cases hc : c.name with
    | none =>
      cases c with
      | listTables => exact .of_dbs (by rw [dbs_keep_self, hdb]; rfl) rfl
      | createTable n => cases hc
      | table n => cases hc
      | access n c => cases hc
      | deleteTable n => cases hc
    | some n =>
      have hne : name ≠ n := fun hn => h rfl (hn ▸ hc)
      have hwithin := (hw.callNamed hlossy hR hdb hp c fun k hk => Option.some.inj (hk.symm.trans hc)).within
      exact {
        live := fun db' hdb' => ⟨_, dbs_keep_self, by
          cases hdb.symm.trans hdb'
          exact hwithin.opened name hne⟩
        dropped := fun hnone => by rw [hnone] at hdb; cases hdb
        dirs := hwithin.dirs _ fun hsuf => hne (name_of_suffix hsuf).symm }
  · obtain ⟨n, hn⟩ := c.exists_name
    have hwithin := (hw.callNamed hlossy hR hdb hp c hn).within
    exact .of_dbs (dbs_keep_of_ne heq)
      (hwithin.dirs _ fun hsuf => heq (hR.table_unique hroot' hroot hsuf).1.symm)

/-- **Step.** An operation keeps the invariant, and changes nothing for the tables it is not about. -/
theorem Host.Named.step {op : HostOp} {r : Except Failure Unit} (hmem : op.root ∈ R)
    (hstep : w.step p lossy cwd op = some (r, w')) : w'.Named cwd t₀ R (op.record r names) ∧
      ∀ root ∈ R, ∀ name, ¬ op.Touches root name → w.Unchanged cwd w' root name := by
  cases op with
  | «open» r₀ =>
    unfold Host.step at hstep
    dsimp only at hstep
    split at hstep
    · cases hstep
    split at hstep
    · next e tree hopen =>
      cases hstep
      obtain ⟨hkept, -, hdirs⟩ := hw.opening hR hmem hopen
      exact ⟨hkept, fun r hr n _ => .of_dbs rfl (hdirs r hr n)⟩
    · next db tree hopen =>
      cases hstep
      obtain ⟨-, hkept, hdirs⟩ := hw.opening hR hmem hopen
      exact ⟨hkept db rfl, fun r hr n hn => .of_dbs (dbs_keep_of_ne fun heq => hn heq.symm) (hdirs r hr n)⟩
  | drop r₀ =>
    obtain ⟨db, hdb, hx⟩ := Option.map_eq_some_iff.1 hstep
    cases hx
    obtain ⟨hkept, hdirs⟩ := hw.dropping hR hlossy hdb
    exact ⟨hkept, fun r hr n hn => .of_dbs (Function.update_of_ne (fun heq => hn heq.symm) ..)
      (hdirs r hr (fun heq => hn heq.symm) n)⟩
  | call r₀ c =>
    obtain ⟨db, hdb, hx⟩ := Option.map_eq_some_iff.1 hstep
    cases hx
    obtain ⟨n, hname⟩ := c.exists_name
    exact ⟨(hw.callNamed hlossy hR hdb hp c hname).named, fun r hr n hn =>
      hw.call_unchanged hlossy hp hR hdb c hr fun heq hc => hn ⟨heq, hc⟩⟩

omit hw in
/-- In every state of a run the names are those of the tables. -/
theorem Host.Run.named (h : Host.Run p lossy cwd t₀ R w names) : w.Named cwd t₀ R names := by
  induction h with
  | start => exact .start hR
  | step _ hmem hstep ih => exact (ih.step hlossy hp hR hmem hstep).1

end Run

/-! ## The map of names -/

/-- Every get from the table returns nothing, and every scan of it no pairs. -/
structure Host.ReadsEmpty (p : Prost) (lossy : Path → String) (cwd : Place) (w : Host) (root : Path)
    (name : String) : Prop where
  get : ∀ key, w.read p lossy cwd root name (Table.get p key) = some (.ok none)
  scan : ∀ lo hi, w.read p lossy cwd root name (Table.rangeBounds p lo hi) = some (.ok [])

theorem Gives.returned_eq {m : Api α} {s : Store} {d : Disk} {r : α} (h : Gives m s d r) :
    returned (m ⟨s, d, Env.quiet, 0⟩) = .ok r := by
  have h := h 0
  unfold wp at h
  cases hm : m ⟨s, d, Env.quiet, 0⟩ with
  | ok a y => rw [hm] at h; exact congrArg Except.ok h
  | error e y => rw [hm] at h; exact h.elim

theorem gives_get_empty (hp : p.Lawful) {s : Store} {d : Disk}
    (h : Agrees p s d Layers.empty.reopen [] []) (key : Bytes) : Gives (Table.get p key) s d none := by
  have hread : Returns (Store.getValue p key) s d fun r _ _ => r = Layers.empty.reopen.get key :=
    does_getValue hp h.toFollows (fun _ _ => rfl) fun _ he => absurd he Env.not_faults_quiet
  intro n
  obtain ⟨r, y, hrun, rfl⟩ := hread.run n
  unfold Table.get
  rw [wp_bind]
  unfold wp core
  rw [hrun, get_reopen, get_empty]
  rfl

theorem gives_range_empty (hp : p.Lawful) {s : Store} {d : Disk}
    (h : Agrees p s d Layers.empty.reopen [] []) (lo hi : Bound) : Gives (Table.rangeBounds p lo hi) s d [] := by
  refine gives_rangeBounds hp h.toFollows.running (Or.inl ?_) ?_
  · rw [h.data]
    rfl
  · rw [List.map_nil, List.eq_nil_iff_forall_not_mem]
    rintro ⟨key, v⟩ hmem
    have hget := (mem_scan.1 hmem).2
    rw [get_reopen, get_empty] at hget
    cases hget

section Map

variable (hlossy : ∀ s, lossy (pathOf s) = s) (hp : p.Lawful) (hR : Apart cwd t₀ R) (hw : w.Named cwd t₀ R names)
  (hdb : w.dbs root = some db) (hname : validateName name = .ok ())

include hR hw hdb

theorem Host.Named.lists : ∃ l, DbMem.listTables cwd ⟨db, w.tree⟩ = .ok l ∧ l.Pairwise (· < ·) ∧
    ∀ name, name ∈ l ↔ name ∈ names root := by
  obtain ⟨hroot, hdbroot⟩ := hw.root root db hdb
  obtain ⟨hnul, hway⟩ := hw.way root db hdb
  have hdir : w.tree.isDir cwd root = true := isDir_iff.2 ⟨hR.nonempty root hroot, hnul, hway⟩
  obtain ⟨dirs, hdirs⟩ : ∃ dirs, w.tree.subdirs cwd root = .ok dirs := by
    unfold Tree.subdirs
    rw [if_neg hnul, if_pos hdir]
    exact ⟨_, rfl⟩
  have hmem : ∀ name, name ∈ dirs.filterMap ofUtf8Bytes ↔ name ∈ names root := by
    intro name
    rw [List.mem_filterMap, ← hw.mem_dirs hroot]
    unfold tableAt
    rw [← mem_subdirs hdirs]
    constructor
    · rintro ⟨c, hc, hutf8⟩
      rwa [pathOf_of_ofUtf8Bytes hutf8]
    · exact fun hc => ⟨_, hc, ofUtf8Bytes_utf8Bytes name⟩
  have hnodup : (dirs.filterMap ofUtf8Bytes).Nodup := by
    refine List.Nodup.filterMap (fun c c' name hc hc' => ?_) (nodup_subdirs hdirs)
    rw [← pathOf_of_ofUtf8Bytes hc, ← pathOf_of_ofUtf8Bytes hc']
  refine ⟨_, ?_, ?_, fun name => (List.mem_insertionSort (· ≤ ·)).trans (hmem name)⟩
  · unfold DbMem.listTables
    rw [hdbroot, hdirs]
  · have hsorted : ((dirs.filterMap ofUtf8Bytes).insertionSort (· ≤ ·)).Pairwise (· ≤ ·) :=
      List.pairwise_insertionSort _ _
    have hdistinct := (List.perm_insertionSort (· ≤ ·) (dirs.filterMap ofUtf8Bytes)).nodup_iff.2 hnodup
    exact (hsorted.and hdistinct).imp fun h => lt_of_le_of_ne h.1 h.2

include hname

/-- `delete_table` knows the names. -/
theorem Host.Named.deletes : (DbMem.deleteTable lossy cwd ⟨db, w.tree⟩ name).1 =
    .error (.err (.tableNotFound name)) ↔ name ∉ names root := by
  have hexists := hw.exists_iff hR hdb hname
  unfold DbMem.deleteTable
  rw [hname]
  dsimp only
  by_cases hm : name ∈ names root
  · rw [if_pos (hexists.2 hm)]
    refine iff_of_false ?_ fun hno => hno hm
    split <;> exact nofun
  · rw [if_neg (mt hexists.1 hm)]
    exact iff_of_true rfl hm

include hlossy hp

/-- A table that is not named opens as an empty one. -/
theorem Host.Named.openStore_absent (hno : name ∉ names root) (hnul : 0 ∉ pathOf name) : ∃ x,
    DbMem.openStore p lossy cwd ⟨db, w.tree⟩ name = (.ok (), x) ∧
      (w.keep root x).ReadsEmpty p lossy cwd root name := by
  obtain ⟨y, hempty, hagrees⟩ := openedIn_empty hp (db.storeDir lossy name)
  obtain ⟨hdisk, hclosed⟩ := hw.absent hdb hno
  obtain ⟨x, hopen, hwithin, hmem, ⟨lock, hopened⟩, hleft⟩ :=
    hw.openStore_ok hlossy hR hdb hname hnul (hdisk ▸ hempty)
  refine ⟨x, hopen, ?_⟩
  have hkept := (hw.kept hR hdb hname hnul hwithin hmem).named
  have hread : ∀ {α : Type} (m : Api α) (r : α), Gives m y.self y.disk r →
      (w.keep root x).read p lossy cwd root name m = some (.ok r) := by
    intro α m r hm
    rw [hkept.read_eq hlossy hR dbs_keep_self hname m hnul, hopened]
    show some (returned (m ⟨y.self, x.tree.diskAt (tableAt cwd root name), Env.quiet, 0⟩)) = _
    rw [hleft hclosed, hm.returned_eq]
  exact ⟨fun key => hread _ _ (gives_get_empty hp hagrees key),
    fun lo hi => hread _ _ (gives_range_empty hp hagrees lo hi)⟩

/-- `create_table` knows the names. -/
theorem Host.Named.creates : (DbMem.createTable p lossy cwd ⟨db, w.tree⟩ name).1 =
    .error (.err (.tableExists name)) ↔ name ∈ names root := by
  have hexists := hw.exists_iff hR hdb hname
  unfold DbMem.createTable
  rw [hname]
  dsimp only
  by_cases hm : name ∈ names root
  · rw [if_pos (hexists.2 hm)]
    exact iff_of_true rfl hm
  · rw [if_neg (mt hexists.1 hm)]
    refine iff_of_false ?_ hm
    by_cases hnul : 0 ∈ pathOf name
    · rw [hw.openStore_nul hlossy hR hdb hname hnul]
      exact nofun
    · obtain ⟨x, hopen, -⟩ := hw.openStore_absent hlossy hp hR hdb hname hm hnul
      rw [hopen]
      exact nofun

omit hlossy hp in
/-- `create_table` and `table` open the store of a table that is not named. -/
theorem Host.Named.run_absent (hno : name ∉ names root) {c : DbCall}
    (hc : c = .createTable name ∨ c = .table name) :
    c.run p lossy cwd ⟨db, w.tree⟩ = DbMem.openStore p lossy cwd ⟨db, w.tree⟩ name := by
  rcases hc with rfl | rfl
  · unfold DbCall.run DbMem.createTable
    dsimp only
    rw [hname]
    dsimp only
    rw [if_neg (mt (hw.exists_iff hR hdb hname).1 hno)]
  · unfold DbCall.run DbMem.table
    dsimp only
    rw [hname]
    dsimp only
    rw [contains_opened, (hw.absent hdb hno).2, Option.isSome_none, if_neg Bool.false_ne_true]

end Map

/-- The databases map their names to tables: the files of a table are at the path of the root joined with
its name, the listing and the errors know the names, a table that is new is empty, and an operation
changes what a table reads only if it is about it. -/
structure Host.MapsNames (p : Prost) (lossy : Path → String) (cwd : Place) (t₀ : Tree) (R : Set Path)
    (names : Path → Set String) (w : Host) : Prop where
  files : ∀ (v : Place) (fileName : FileName) (f : File), (w.tree.diskAt v).files[fileName]? = some f →
    (t₀.diskAt v).files[fileName]? = some f ∨
      ∃ root name, name ∈ names root ∧ v = placeOf cwd (joinPath root name)
  stores : ∀ root db name, w.dbs root = some db → validateName name = .ok () →
    db.tablePlace lossy cwd name = placeOf cwd (joinPath root name)
  lists : ∀ root db, w.dbs root = some db → ∃ l, DbMem.listTables cwd ⟨db, w.tree⟩ = .ok l ∧
    l.Pairwise (· < ·) ∧ ∀ name, name ∈ l ↔ name ∈ names root
  creates : ∀ root db name, w.dbs root = some db → validateName name = .ok () →
    ((DbMem.createTable p lossy cwd ⟨db, w.tree⟩ name).1 = .error (.err (.tableExists name)) ↔ name ∈ names root)
  deletes : ∀ root db name, w.dbs root = some db → validateName name = .ok () →
    ((DbMem.deleteTable lossy cwd ⟨db, w.tree⟩ name).1 = .error (.err (.tableNotFound name)) ↔ name ∉ names root) ∧
      (name ∈ names root → (DbMem.deleteTable lossy cwd ⟨db, w.tree⟩ name).1 = .ok ())
  empty : ∀ root db name (c : DbCall), w.dbs root = some db → validateName name = .ok () → 0 ∉ pathOf name →
    name ∉ names root → c = .createTable name ∨ c = .table name → (c.run p lossy cwd ⟨db, w.tree⟩).1 = .ok () ∧
      (w.keep root (c.run p lossy cwd ⟨db, w.tree⟩).2).ReadsEmpty p lossy cwd root name
  apart : ∀ op r w', op.root ∈ R → w.step p lossy cwd op = some (r, w') → ∀ root name, validateName name = .ok () →
    ¬ op.Touches root name → ∀ {α : Type} (m : Api α),
      w'.read p lossy cwd root name m = w.read p lossy cwd root name m

theorem Host.Run.mapsNames (hlossy : ∀ s, lossy (pathOf s) = s) (hp : p.Lawful) (hR : Apart cwd t₀ R)
    (h : Host.Run p lossy cwd t₀ R w names) : w.MapsNames p lossy cwd t₀ R names := by
  have hw := h.named hlossy hp hR
  have hplace : ∀ root name, validateName name = .ok () → tableAt cwd root name = placeOf cwd (joinPath root name) :=
    fun root name hname => (placeOf_joinPath (isName_pathOf hname) cwd root).symm
  refine ⟨fun v fileName f hf => ?_, fun root db name hdb hname => ?_, fun root db hdb => hw.lists hR hdb,
    fun root db name hdb hname => hw.creates hlossy hp hR hdb hname,
    fun root db name hdb hname => ⟨hw.deletes hR hdb hname, fun hm => ?_⟩,
    fun root db name c hdb hname hnul hno hc => ?_,
    fun op r w' hmem hstep root name hname hop α m => ?_⟩
  · by_cases hv : ∃ root name, name ∈ names root ∧ v = tableAt cwd root name
    · obtain ⟨root, name, hm, rfl⟩ := hv
      exact Or.inr ⟨root, name, hm, hplace root name (hw.valid root name hm).2.1⟩
    · rw [hw.files v fun root name hm heq => hv ⟨root, name, hm, heq⟩] at hf
      exact Or.inl hf
  · obtain ⟨hroot, hdbroot⟩ := hw.root root db hdb
    rw [← hplace root name hname, ← hdbroot]
    exact (hR.tablePlace hlossy (by rwa [hdbroot]) (isName_pathOf hname)).2
  · obtain ⟨x, hdelete, -⟩ := hw.callNamed_deleteTable hlossy hR hdb hm
    rw [hdelete]
  · obtain ⟨x, hopen, hempty⟩ := hw.openStore_absent hlossy hp hR hdb hname hno hnul
    rw [hw.run_absent hR hdb hname hno hc, hopen]
    exact ⟨rfl, hempty⟩
  · obtain ⟨hw', hunchanged⟩ := hw.step hlossy hp hR hmem hstep
    by_cases hroot : root ∈ R
    · exact hw.read_unchanged hlossy hR hw' hname (hunchanged root hroot name hop) m
    · -- it is not open, before and after
      have hnone : ∀ {w : Host} {names : Path → Set String}, w.Named cwd t₀ R names → w.dbs root = none := fun hw =>
        Option.eq_none_iff_forall_ne_some.2 fun db hdb => hroot (hw.root root db hdb).1
      rw [read_of_none (hnone hw), read_of_none (hnone hw')]

/-- **A database is a map** from the names created and not deleted since to tables of its own root. -/
theorem names_kept (hp : p.Lawful) (hR : Apart cwd t₀ R) (h : Host.Run p toStringLossy cwd t₀ R w names) :
    w.MapsNames p toStringLossy cwd t₀ R names :=
  h.mapsNames toStringLossy_pathOf hp hR

/-- A tree of one directory, at the top. -/
def topTree : Tree := Tree.make ⟨∅, (0 : ℕ)⟩ []

theorem mem_topTree (h : v ∈ topTree.dirs) : v = [] :=
  (mem_make.1 h).resolve_right Std.ExtTreeMap.not_mem_empty

theorem apart_top : Apart [] topTree {[97]} := by
  have hway : ∀ v ∈ wayOf [] [97], placeOf [] [97] <:+ v → v = placeOf [] [97] := by decide
  refine ⟨fun root hroot => ⟨"a", ?_⟩, fun root hroot => ?_, fun root hroot root' hroot' v hv hsuf => ?_,
    fun root _ v hv name hsuf => ?_, fun root hroot name _ => ?_⟩
  · rw [Set.mem_singleton_iff.1 hroot]
    decide
  · rw [Set.mem_singleton_iff.1 hroot]
    decide
  · obtain rfl := Set.mem_singleton_iff.1 hroot
    obtain rfl := Set.mem_singleton_iff.1 hroot'
    exact ⟨rfl, hway v hv hsuf⟩
  · rw [mem_topTree hv] at hsuf
    exact List.cons_ne_nil _ _ (List.suffix_nil.1 hsuf)
  · have hgone : placeOf [] [97] ∉ topTree.dirs := fun h => absurd (mem_topTree h) (by decide)
    rw [Set.mem_singleton_iff.1 hroot, diskAt_of_not_mem hgone]
    exact Std.ExtTreeMap.not_mem_empty

/-- Open a database, create the table `t` in it, and list the tables. -/
def createAndList (root : Path) :
    Option (Except Failure Unit × Except Failure Unit × Except Failure (List String)) := do
  let (r, w) ← Host.step Prost.wire toStringLossy [] ⟨topTree, fun _ => none⟩ (.open root)
  let (r', w) ← w.step Prost.wire toStringLossy [] (.call root (.createTable "t"))
  let db ← w.dbs root
  return (r, r', DbMem.listTables [] ⟨db, w.tree⟩)

theorem run_createAndList {l : List String} (h : createAndList root = some (.ok (), .ok (), .ok l)) : ∃ w db,
    Host.Run Prost.wire toStringLossy [] topTree {root} w (Function.update (fun _ => ∅) root {"t"}) ∧
      w.dbs root = some db ∧ DbMem.listTables [] ⟨db, w.tree⟩ = .ok l := by
  obtain ⟨⟨r, w₁⟩, hopen, h⟩ := Option.bind_eq_some_iff.1 h
  obtain ⟨⟨r', w₂⟩, hcreate, h⟩ := Option.bind_eq_some_iff.1 h
  obtain ⟨db, hdb, h⟩ := Option.bind_eq_some_iff.1 h
  simp only [pure, Option.some.injEq, Prod.mk.injEq] at h
  obtain ⟨rfl, rfl, hlist⟩ := h
  have hopened : Host.Run Prost.wire toStringLossy [] topTree {root} w₁ fun _ => ∅ :=
    .step .start (by exact rfl) hopen
  have hrun := hopened.step (by exact rfl) hcreate
  have hnames : (HostOp.call root (.createTable "t")).record (.ok ()) (fun _ => ∅) =
      Function.update (fun _ => ∅) root {"t"} := by
    show Function.update (fun _ => ∅) root (insert "t" ∅) = _
    rw [insert_empty_eq]
  rw [hnames] at hrun
  exact ⟨w₂, db, hrun, hdb, hlist⟩

theorem names_kept_created : ∃ w names, Host.Run Prost.wire toStringLossy [] topTree {[97]} w names ∧
    "t" ∈ names [97] ∧ w.MapsNames Prost.wire toStringLossy [] topTree {[97]} names := by
  have hlist : createAndList [97] = some (.ok (), .ok (), .ok ["t"]) := by decide +kernel
  obtain ⟨w, db, hrun, -⟩ := run_createAndList hlist
  refine ⟨w, _, hrun, ?_, names_kept wire_lawful apart_top hrun⟩
  rw [Function.update_self]
  exact Set.mem_singleton _

/-- In a root that is not UTF-8 a table that has been created is not listed. -/
theorem names_lost : ∃ w names, Host.Run Prost.wire toStringLossy [] topTree {[0xFF]} w names ∧
    ¬ w.MapsNames Prost.wire toStringLossy [] topTree {[0xFF]} names := by
  have hlist : createAndList [0xFF] = some (.ok (), .ok (), .ok []) := by decide +kernel
  obtain ⟨w, db, hrun, hdb, hempty⟩ := run_createAndList hlist
  refine ⟨w, _, hrun, fun h => ?_⟩
  obtain ⟨l, hl, -, hmem⟩ := h.lists [0xFF] db hdb
  cases hempty.symm.trans hl
  refine List.not_mem_nil ((hmem "t").2 ?_)
  rw [Function.update_self]
  exact Set.mem_singleton _

end FerrumDB
