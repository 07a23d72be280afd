import FerrumDB.Database.TreeCalls
import FerrumDB.Refinement
import FerrumDB.Store.Scan

/-!
# The names of tables

What is created and not deleted since lies at the path of the root joined with its name, and nothing else
is in a root (`Host.Named`). `create_table`, `delete_table` and `list_tables` look at that path, but a store
is opened at the string that `to_string_lossy` makes of it. The two are one place if the root is UTF-8. The
other conditions are on the roots, too (`Apart`): none is empty, none is a place in another, and no way to
one leads through a place in another or in itself. A call is then about the table it names, and leaves all
others alone (`Host.Named.callNamed`).
-/

namespace FerrumDB

variable {p : Prost} {lossy : Path → String} {cwd v v' : Place} {R : Set Path} {t₀ t t' : Tree}
  {root root' : Path} {name name' : String} {names : Path → Set String} {w w' : Host} {db db' : Database}
  {x x' : DbMem}

/-! ## Roots -/

/-- The place of a table. -/
def tableAt (cwd : Place) (root : Path) (name : String) : Place := pathOf name :: placeOf cwd root

/-- The roots are UTF-8 and not empty, and nothing but tables comes into one: no way to a root leads
through it, and nothing is in it at first that has the name of a table. -/
structure Apart (cwd : Place) (t₀ : Tree) (R : Set Path) : Prop where
  utf8 : ∀ root ∈ R, ∃ s, root = pathOf s
  nonempty : ∀ root ∈ R, root ≠ []
  ways : ∀ root ∈ R, ∀ root' ∈ R, ∀ v ∈ wayOf cwd root', placeOf cwd root <:+ v →
    root = root' ∧ v = placeOf cwd root
  fresh : ∀ root ∈ R, ∀ v ∈ t₀.dirs, ∀ name, ¬ tableAt cwd root name <:+ v
  noFiles : ∀ root ∈ R, ∀ name, validateName name = .ok () → name ∉ (t₀.diskAt (placeOf cwd root)).files

theorem suffix_tableAt (cwd : Place) (root : Path) (name : String) : placeOf cwd root <:+ tableAt cwd root name :=
  List.suffix_cons ..

/-- A root is not in its tables. -/
theorem not_tableAt_suffix (cwd : Place) (root : Path) (name : String) :
    ¬ tableAt cwd root name <:+ placeOf cwd root := by
  intro hsuf
  have hlen := hsuf.length_le
  simp [tableAt] at hlen

/-- No table lies in another one. -/
theorem name_of_suffix (h : tableAt cwd root name <:+ tableAt cwd root name') : name = name' := by
  have heq := h.eq_of_length (by simp [tableAt])
  exact pathOf_injective (List.cons.inj heq).1

theorem name_unique (h : tableAt cwd root name <:+ v) (h' : tableAt cwd root name' <:+ v) : name = name' := by
  rcases List.suffix_or_suffix_of_suffix h h' with hsuf | hsuf
  · exact name_of_suffix hsuf
  · exact (name_of_suffix hsuf).symm

section Apart

variable (hR : Apart cwd t₀ R)

include hR

/-- No way leads through a table. -/
theorem Apart.not_mem_way (hroot : root ∈ R) (hroot' : root' ∈ R) (hv : v ∈ wayOf cwd root') :
    ¬ tableAt cwd root name <:+ v := by
  intro hsuf
  obtain ⟨-, rfl⟩ := hR.ways root hroot root' hroot' v hv ((suffix_tableAt cwd root name).trans hsuf)
  exact not_tableAt_suffix cwd root name hsuf

/-- A place in two roots does not exist. -/
theorem Apart.unique (hroot : root ∈ R) (hroot' : root' ∈ R) (h : placeOf cwd root <:+ v)
    (h' : placeOf cwd root' <:+ v) : root = root' := by
  rcases List.suffix_or_suffix_of_suffix h h' with hsuf | hsuf
  · exact (hR.ways root hroot root' hroot' _ (placeOf_mem_wayOf cwd root') hsuf).1
  · exact (hR.ways root' hroot' root hroot _ (placeOf_mem_wayOf cwd root) hsuf).1.symm

/-- The tables of all roots lie apart. -/
theorem Apart.table_unique (hroot : root ∈ R) (hroot' : root' ∈ R)
    (h : tableAt cwd root name <:+ tableAt cwd root' name') : root = root' ∧ name = name' := by
  obtain rfl := hR.unique hroot hroot' ((suffix_tableAt cwd root name).trans h) (suffix_tableAt cwd root' name')
  exact ⟨rfl, name_of_suffix h⟩

/-- A store is at the path that the calls look at. -/
theorem Apart.tablePlace (hlossy : ∀ s, lossy (pathOf s) = s) (hroot : db.root ∈ R) (hname : IsName (pathOf name)) :
    db.storePath lossy name = joinPath db.root name ∧ db.tablePlace lossy cwd name = tableAt cwd db.root name := by
  obtain ⟨s, hs⟩ := hR.utf8 _ hroot
  have hpath := storePath_eq hlossy hs name
  refine ⟨hpath, ?_⟩
  unfold Database.tablePlace
  rw [hpath]
  exact placeOf_joinPath hname cwd db.root

end Apart

/-! ## The invariant -/

/-- The tree and the databases are as `names` says: at the place of a table is a directory if the table is
named, with none below it, files are in the directories of tables only, but for those that were there at
first, and no other table is open. -/
structure Host.Named (cwd : Place) (t₀ : Tree) (R : Set Path) (names : Path → Set String) (w : Host) : Prop where
  root : ∀ root db, w.dbs root = some db → root ∈ R ∧ db.root = root
  way : ∀ root db, w.dbs root = some db → 0 ∉ root ∧ ∀ v ∈ wayOf cwd root, v ∈ w.tree.dirs
  valid : ∀ root name, name ∈ names root → root ∈ R ∧ validateName name = .ok () ∧ 0 ∉ pathOf name
  inside : ∀ root ∈ R, ∀ name v, tableAt cwd root name <:+ v →
    (v ∈ w.tree.dirs ↔ name ∈ names root ∧ v = tableAt cwd root name)
  files : ∀ v, (∀ root name, name ∈ names root → v ≠ tableAt cwd root name) →
    (w.tree.diskAt v).files = (t₀.diskAt v).files
  opened : ∀ (root : Path) (db : Database) (name : String) (live : OpenStore), w.dbs root = some db →
    db.opened[name]? = some live → name ∈ names root

theorem Host.Named.mem_dirs (hw : w.Named cwd t₀ R names) (hroot : root ∈ R) :
    tableAt cwd root name ∈ w.tree.dirs ↔ name ∈ names root :=
  (hw.inside root hroot name _ (List.suffix_refl _)).trans (and_iff_left rfl)

/-- The places from `place` down. -/
def below (place : Place) : Set Place := {v | place <:+ v}

/-- Only the table `name` may differ, and the directories at the places `P`. -/
structure Within (name : String) (P : Set Place) (x x' : DbMem) : Prop where
  root : x'.db.root = x.db.root
  dirs : ∀ v ∉ P, x'.tree.dirs[v]? = x.tree.dirs[v]?
  opened : ∀ m ≠ name, x'.db.opened[m]? = x.db.opened[m]?

theorem Within.refl (name : String) (P : Set Place) (x : DbMem) : Within name P x x :=
  ⟨rfl, fun _ _ => rfl, fun _ _ => rfl⟩

theorem Within.trans {P : Set Place} {x'' : DbMem} (h : Within name P x x') (h' : Within name P x' x'') :
    Within name P x x'' :=
  ⟨h'.root.trans h.root, fun v hv => (h'.dirs v hv).trans (h.dirs v hv),
    fun m hm => (h'.opened m hm).trans (h.opened m hm)⟩

theorem Within.toBelow {place : Place} (h : Within name {place} x x') : Within name (below place) x x' where
  root := h.root
  dirs v hv := h.dirs v fun heq => by
    obtain rfl := Set.mem_singleton_iff.1 heq
    exact hv (List.suffix_refl v)
  opened := h.opened

/-- `names'` is `names` but for the table `name` of `root`, which it has if its directory is in the tree. -/
structure Records (cwd : Place) (root : Path) (name : String) (names names' : Path → Set String) (x : DbMem) :
    Prop where
  roots : ∀ r ≠ root, names' r = names r
  others : ∀ m ≠ name, m ∈ names' root ↔ m ∈ names root
  valid : name ∈ names' root → validateName name = .ok () ∧ 0 ∉ pathOf name
  place : tableAt cwd root name ∈ x.tree.dirs ↔ name ∈ names' root
  below : ∀ v, tableAt cwd root name <:+ v → v ≠ tableAt cwd root name → v ∉ x.tree.dirs
  opened : ∀ live, x.db.opened[name]? = some live → name ∈ names' root

theorem dbs_keep_self : (w.keep root x).dbs root = some x.db := Function.update_self ..

theorem dbs_keep_of_ne (h : root' ≠ root) : (w.keep root x).dbs root' = w.dbs root' := Function.update_of_ne h _ _

/-- Of the databases kept one is the new one. -/
theorem dbs_keep (h : (w.keep root x).dbs root' = some db) :
    root' = root ∧ db = x.db ∨ root' ≠ root ∧ w.dbs root' = some db := by
  by_cases heq : root' = root
  · subst heq
    exact Or.inl ⟨rfl, (Option.some.inj (dbs_keep_self.symm.trans h)).symm⟩
  · exact Or.inr ⟨heq, (dbs_keep_of_ne heq).symm.trans h⟩

theorem keep_self (hdb : w.dbs root = some db) : w.keep root ⟨db, w.tree⟩ = w := by
  unfold Host.keep
  rw [← hdb, Function.update_eq_self]

section Call

variable {names' : Path → Set String} (hR : Apart cwd t₀ R) (hw : w.Named cwd t₀ R names)
  (hdb : w.dbs root = some db) (hwithin : Within name (below (tableAt cwd root name)) ⟨db, w.tree⟩ x)
  (hrec : Records cwd root name names names' x)

include hR hw hdb hwithin hrec

omit hwithin in
/-- Every other table was there before, and lies apart from this one. -/
theorem Host.Named.other_table {r : Path} {m : String} (hm : m ∈ names' r) : (r = root ∧ m = name) ∨
    m ∈ names r ∧ ¬ tableAt cwd root name <:+ tableAt cwd r m := by
  by_cases hr : r = root
  · subst hr
    by_cases hmn : m = name
    · exact Or.inl ⟨rfl, hmn⟩
    · exact Or.inr ⟨(hrec.others m hmn).1 hm, fun hsuf => hmn (name_of_suffix hsuf).symm⟩
  · rw [hrec.roots r hr] at hm
    exact Or.inr ⟨hm, fun hsuf => hr (hR.table_unique (hw.root root db hdb).1 (hw.valid r m hm).1 hsuf).1.symm⟩

theorem Host.Named.call_inside {r : Path} {m : String} (hr : r ∈ R) (hin : tableAt cwd r m <:+ v) :
    v ∈ x.tree.dirs ↔ m ∈ names' r ∧ v = tableAt cwd r m := by
  have hroot := (hw.root root db hdb).1
  by_cases hsuf : tableAt cwd root name <:+ v
  · obtain rfl := hR.unique hr hroot ((suffix_tableAt cwd r m).trans hin) ((suffix_tableAt cwd root name).trans hsuf)
    obtain rfl := name_unique hin hsuf
    constructor
    · intro hmem
      by_cases hv : v = tableAt cwd r m
      · subst hv
        exact ⟨hrec.place.1 hmem, rfl⟩
      · exact absurd hmem (hrec.below v hsuf hv)
    · rintro ⟨hm, rfl⟩
      exact hrec.place.2 hm
  · rw [mem_of_dirs (hwithin.dirs v hsuf), hw.inside r hr m v hin]
    refine and_congr_left fun _ => ?_
    by_cases heq : r = root
    · subst heq
      refine (hrec.others m ?_).symm
      rintro rfl
      exact hsuf hin
    · rw [hrec.roots r heq]

theorem Host.Named.call_files (hv : ∀ r m, m ∈ names' r → v ≠ tableAt cwd r m) :
    (x.tree.diskAt v).files = (t₀.diskAt v).files := by
  have hroot := (hw.root root db hdb).1
  by_cases hsuf : tableAt cwd root name <:+ v
  · -- nothing is there now, and nothing was there at first
    have hgone : v ∉ x.tree.dirs := by
      by_cases heq : v = tableAt cwd root name
      · rw [heq, hrec.place]
        exact fun hm => hv root name hm heq
      · exact hrec.below v hsuf heq
    have hfresh : v ∉ t₀.dirs := fun hmem => hR.fresh root hroot v hmem name hsuf
    rw [diskAt_of_not_mem hgone, diskAt_of_not_mem hfresh]
  · rw [diskAt_of_dirs (hwithin.dirs v hsuf)]
    refine hw.files v fun r m hm heq => ?_
    by_cases hr : r = root
    · subst hr
      by_cases hmn : m = name
      · rw [heq, hmn] at hsuf
        exact hsuf (List.suffix_refl _)
      · exact hv r m ((hrec.others m hmn).2 hm) heq
    · exact hv r m (by rwa [hrec.roots r hr]) heq

/-- **Step.** A call on one table. -/
theorem Host.Named.call : (w.keep root x).Named cwd t₀ R names' := by
  obtain ⟨hroot, hdbroot⟩ := hw.root root db hdb
  refine ⟨fun r d hd => ?_, fun r d hd => ?_, fun r m hm => ?_,
    fun r hr m v hin => hw.call_inside hR hdb hwithin hrec hr hin,
    fun v hv => hw.call_files hR hdb hwithin hrec hv, fun r d m live hd hlive => ?_⟩
  · rcases dbs_keep hd with ⟨rfl, rfl⟩ | ⟨-, hd⟩
    · exact ⟨hroot, hwithin.root.trans hdbroot⟩
    · exact hw.root r d hd
  · obtain ⟨d, hd⟩ : ∃ d, w.dbs r = some d := by
      rcases dbs_keep hd with ⟨rfl, -⟩ | ⟨-, hd⟩
      · exact ⟨db, hdb⟩
      · exact ⟨d, hd⟩
    obtain ⟨hnul, hway⟩ := hw.way r d hd
    exact ⟨hnul, fun v hv =>
      (mem_of_dirs (hwithin.dirs v (hR.not_mem_way hroot (hw.root r d hd).1 hv))).2 (hway v hv)⟩
  · rcases hw.other_table hR hdb hrec hm with ⟨rfl, rfl⟩ | ⟨hm, -⟩
    · exact ⟨hroot, hrec.valid hm⟩
    · exact hw.valid r m hm
  · rcases dbs_keep hd with ⟨rfl, rfl⟩ | ⟨hne, hd⟩
    · by_cases hmn : m = name
      · subst hmn
        exact hrec.opened live hlive
      · rw [hwithin.opened m hmn] at hlive
        exact (hrec.others m hmn).2 (hw.opened r db m live hdb hlive)
    · rw [hrec.roots r hne]
      exact hw.opened r d m live hd hlive

end Call

/-! ## Calls on one table -/

theorem getElem?_insert_name (opened : Std.ExtTreeMap String OpenStore) (name : String) (live : OpenStore)
    (m : String) : (opened.insert name live)[m]? = if name = m then some live else opened[m]? := by
  rw [Std.ExtTreeMap.getElem?_insert]
  simp only [Std.compare_eq_iff_eq]

variable (lossy cwd) in
/-- A store that is dropped leaves the directories and their files. -/
theorem close_spec (x : DbMem) (name : String) :
    Within name {x.db.tablePlace lossy cwd name} x (x.close lossy cwd name) ∧
      (x.close lossy cwd name).db.opened[name]? = none ∧
      (∀ v, v ∈ (x.close lossy cwd name).tree.dirs ↔ v ∈ x.tree.dirs) ∧
      (x.db.opened[name]? = none → x.close lossy cwd name = x) := by
  unfold DbMem.close
  cases hlive : x.db.opened[name]? with
  | none => exact ⟨.refl .., hlive, fun _ => Iff.rfl, fun _ => rfl⟩
  | some live =>
    refine ⟨⟨rfl, fun v hv => dirs_unlock_of_ne hv, fun m hm => ?_⟩,
      Std.ExtTreeMap.getElem?_erase_self, fun v => mem_unlock, nofun⟩
    dsimp only
    rw [Std.ExtTreeMap.getElem?_erase, if_neg]
    exact fun heq => hm (Std.compare_eq_iff_eq.1 heq).symm

variable (lossy cwd) in
theorem insert_spec (x : DbMem) (name : String) (store : Store) :
    Within name {x.db.tablePlace lossy cwd name} x (x.insert lossy cwd name store) ∧
      (∃ lock, (x.insert lossy cwd name store).db.opened[name]? = some ⟨store, lock⟩) ∧
      (∀ v, v ∈ (x.insert lossy cwd name store).tree.dirs ↔ v ∈ x.tree.dirs) ∧
      (x.db.opened[name]? = none → (x.insert lossy cwd name store).tree = x.tree) := by
  obtain ⟨hwithin, -, hmem, hsame⟩ := close_spec lossy cwd x name
  unfold DbMem.insert
  dsimp only
  refine ⟨⟨hwithin.root, hwithin.dirs, fun m hm => ?_⟩, ?_, hmem, fun hnone => by rw [hsame hnone]⟩
  · dsimp only
    rw [getElem?_insert_name, if_neg fun heq => hm heq.symm]
    exact hwithin.opened m hm
  · rw [getElem?_insert_name, if_pos rfl]
    exact ⟨_, rfl⟩

theorem within_putDisk (name : String) (place : Place) (db : Database) (t : Tree) (d : Disk) :
    Within name {place} ⟨db, t⟩ ⟨db, (t.make place).putDisk place d⟩ :=
  ⟨rfl, fun _ hv => (dirs_putDisk_of_ne hv).trans (dirs_make (Or.inr hv)), fun _ _ => rfl⟩

section Open

variable (hlossy : ∀ s, lossy (pathOf s) = s) (hR : Apart cwd t₀ R) (hw : w.Named cwd t₀ R names)

include hR hw

theorem Host.Named.isFile (hroot : root ∈ R) (hname : validateName name = .ok ()) :
    w.tree.isFile (tableAt cwd root name) = false := by
  have hfiles : (w.tree.diskAt (placeOf cwd root)).files = (t₀.diskAt (placeOf cwd root)).files := by
    refine hw.files _ fun r m hm heq => ?_
    have hsuf : tableAt cwd r m <:+ placeOf cwd root := heq ▸ List.suffix_refl _
    exact hR.not_mem_way (hw.valid r m hm).1 hroot (placeOf_mem_wayOf cwd root) hsuf
  unfold tableAt Tree.isFile
  dsimp only
  rw [hfiles, List.any_eq_false]
  intro fileName hmem heq
  obtain rfl := pathOf_injective (of_decide_eq_true heq)
  exact hR.noFiles root hroot fileName hname (Std.ExtTreeMap.mem_keys.1 hmem)

/-- **A table exists** if and only if it is named. -/
theorem Host.Named.exists_iff (hdb : w.dbs root = some db) (hname : validateName name = .ok ()) :
    w.tree.pathExists cwd (joinPath db.root name) = true ↔ name ∈ names root := by
  obtain ⟨hroot, hdbroot⟩ := hw.root root db hdb
  obtain ⟨hnul, hway⟩ := hw.way root db hdb
  have hcomp := isName_pathOf hname
  have hplace := placeOf_joinPath hcomp cwd root
  rw [hdbroot, pathExists_iff (by rw [hplace]; exact hw.isFile hR hroot hname), wayOf_joinPath hcomp]
  constructor
  · rintro ⟨-, -, hall⟩
    exact (hw.mem_dirs hroot).1 (hall _ (List.mem_append_right _ (List.mem_singleton_self _)))
  · intro hm
    refine ⟨joinPath_ne_nil hcomp root, fun h => ?_, fun v hv => ?_⟩
    · exact (nul_mem_joinPath.1 h).elim hnul (hw.valid root name hm).2.2
    · rcases List.mem_append.1 hv with hv | hv
      · exact hway v hv
      · rw [List.mem_singleton.1 hv]
        exact (hw.mem_dirs hroot).2 hm

include hlossy

/-- Where a store is opened, and what is there. -/
theorem Host.Named.createDirAll (hdb : w.dbs root = some db) (hname : validateName name = .ok ())
    (hnul : 0 ∉ pathOf name) : db.tablePlace lossy cwd name = tableAt cwd root name ∧
      w.tree.createDirAll cwd (db.storePath lossy name) = (.ok (), w.tree.make (tableAt cwd root name)) := by
  obtain ⟨hroot, hdbroot⟩ := hw.root root db hdb
  obtain ⟨hnulroot, hway⟩ := hw.way root db hdb
  have hcomp := isName_pathOf hname
  obtain ⟨hpath, hplace⟩ := hR.tablePlace hlossy (by rwa [hdbroot]) hcomp
  rw [hdbroot] at hplace hpath
  refine ⟨hplace, ?_⟩
  rw [hpath]
  refine createDirAll_last (joinPath_ne_nil hcomp root) (fun h => (nul_mem_joinPath.1 h).elim hnulroot hnul)
    (wayOf_joinPath hcomp cwd root) ?_ hway (hw.isFile hR hroot hname)
  rw [startOf_joinPath hcomp]
  exact hway _ (startOf_mem_wayOf cwd root)

/-- A store opens in its directory, and that directory is there. -/
theorem Host.Named.openStore_ok (hdb : w.dbs root = some db) (hname : validateName name = .ok ())
    (hnul : 0 ∉ pathOf name) {y : Mem Store}
    (hrun : openedIn p (db.storeDir lossy name) (w.tree.diskAt (tableAt cwd root name)) = .ok () y) : ∃ x,
      DbMem.openStore p lossy cwd ⟨db, w.tree⟩ name = (.ok (), x) ∧
      Within name {tableAt cwd root name} ⟨db, w.tree⟩ x ∧ tableAt cwd root name ∈ x.tree.dirs ∧
      (∃ lock, x.db.opened[name]? = some ⟨y.self, lock⟩) ∧
      (db.opened[name]? = none → x.tree.diskAt (tableAt cwd root name) = y.disk) := by
  obtain ⟨hplace, hmake⟩ := hw.createDirAll hlossy hR hdb hname hnul
  have hmade : tableAt cwd root name ∈ (w.tree.make (tableAt cwd root name)).dirs := mem_make.2 (Or.inl rfl)
  obtain ⟨hput, hdisk⟩ := putDisk_of_mem (d := y.disk) hmade
  have hopen : DbMem.openStore p lossy cwd ⟨db, w.tree⟩ name = (.ok (), DbMem.insert lossy cwd
      ⟨db, (w.tree.make (tableAt cwd root name)).putDisk (tableAt cwd root name) y.disk⟩ name y.self) := by
    unfold DbMem.openStore
    dsimp only
    rw [hmake, hplace]
    dsimp only
    rw [diskAt_make, hrun]
  obtain ⟨hwithin, hlive, hmem, hsame⟩ := insert_spec lossy cwd
    ⟨db, (w.tree.make (tableAt cwd root name)).putDisk (tableAt cwd root name) y.disk⟩ name y.self
  rw [hplace] at hwithin
  refine ⟨_, hopen, (within_putDisk ..).trans hwithin, (hmem _).2 hput, hlive, fun hnone => ?_⟩
  rw [hsame hnone]
  exact hdisk

/-- A store that does not open leaves its directory there. -/
theorem Host.Named.openStore_error (hdb : w.dbs root = some db) (hname : validateName name = .ok ())
    (hnul : 0 ∉ pathOf name) {e : Stop} {y : Mem Store}
    (hrun : openedIn p (db.storeDir lossy name) (w.tree.diskAt (tableAt cwd root name)) = .error e y) : ∃ t,
      DbMem.openStore p lossy cwd ⟨db, w.tree⟩ name = (.error (.ofStop e), ⟨db, t⟩) ∧
      Within name {tableAt cwd root name} ⟨db, w.tree⟩ ⟨db, t⟩ ∧ tableAt cwd root name ∈ t.dirs := by
  obtain ⟨hplace, hmake⟩ := hw.createDirAll hlossy hR hdb hname hnul
  have hmade : tableAt cwd root name ∈ (w.tree.make (tableAt cwd root name)).dirs := mem_make.2 (Or.inl rfl)
  refine ⟨_, ?_, within_putDisk .., (putDisk_of_mem (d := y.disk) hmade).1⟩
  unfold DbMem.openStore
  dsimp only
  rw [hmake, hplace]
  dsimp only
  rw [diskAt_make, hrun]

/-- No system call takes a name with a NUL byte. -/
theorem Host.Named.openStore_nul (hdb : w.dbs root = some db) (hname : validateName name = .ok ())
    (hnul : 0 ∈ pathOf name) :
    DbMem.openStore p lossy cwd ⟨db, w.tree⟩ name = (.error (.err (.io nulByte)), ⟨db, w.tree⟩) := by
  obtain ⟨hroot, hdbroot⟩ := hw.root root db hdb
  obtain ⟨hpath, -⟩ := hR.tablePlace hlossy (by rwa [hdbroot]) (isName_pathOf hname)
  unfold DbMem.openStore
  dsimp only
  rw [hpath, createDirAll_nul (nul_mem_joinPath.2 (Or.inr hnul))]

omit hlossy hR in
/-- A table that is not named is not there, and not open. -/
theorem Host.Named.absent (hdb : w.dbs root = some db) (hno : name ∉ names root) :
    w.tree.diskAt (tableAt cwd root name) = Disk.empty ∧ db.opened[name]? = none := by
  refine ⟨diskAt_of_not_mem (mt (hw.mem_dirs (hw.root root db hdb).1).1 hno), ?_⟩
  cases hlive : db.opened[name]? with
  | none => rfl
  | some live => exact absurd (hw.opened root db name live hdb hlive) hno

end Open

/-- An empty directory opens as an empty table. -/
theorem openedIn_empty (hp : p.Lawful) (dir : String) : ∃ y, openedIn p dir Disk.empty = .ok () y ∧
    Agrees p y.self y.disk Layers.empty.reopen [] [] := by
  have hopen : Returns (Store.openWithDir p dir) (Store.fresh dir ⟨walName, false⟩) Disk.empty
      fun _ s d => Agrees p s d Layers.empty.reopen [] [] := does_openWithDir hp stored_empty rfl fun _ _ h => h
  obtain ⟨_, y, hrun, hagrees⟩ := hopen.run 0
  exact ⟨y, hrun, hagrees⟩

/-! ## Steps -/

/-- The names of a root once a call on it has returned. -/
def DbCall.record (c : DbCall) (r : Except Failure Unit) (S : Set String) : Set String :=
  match c, r with
  | .createTable name, .ok () => insert name S
  | .table name, .ok () => insert name S
  | .deleteTable name, .ok () => S \ {name}
  | _, _ => S

theorem record_createTable (name : String) (r : Except Failure Unit) (S : Set String) :
    (DbCall.createTable name).record r S = (DbCall.table name).record r S := by cases r <;> rfl

/-- A call on the table `name`, or one that leaves everything alone. -/
structure Host.CallNamed (cwd : Place) (t₀ : Tree) (R : Set Path) (names : Path → Set String) (w : Host)
    (root : Path) (db : Database) (name : String) (S : Set String) (x : DbMem) : Prop where
  named : (w.keep root x).Named cwd t₀ R (Function.update names root S)
  within : Within name (below (tableAt cwd root name)) ⟨db, w.tree⟩ x

section Calls

variable (hlossy : ∀ s, lossy (pathOf s) = s) (hR : Apart cwd t₀ R) (hw : w.Named cwd t₀ R names)
  (hdb : w.dbs root = some db)

include hw hdb

theorem Host.Named.nothing (name : String) :
    w.CallNamed cwd t₀ R names root db name (names root) ⟨db, w.tree⟩ := by
  refine ⟨?_, .refl ..⟩
  rw [keep_self hdb, Function.update_eq_self]
  exact hw

include hR

/-- The directory of the table is there afterwards. -/
theorem Host.Named.kept (hname : validateName name = .ok ()) (hnul : 0 ∉ pathOf name)
    (hwithin : Within name {tableAt cwd root name} ⟨db, w.tree⟩ x) (hmem : tableAt cwd root name ∈ x.tree.dirs) :
    w.CallNamed cwd t₀ R names root db name (insert name (names root)) x := by
  refine ⟨hw.call hR hdb hwithin.toBelow ?_, hwithin.toBelow⟩
  have hself : name ∈ Function.update names root (insert name (names root)) root := by
    rw [Function.update_self]
    exact Set.mem_insert ..
  refine ⟨fun r hr => Function.update_of_ne hr .., fun m hm => ?_, fun _ => ⟨hname, hnul⟩, iff_of_true hmem hself,
    fun v hsuf hne => ?_, fun _ _ => hself⟩
  · rw [Function.update_self, Set.mem_insert_iff, or_iff_right hm]
  · rw [mem_of_dirs (hwithin.dirs v hne), hw.inside root (hw.root root db hdb).1 name v hsuf]
    rintro ⟨-, rfl⟩
    exact hne rfl

/-- The table was there already. -/
theorem Host.Named.kept_of_mem (hm : name ∈ names root)
    (hwithin : Within name {tableAt cwd root name} ⟨db, w.tree⟩ x) (hmem : tableAt cwd root name ∈ x.tree.dirs) :
    w.CallNamed cwd t₀ R names root db name (names root) x := by
  obtain ⟨-, hname, hnul⟩ := hw.valid root name hm
  have hkept := hw.kept hR hdb hname hnul hwithin hmem
  rwa [Set.insert_eq_of_mem hm] at hkept

/-- The directory of the table is gone afterwards. -/
theorem Host.Named.removed (hwithin : Within name (below (tableAt cwd root name)) ⟨db, w.tree⟩ x)
    (hgone : ∀ v, tableAt cwd root name <:+ v → v ∉ x.tree.dirs) (hclosed : x.db.opened[name]? = none) :
    w.CallNamed cwd t₀ R names root db name (names root \ {name}) x := by
  refine ⟨hw.call hR hdb hwithin ?_, hwithin⟩
  have hself : name ∉ Function.update names root (names root \ {name}) root := by
    rw [Function.update_self]
    exact fun h => h.2 rfl
  refine ⟨fun r hr => Function.update_of_ne hr .., fun m hm => ?_, fun h => absurd h hself,
    iff_of_false (hgone _ (List.suffix_refl _)) hself, fun v hsuf _ => hgone v hsuf, fun live hlive => ?_⟩
  · rw [Function.update_self, Set.mem_sdiff, Set.mem_singleton_iff, and_iff_left hm]
  · rw [hclosed] at hlive
    cases hlive

include hlossy

/-- What `open_store` leaves, as the result says. -/
theorem Host.Named.callNamed_openStore (hp : p.Lawful) (hname : validateName name = .ok ()) :
    w.CallNamed cwd t₀ R names root db name
      ((DbCall.table name).record (DbMem.openStore p lossy cwd ⟨db, w.tree⟩ name).1 (names root))
      (DbMem.openStore p lossy cwd ⟨db, w.tree⟩ name).2 := by
  by_cases hnul : 0 ∈ pathOf name
  · rw [hw.openStore_nul hlossy hR hdb hname hnul]
    exact hw.nothing hdb name
  cases hrun : openedIn p (db.storeDir lossy name) (w.tree.diskAt (tableAt cwd root name)) with
  | ok r y =>
    obtain ⟨x, hopen, hwithin, hmem, -, -⟩ := hw.openStore_ok hlossy hR hdb hname hnul hrun
    rw [hopen]
    exact hw.kept hR hdb hname hnul hwithin hmem
  | error e y =>
    obtain ⟨t, hopen, hwithin, hmem⟩ := hw.openStore_error hlossy hR hdb hname hnul hrun
    rw [hopen]
    refine hw.kept_of_mem hR hdb (by_contra fun hno => ?_) hwithin hmem
    -- the directory of a new table opens
    obtain ⟨y', hempty, -⟩ := openedIn_empty hp (db.storeDir lossy name)
    rw [(hw.absent hdb hno).1, hempty] at hrun
    cases hrun

theorem Host.Named.callNamed_access {α : Type} {m : Api α} {r : Except Failure α} (hm : name ∈ names root)
    (hacc : DbMem.access lossy cwd ⟨db, w.tree⟩ name m = some (r, x)) :
    w.CallNamed cwd t₀ R names root db name (names root) x := by
  obtain ⟨hroot, hname, hnul⟩ := hw.valid root name hm
  have hplace := (hw.createDirAll hlossy hR hdb hname hnul).1
  have hthere := (hw.mem_dirs hroot).2 hm
  have hleave : ∀ (live : OpenStore) (d : Disk), Within name {tableAt cwd root name} ⟨db, w.tree⟩
      ⟨{ db with opened := db.opened.insert name live }, w.tree.putDisk (tableAt cwd root name) d⟩ := fun live d =>
    ⟨rfl, fun v hv => dirs_putDisk_of_ne hv, fun m hm => by
      dsimp only
      rw [getElem?_insert_name, if_neg fun heq => hm heq.symm]⟩
  unfold DbMem.access at hacc
  dsimp only at hacc
  rw [hplace] at hacc
  obtain ⟨live, -, hrun⟩ := Option.map_eq_some_iff.1 hacc
  split at hrun
  · cases hrun
    exact hw.kept_of_mem hR hdb hm (hleave ..) (putDisk_of_mem hthere).1
  · cases hrun
    exact hw.kept_of_mem hR hdb hm (hleave ..) (putDisk_of_mem hthere).1

theorem Host.Named.callNamed_deleteTable (hm : name ∈ names root) : ∃ x,
    DbMem.deleteTable lossy cwd ⟨db, w.tree⟩ name = (.ok (), x) ∧
      w.CallNamed cwd t₀ R names root db name (names root \ {name}) x := by
  obtain ⟨-, hname, hnul⟩ := hw.valid root name hm
  obtain ⟨hroot, hdbroot⟩ := hw.root root db hdb
  obtain ⟨hnulroot, hway⟩ := hw.way root db hdb
  have hcomp := isName_pathOf hname
  have hplace := (hw.createDirAll hlossy hR hdb hname hnul).1
  obtain ⟨hwithin, hclosed, hmem, -⟩ := close_spec lossy cwd ⟨db, w.tree⟩ name
  rw [hplace] at hwithin
  have hthere := (hw.mem_dirs hroot).2 hm
  -- the directory is there when the store has been dropped
  have hdir : (DbMem.close lossy cwd ⟨db, w.tree⟩ name).tree.isDir cwd (joinPath root name) = true := by
    refine isDir_iff.2 ⟨joinPath_ne_nil hcomp root, fun h => ?_, fun v hv => ?_⟩
    · exact (nul_mem_joinPath.1 h).elim hnulroot hnul
    rw [wayOf_joinPath hcomp] at hv
    rcases List.mem_append.1 hv with hv | hv
    · exact (hmem v).2 (hway v hv)
    · rw [List.mem_singleton.1 hv]
      exact (hmem _).2 hthere
  obtain ⟨t, hremove, hgone, hkeeps⟩ := removeDirAll_ok hdir
  rw [placeOf_joinPath hcomp] at hgone hkeeps
  refine ⟨⟨(DbMem.close lossy cwd ⟨db, w.tree⟩ name).db, t⟩, ?_, ?_⟩
  · have hexists := (hw.exists_iff hR hdb hname).2 hm
    unfold DbMem.deleteTable
    rw [hname]
    dsimp only
    rw [if_pos hexists, hwithin.root, hdbroot, hremove]
  · have hrest : Within name (below (tableAt cwd root name)) (DbMem.close lossy cwd ⟨db, w.tree⟩ name)
        ⟨(DbMem.close lossy cwd ⟨db, w.tree⟩ name).db, t⟩ := ⟨rfl, hkeeps, fun _ _ => rfl⟩
    exact hw.removed hR hdb (hwithin.toBelow.trans hrest) hgone hclosed

theorem Host.Named.callNamed_createTable (hp : p.Lawful) (name : String) :
    w.CallNamed cwd t₀ R names root db name
      ((DbCall.createTable name).record (DbMem.createTable p lossy cwd ⟨db, w.tree⟩ name).1 (names root))
      (DbMem.createTable p lossy cwd ⟨db, w.tree⟩ name).2 := by
  unfold DbMem.createTable
  split
  · exact hw.nothing hdb name
  next hname =>
  split_ifs
  · exact hw.nothing hdb name
  · rw [record_createTable]
    exact hw.callNamed_openStore hlossy hR hdb hp hname

theorem Host.Named.callNamed_table (hp : p.Lawful) (name : String) :
    w.CallNamed cwd t₀ R names root db name
      ((DbCall.table name).record (DbMem.table p lossy cwd ⟨db, w.tree⟩ name).1 (names root))
      (DbMem.table p lossy cwd ⟨db, w.tree⟩ name).2 := by
  unfold DbMem.table
  split
  · exact hw.nothing hdb name
  next hname =>
  split_ifs with hopened
  · obtain ⟨live, hlive⟩ := Option.isSome_iff_exists.1
      (Std.ExtTreeMap.mem_iff_isSome_getElem?.1 (Std.ExtTreeMap.contains_iff_mem.1 hopened))
    have hnothing := hw.nothing hdb name
    rwa [← Set.insert_eq_of_mem (hw.opened root db name live hdb hlive)] at hnothing
  · exact hw.callNamed_openStore hlossy hR hdb hp hname

/-- **Step.** A call on a database is a call on the table it names. -/
theorem Host.Named.callNamed (hp : p.Lawful) (c : DbCall) (hname : ∀ n, c.name = some n → n = name) :
    w.CallNamed cwd t₀ R names root db name (c.record (c.run p lossy cwd ⟨db, w.tree⟩).1 (names root))
      (c.run p lossy cwd ⟨db, w.tree⟩).2 := by
  cases c with
  | createTable n =>
    obtain rfl := hname n rfl
    exact hw.callNamed_createTable hlossy hR hdb hp n
  | table n =>
    obtain rfl := hname n rfl
    exact hw.callNamed_table hlossy hR hdb hp n
  | access n c =>
    obtain rfl := hname n rfl
    have hrun : DbCall.run p lossy cwd ⟨db, w.tree⟩ (.access n c) =
        (DbMem.access lossy cwd ⟨db, w.tree⟩ n (c.run p)).getD (.ok (), ⟨db, w.tree⟩) := rfl
    rw [hrun]
    cases hacc : DbMem.access lossy cwd ⟨db, w.tree⟩ n (c.run p) with
    | none => exact hw.nothing hdb n
    | some rx =>
      obtain ⟨live, hlive, -⟩ := Option.map_eq_some_iff.1 hacc
      exact hw.callNamed_access hlossy hR hdb (hw.opened root db n live hdb hlive) hacc
  | deleteTable n =>
    obtain rfl := hname n rfl
    have hrun : DbCall.run p lossy cwd ⟨db, w.tree⟩ (.deleteTable n) =
        DbMem.deleteTable lossy cwd ⟨db, w.tree⟩ n := rfl
    rw [hrun]
    by_cases hm : n ∈ names root
    · obtain ⟨x, hdelete, hcall⟩ := hw.callNamed_deleteTable hlossy hR hdb hm
      rw [hdelete]
      exact hcall
    · unfold DbMem.deleteTable
      split
      · exact hw.nothing hdb n
      next hvalid =>
      rw [if_neg (mt (hw.exists_iff hR hdb hvalid).1 hm)]
      exact hw.nothing hdb n
  | listTables => exact hw.nothing hdb name

end Calls

end FerrumDB
