import FerrumDB.Store.Write
import Mathlib.Data.List.Perm.Basic

/-!
# Opening a directory

The table files of a directory are found in the order of their names and put in the order of their
ids, newest first (`does_loadSstables`). Opening a directory that holds the layers `L`, with whatever
remains at the end of its log, gives a store that agrees with `L.reopen` and a clean log
(`does_openWithDir`).
-/

namespace FerrumDB

open FramedLog

variable {env : Env} {s : Store} {d d' : Disk} {L : Layers} {junk : List WalEntry} {t : Bytes}
  {p : Prost} {tables : List (ℕ × Memtable)} {dir : List (ℕ × SsTable)}

/-! ## The listing of a directory -/

/-- The table files of the directory, newest first, and the handles they open to. -/
structure Lists (d : Disk) (dir : List (ℕ × SsTable)) : Prop where
  parse : ∀ x ∈ dir, ∃ f, d.files[sstName x.1]? = some f ∧ SsTable.parse (sstName x.1) f = .ok x.2
  descending : dir.Pairwise fun x y => y.1 < x.1
  ids : ∀ x ∈ dir, x.1 + 1 < 2 ^ 64
  files : ∀ name f, d.files[name]? = some f →
    name = "LOCK" ∨ name = walName ∨ ∃ x ∈ dir, name = sstName x.1

/-- The handles a directory of stored tables opens to. -/
def freshHandles (p : Prost) (tables : List (ℕ × Memtable)) : List (ℕ × SsTable) :=
  tables.map fun x => (x.1, freshTable p (sstName x.1) x.2.toList)

theorem TablesStored.lists (h : TablesStored p d tables) : Lists d (freshHandles p tables) where
  parse x hx := by
    obtain ⟨y, hy, rfl⟩ := List.mem_map.1 hx
    obtain ⟨f, hf, hholds⟩ := h.table y hy
    exact ⟨f, hf, parse_of_holds hholds _⟩
  descending := by
    unfold freshHandles
    rw [List.pairwise_map]
    exact h.descending
  ids x hx := by
    obtain ⟨y, hy, rfl⟩ := List.mem_map.1 hx
    exact h.ids y hy
  files name f hname := by
    rcases h.files name f hname with h | h | ⟨y, hy, h⟩
    · exact Or.inl h
    · exact Or.inr (Or.inl h)
    · exact Or.inr (Or.inr ⟨_, List.mem_map_of_mem hy, h⟩)

/-- The listing entry of a file name. -/
def entryOfName (dir : List (ℕ × SsTable)) (name : FileName) : Option (ℕ × SsTable) :=
  dir.find? fun x => sstName x.1 = name

theorem entryOfName_eq_none {name : FileName} (h : ∀ x ∈ dir, sstName x.1 ≠ name) :
    entryOfName dir name = none := by
  unfold entryOfName
  rw [List.find?_eq_none]
  intro x hx
  simpa using h x hx

/-- An id has one handle. -/
theorem Lists.eq_of_id (h : Lists d dir) {x y : ℕ × SsTable} (hx : x ∈ dir) (hy : y ∈ dir)
    (hid : x.1 = y.1) : x = y := by
  have hnodup : (dir.map Prod.fst).Nodup := by
    rw [List.Nodup, List.pairwise_map]
    exact h.descending.imp fun hlt heq => by omega
  exact List.inj_on_of_nodup_map hnodup hx hy hid

theorem Lists.entryOfName_of_mem (h : Lists d dir) {x : ℕ × SsTable} (hx : x ∈ dir) :
    entryOfName dir (sstName x.1) = some x := by
  cases hf : entryOfName dir (sstName x.1) with
  | none =>
    have := List.find?_eq_none.1 hf x hx
    simp at this
  | some y =>
    have hname : sstName y.1 = sstName x.1 := by simpa using List.find?_some hf
    rw [h.eq_of_id (List.mem_of_find?_eq_some hf) hx (sstName_injective hname)]

/-- The listing entries of the names of the directory are the listing, in another order. -/
theorem Lists.perm (h : Lists d dir) : (d.files.keys.filterMap (entryOfName dir)).Perm dir := by
  have hkeys : d.files.keys.Nodup :=
    d.files.distinct_keys.imp fun hne heq => hne (Std.compare_eq_iff_eq.2 heq)
  have hnames : (dir.map fun x => sstName x.1).Nodup := by
    rw [List.Nodup, List.pairwise_map]
    exact h.descending.imp fun hlt heq => by rw [sstName_injective heq] at hlt; omega
  have hback : (dir.map fun x => sstName x.1).filterMap (entryOfName dir) = dir := by
    rw [List.filterMap_map]
    calc dir.filterMap (entryOfName dir ∘ fun x => sstName x.1)
        = dir.filterMap some := List.filterMap_congr fun x hx => h.entryOfName_of_mem hx
      _ = dir := List.filterMap_some
  have hperm : (d.files.keys.filter fun n => (entryOfName dir n).isSome).Perm
      (dir.map fun x => sstName x.1) := by
    refine (List.perm_ext_iff_of_nodup (hkeys.filter _) hnames).2 fun name => ?_
    rw [List.mem_filter, Std.ExtTreeMap.mem_keys, Std.ExtTreeMap.mem_iff_isSome_getElem?,
      List.mem_map]
    constructor
    · rintro ⟨-, hsome⟩
      obtain ⟨x, hx⟩ := Option.isSome_iff_exists.1 hsome
      exact ⟨x, List.mem_of_find?_eq_some hx, by simpa using List.find?_some hx⟩
    · rintro ⟨x, hx, rfl⟩
      obtain ⟨f, hf, -⟩ := h.parse x hx
      rw [hf, h.entryOfName_of_mem hx]
      exact ⟨rfl, rfl⟩
  have hfilter : ∀ l : List FileName, l.filterMap (entryOfName dir) =
      (l.filter fun n => (entryOfName dir n).isSome).filterMap (entryOfName dir) := by
    intro l
    induction l with
    | nil => rfl
    | cons n l ih =>
      cases hn : entryOfName dir n with
      | none => simp [hn, ih]
      | some x => simp [hn, ih]
  rw [hfilter]
  have := hperm.filterMap (entryOfName dir)
  rwa [hback] at this

/-! ## Loading the tables -/

theorem does_openFound (h : Lists d dir) (names : List FileName)
    (hnames : ∀ n ∈ names, ∃ f, d.files[n]? = some f) (found : List (ℕ × SsTable))
    {Q : List (ℕ × SsTable) → Store → Disk → Prop} {E : Stop → Store → Disk → Prop}
    (hQ : Q (found ++ names.filterMap (entryOfName dir)) s d) (hE : ∀ e, env.Faults offLog e → E e s d) :
    Does env (Store.openFound names found) s d Q E := by
  induction names generalizing found with
  | nil =>
    rw [List.filterMap_nil, List.append_nil] at hQ
    exact .pure hQ
  | cons name names ih =>
    obtain ⟨f, hf⟩ := hnames name (List.mem_cons_self ..)
    have ih := ih fun n hn => hnames n (List.mem_cons_of_mem _ hn)
    have hother : sstableIdFromPath name = none →
        Does env (Store.openFound (name :: names) found) s d Q E := by
      intro hnone
      have hentry : entryOfName dir name = none := entryOfName_eq_none fun x hx heq => by
        have hid := h.ids x hx
        rw [← heq, sstableIdFromPath_sstName (by omega)] at hnone
        cases hnone
      unfold Store.openFound
      rw [hnone]
      rw [List.filterMap_cons_none hentry] at hQ
      exact ih found hQ
    rcases h.files name f hf with rfl | rfl | ⟨x, hx, rfl⟩
    · exact hother sstableIdFromPath_lock
    · exact hother sstableIdFromPath_walName
    · have hid := h.ids x hx
      obtain ⟨f', hf', hparse⟩ := h.parse x hx
      unfold Store.openFound
      rw [sstableIdFromPath_sstName (by omega)]
      rw [List.filterMap_cons_some (h.entryOfName_of_mem hx)] at hQ
      refine Does.bind (does_open hf' ?_ fun e he => hE e (he.mono fun c hc => ?_))
      · rw [hparse]
        refine ih _ ?_
        rw [List.append_assoc]
        exact hQ
      · unfold offLog; rw [show c.path = sstName x.1 from hc]; exact sstName_ne_walName _

/-- One past the newest id. -/
def nextIdOfDir : List (ℕ × SsTable) → ℕ
  | [] => 1
  | x :: _ => x.1 + 1

theorem Lists.nextIdAfter (h : Lists d dir) {found : List (ℕ × SsTable)} (hp : found.Perm dir) :
    FerrumDB.nextIdAfter found = .ok (nextIdOfDir dir) := by
  have hmem : ∀ {x}, x ∈ found ↔ x ∈ dir := fun {x} => hp.mem_iff
  unfold FerrumDB.nextIdAfter
  rw [if_neg]
  · congr 1
    cases dir with
    | nil =>
      rw [List.perm_nil.1 hp]
      rfl
    | cons x dir =>
      have hmax : (found.map fun x => x.1 + 1).max? = some (x.1 + 1) := by
        rw [List.max?_eq_some_iff]
        refine ⟨List.mem_map.2 ⟨x, hmem.2 (List.mem_cons_self ..), rfl⟩, fun n hn => ?_⟩
        obtain ⟨y, hy, rfl⟩ := List.mem_map.1 hn
        rcases List.mem_cons.1 (hmem.1 hy) with rfl | hy
        · exact le_rfl
        · have := (List.pairwise_cons.1 h.descending).1 y hy
          omega
      rw [hmax]
      rfl
  · intro hany
    obtain ⟨x, hx, hle⟩ := List.any_eq_true.1 hany
    have := h.ids x (hmem.1 hx)
    simp only [decide_eq_true_eq] at hle
    omega

theorem Lists.insertionSort (h : Lists d dir) {found : List (ℕ × SsTable)} (hp : found.Perm dir) :
    (found.insertionSort fun a b => b.1 ≤ a.1) = dir := by
  let r : ℕ × SsTable → ℕ × SsTable → Prop := fun a b => b.1 ≤ a.1
  have _ : Std.Total r := ⟨fun a b => Nat.le_total b.1 a.1⟩
  have _ : IsTrans _ r := ⟨fun a b c hab hbc => Nat.le_trans hbc hab⟩
  have hsort : (found.insertionSort r).Pairwise r := List.pairwise_insertionSort r found
  have hperm : (found.insertionSort r).Perm dir := (List.perm_insertionSort r found).trans hp
  refine List.Perm.eq_of_pairwise (fun a b ha hb hab hba => ?_) hsort
    (h.descending.imp fun hlt => Nat.le_of_lt hlt) hperm
  exact h.eq_of_id (hperm.mem_iff.1 ha) hb (Nat.le_antisymm hba hab)

/-- A failing listing counts as none. -/
theorem does_tryReadDir_faulty {Q : Option (List FileName) → Store → Disk → Prop} {E : Stop → Store → Disk → Prop}
    (hQ : Q (some d.files.keys) s d) (hblind : ∀ e, env.Faults (· = ⟨.readDir, ""⟩) (.err e) → Q none s d)
    (hE : ∀ e, env.Faults (· = ⟨.readDir, ""⟩) e → E e s d) : Does env tryReadDir s d Q E := by
  have hcall : Does env readDir s d (fun r a' d' => Q (some r) a' d') fun e a' d' =>
      (∀ i, e = .err i → Q none a' d') ∧ ((∀ i, e ≠ .err i) → E e a' d') := by
    refine does_readDir hQ fun e he => ⟨?_, fun _ => hE e he⟩
    rintro i rfl
    exact hblind i he
  intro clock
  have hc := hcall clock
  unfold CrashLogic.wp tryReadDir at *
  cases hr : readDir (⟨s, d, env, clock⟩ : Mem Store) with
  | ok names s' => rw [hr] at hc; exact hc
  | error e s' =>
    rw [hr] at hc
    cases e with
    | err e => exact ⟨hc.1, hc.2.1 e rfl⟩
    | panic => exact ⟨hc.1, hc.2.2 nofun⟩
    | crash => exact ⟨hc.1, hc.2.2 nofun⟩

theorem does_tryReadDir (henv : env.Spares offLog) {E : Stop → Store → Disk → Prop} :
    Does env tryReadDir s d (fun r a' d' => r = some d.files.keys ∧ a' = s ∧ d' = d) E := by
  have hcall : ∀ e, ¬ env.Faults (· = ⟨.readDir, ""⟩) e := fun e he =>
    henv.not_faults (he.mono fun c hc => by unfold offLog; rw [hc]; exact (by decide : ("" : FileName) ≠ walName))
  exact does_tryReadDir_faulty ⟨rfl, rfl, rfl⟩ (fun _ he => (hcall _ he).elim) fun e he => (hcall e he).elim

/-- **Loading.** The handles of the directory, newest first, and the next id after them; none if the listing
fails. -/
theorem does_loadSstables_faulty (h : Lists d dir) {Q : Unit → Store → Disk → Prop}
    {E : Stop → Store → Disk → Prop}
    (hQ : Q () { s with nextSstableId := nextIdOfDir dir, sstables := dir.map Prod.snd } d)
    (hblind : ∀ e, env.Faults (· = ⟨.readDir, ""⟩) (.err e) → Q () s d)
    (hE : ∀ e, env.Faults offLog e → E e s d) :
    Does env Store.loadSstables s d Q E := by
  have hlist : ∀ e, env.Faults (· = ⟨.readDir, ""⟩) e → env.Faults offLog e := fun e he =>
    he.mono fun c hc => by unfold offLog; rw [hc]; exact (by decide : ("" : FileName) ≠ walName)
  unfold Store.loadSstables
  refine Does.bind (does_tryReadDir_faulty ?_ (fun e he => .pure (hblind e he)) fun e he => hE e (hlist e he))
  dsimp only
  have hkeys : ∀ n ∈ d.files.keys, ∃ f, d.files[n]? = some f := fun n hn =>
    Option.isSome_iff_exists.1 (Std.ExtTreeMap.mem_iff_isSome_getElem?.1 (Std.ExtTreeMap.mem_keys.1 hn))
  refine Does.bind (does_openFound h _ hkeys [] ?_ hE)
  rw [List.nil_append]
  have hnext := h.nextIdAfter h.perm
  refine Does.bind (.ofStop (fun n hn => ?_) fun e he => by rw [hnext] at he; cases he)
  rw [hnext] at hn
  cases hn
  refine .modifySelf ?_
  rw [h.insertionSort h.perm]
  exact hQ

theorem does_loadSstables (h : Lists d dir) (henv : env.Spares offLog) {Q : Unit → Store → Disk → Prop}
    {E : Stop → Store → Disk → Prop}
    (hQ : Q () { s with nextSstableId := nextIdOfDir dir, sstables := dir.map Prod.snd } d) :
    Does env Store.loadSstables s d Q E :=
  does_loadSstables_faulty h hQ
    (fun _ he => (henv.not_faults (he.mono fun c hc => by
      unfold offLog; rw [hc]; exact (by decide : ("" : FileName) ≠ walName))).elim)
    fun _ he => (henv.not_faults he).elim

/-! ## Opening -/

theorem freshHandles_forall₂ (tables : List (ℕ × Memtable)) :
    List.Forall₂ (SsTable.HandleOf p) ((freshHandles p tables).map Prod.snd) tables := by
  induction tables with
  | nil => exact .nil
  | cons x tables ih => exact .cons ⟨rfl, serves_freshTable _ _⟩ ih

theorem nextIdOfDir_freshHandles (tables : List (ℕ × Memtable)) :
    nextIdOfDir (freshHandles p tables) = nextIdOf tables := by cases tables <;> rfl

/-- The next id is past all ids. -/
theorem lt_nextIdOf (h : tables.Pairwise fun x y => y.1 < x.1) : ∀ x ∈ tables, x.1 < nextIdOf tables := by
  intro x hx
  cases tables with
  | nil => cases hx
  | cons y ys =>
    rcases List.mem_cons.1 hx with rfl | hx
    · exact Nat.lt_succ_self _
    · exact Nat.lt_succ_of_lt ((List.pairwise_cons.1 h).1 x hx)

theorem nextIdOf_lt (h : ∀ x ∈ tables, x.1 + 1 < 2 ^ 64) : nextIdOf tables < 2 ^ 64 := by
  cases tables with
  | nil => decide
  | cons y ys => exact h y (List.mem_cons_self ..)

theorem LogStored.committed_eq {log : List WalEntry} {data : Memtable}
    (h : LogStored p d log data junk t) : committedPart (log ++ junk) = log := by
  rw [committedPart, committed_append_unmarked isCommit log h.unmarked]
  exact h.closed

/-- **Replaying the log** of the directory into a store without a memtable; nothing is replayed if the look
for the log fails. -/
theorem does_replayWal_faulty (hp : p.Lawful) {log : List WalEntry} {data : Memtable}
    (h : LogStored p d log data junk t) {base : Store} (hlog : base.OnLog d) (hbase : base = base.holding ∅ 0)
    {Q : Unit → Store → Disk → Prop} {E : Stop → Store → Disk → Prop}
    (hQ : ∀ w' d', w'.filePath = walName → w'.Live d' →
      d.Becomes walName (logBytes p log) (logBytes p log).length d' →
      Q () (Store.holding { base with wal := w' } data (lastSequence log)) d')
    (hblind : ∀ e, env.Faults (· = ⟨.exists, walName⟩) (.err e) → Q () base d)
    (hE : ∀ e s' d', env.Faults (onPath walName) e →
      (d' = d ∨ d.Becomes walName (logBytes p log) (logBytes p log).length d') → E e s' d') :
    Does env (Store.replayWal p) base d Q E := by
  have hcommitted := h.committed_eq
  have hpath := hlog.path
  have hb0 : ∀ w, Store.holding { base with wal := w } ∅ 0 = { base with wal := w } := by
    intro w
    conv => rhs; rw [hbase]
    rfl
  unfold Store.replayWal
  refine Does.bind (Does.onField (does_readForRecovery_faulty hp hlog.live (by rw [hpath]; exact h.bytes) h.torn
    (by rw [hpath, hcommitted]; exact h.synced) (fun w' d' hw' hlive hb => ?_) (fun e he => ?_)
    fun e d' he hd' => ?_))
  · rw [hcommitted]
    rw [hpath] at hw'
    rw [hpath, hcommitted] at hb
    have hreplay := h.replays { base with wal := w' }
    rw [hb0] at hreplay
    refine .withSelf (Does.bind (.ofStop (fun r hr => ?_) fun e he => ?_))
    · rw [hreplay] at hr
      cases hr
      exact .setSelf (hQ w' d' hw' hlive hb)
    · rw [hreplay] at he
      cases he
  · rw [hpath] at he
    exact .withSelf (Does.bind (.ofStop (fun r hr => by cases hr; exact .setSelf (hblind e he)) fun e he => nomatch he))
  · rw [hpath] at he hd'
    rw [hcommitted] at hd'
    exact hE e _ d' he hd'

theorem does_replayWal (hp : p.Lawful) (henv : env.Spares (onPath walName)) {log : List WalEntry}
    {data : Memtable} (h : LogStored p d log data junk t) {base : Store} (hlog : base.OnLog d)
    (hbase : base = base.holding ∅ 0) {Q : Unit → Store → Disk → Prop} {E : Stop → Store → Disk → Prop}
    (hQ : ∀ w' d', w'.filePath = walName → w'.Live d' →
      d.Becomes walName (logBytes p log) (logBytes p log).length d' →
      Q () (Store.holding { base with wal := w' } data (lastSequence log)) d') :
    Does env (Store.replayWal p) base d Q E :=
  does_replayWal_faulty hp h hlog hbase hQ
    (fun _ he => (henv.not_faults (he.mono fun c hc => by rw [hc]; rfl)).elim)
    fun _ _ _ he => (henv.not_faults he).elim

/-- A lock file, possibly new, changes nothing else. -/
theorem files_lock (d : Disk) {n : FileName} (hn : n ≠ "LOCK") :
    (if d.files.contains "LOCK" then d else d.put "LOCK" File.empty).files[n]? = d.files[n]? := by
  split
  · rfl
  · rw [Disk.files_put, if_neg (Ne.symm hn)]

/-- The disk with a lock file. -/
def Disk.withLockFile (d : Disk) : Disk := if d.files.contains "LOCK" then d else d.put "LOCK" File.empty

theorem Disk.locked_withLockFile (d : Disk) : d.withLockFile.locked = d.locked := by
  unfold Disk.withLockFile
  split <;> rfl

/-- The lock is taken, or the call fails and counts as refused. -/
theorem does_flock_faulty {Q : Bool → Store → Disk → Prop} {E : Stop → Store → Disk → Prop}
    (hQ : Q (!d.locked) s { d with locked := true })
    (hE : ∀ e, env.Faults (· = ⟨.flock, "LOCK"⟩) e →
      match e with
      | .err _ => Q false s d
      | e => E e s d) : Does env flock s d Q E := by
  have hcall : Does env (ioCall ⟨.flock, "LOCK"⟩ noEffect
      (fun d => (.ok (!d.locked), { d with locked := true })) : Prog Store Bool) s d Q
      (fun e a' d' => match e with | .err _ => Q false a' d' | e => E e a' d') :=
    .ioCall_noEffect hQ hE
  intro clock
  have h := hcall clock
  unfold CrashLogic.wp FerrumDB.flock at *
  cases hc : (ioCall ⟨.flock, "LOCK"⟩ noEffect
      (fun d => (.ok (!d.locked), { d with locked := true })) : Prog Store Bool) ⟨s, d, env, clock⟩ with
  | ok r s' => rw [hc] at h; exact h
  | error e s' =>
    rw [hc] at h
    cases e with
    | err e => exact h
    | panic => exact h
    | crash => exact h

theorem does_flock {Q : Bool → Store → Disk → Prop} {E : Stop → Store → Disk → Prop}
    (henv : env.Spares offLog) (hQ : Q (!d.locked) s { d with locked := true }) :
    Does env flock s d Q E :=
  does_flock_faulty hQ fun _ he => (henv.not_faults (he.mono fun c hc => by
    unfold offLog; rw [hc]; exact (by decide : ("LOCK" : FileName) ≠ walName))).elim

theorem Does.dropOnStop {c : Prog Store Unit} {Q : Unit → Store → Disk → Prop}
    {E : Stop → Store → Disk → Prop}
    (h : Does env c s d Q fun e a' d' => E e a' { d' with locked := false }) :
    Does env (Store.dropOnStop c) s d Q E := by
  intro clock
  have h := h clock
  unfold CrashLogic.wp Store.dropOnStop at *
  cases hc : c ⟨s, d, env, clock⟩ with
  | ok r s' => rw [hc] at h; exact h
  | error e s' => rw [hc] at h; exact h

/-- The disk a store opens on: locked, with a lock file. -/
def Disk.lockedBy (d : Disk) : Disk :=
  { (if d.files.contains "LOCK" then d else d.put "LOCK" File.empty) with locked := true }

theorem Disk.files_lockedBy (d : Disk) {n : FileName} (hn : n ≠ "LOCK") :
    d.lockedBy.files[n]? = d.files[n]? := files_lock d hn

theorem TablesStored.lockedBy {tables : List (ℕ × Memtable)} (h : TablesStored p d tables) :
    TablesStored p d.lockedBy tables where
  table x hx := by rw [d.files_lockedBy (sstName_ne_lock _)]; exact h.table x hx
  descending := h.descending
  ids := h.ids
  files name f hname := by
    by_cases hl : name = "LOCK"
    · exact Or.inl hl
    · rw [d.files_lockedBy hl] at hname
      exact h.files name f hname

/-- The first steps of opening: the lock is taken and a fresh store starts to load. -/
theorem does_openWithDir_start {dirName : String} (henv : env.Spares offLog) (hfree : d.locked = false)
    {Q : Unit → Store → Disk → Prop} {E : Stop → Store → Disk → Prop}
    (h : Does env (do Store.loadSstables; Store.replayWal p) (Store.fresh dirName ⟨walName, false⟩)
      d.lockedBy Q fun e a' d' => E e a' { d' with locked := false }) :
    Does env (Store.openWithDir p dirName) s d Q E := by
  have hdir : ∀ e, ¬ env.Faults (· = ⟨.createDirAll, ""⟩) e := fun e he =>
    henv.not_faults (he.mono fun c hc => by
      unfold offLog; rw [hc]; exact (by decide : ("" : FileName) ≠ walName))
  have hlock : ∀ e, ¬ env.Faults (· = ⟨.openLock, "LOCK"⟩) e := fun e he =>
    henv.not_faults (he.mono fun c hc => by
      unfold offLog; rw [hc]; exact (by decide : ("LOCK" : FileName) ≠ walName))
  have hfree' : (if d.files.contains "LOCK" then d else d.put "LOCK" File.empty).locked = false := by
    split <;> exact hfree
  unfold Store.openWithDir
  refine Does.bind (does_createDirAll ?_ fun e he => (hdir e he).elim)
  refine Does.bind (.ioCall_noEffect ?_ fun e he => (hlock e he).elim)
  refine Does.bind (does_flock henv ?_)
  rw [hfree', if_neg (by simp)]
  refine .dropOnStop (Does.bind (Does.bind (.ignoreErr (does_createDirAll ?_ fun e he =>
    (hdir e he).elim))))
  exact .pure (Does.bind (.setSelf h))

/-- A log that is cut after its last COMMIT. -/
theorem LogStored.cut {log : List WalEntry} {data : Memtable} (h : LogStored p d log data junk t)
    (hb : d.Becomes walName (logBytes p log) (logBytes p log).length d') : LogStored p d' log data [] [] where
  bytes := by rw [hb.bytes, List.append_nil, List.append_nil]
  synced := by rw [hb.synced]
  closed := h.closed
  unmarked e he := by cases he
  torn := torn_nil _ _
  replays := h.replays

/-- The listing of the directory and the look for the log do not fail, though a crash may fall on them. -/
def Env.Looks (env : Env) : Prop :=
  ∀ c e, c = ⟨.readDir, ""⟩ ∨ c = ⟨.exists, walName⟩ → ¬ env.Faults (· = c) (.err e)

/-- Loading the tables and the log into a fresh store, whatever fails. Without a failing look the store agrees
with the layers. -/
theorem does_load_faulty (hp : p.Lawful) {dirName : String} (h : Stored p d L junk t) (hlocked : d.locked = true)
    {Q : Unit → Store → Disk → Prop} {E : Stop → Store → Disk → Prop}
    (hQ : ∀ s' d' junk t, (env.Looks → Agrees p s' d' L.reopen [] []) → Stored p d' L junk t → Q () s' d')
    (hE : ∀ e s' d' junk t, env.Faults (fun _ => True) e → Stored p d' L junk t → E e s' d') :
    Does env (do Store.loadSstables; Store.replayWal p) (Store.fresh dirName ⟨walName, false⟩) d Q E := by
  have hany : ∀ {P : IoCall → Prop} e, env.Faults P e → env.Faults (fun _ => True) e := fun e he =>
    he.mono fun _ _ => trivial
  have hstop : ∀ e s' d', env.Faults (onPath walName) e →
      (d' = d ∨ d.Becomes walName (logBytes p L.log) (logBytes p L.log).length d') → E e s' d' := by
    rintro e s' d' he (rfl | hb)
    · exact hE e s' d' junk t (hany e he) h
    · exact hE e s' d' [] [] (hany e he) { h.toTablesStored.frame hb.others, h.toLogStored.cut hb with }
  have hbase : ∀ hs n, ({ Store.fresh dirName ⟨walName, false⟩ with nextSstableId := n, sstables := hs } : Store) =
      Store.holding { Store.fresh dirName ⟨walName, false⟩ with nextSstableId := n, sstables := hs } ∅ 0 := by
    intro hs n
    unfold Store.holding
    rw [OrderedMap.total_empty]
    rfl
  refine Does.bind (does_loadSstables_faulty h.lists ?_ (fun e he => ?_) fun e he => hE e _ d junk t (hany e he) h)
  · refine does_replayWal_faulty hp h.toLogStored ⟨rfl, fun hopen => by cases hopen⟩ (hbase _ _)
      (fun w' d' hw' hlive hb => ?_) (fun e he => ?_) hstop
    · have hlogged := h.toLogStored.cut hb
      have hnext := nextIdOfDir_freshHandles (p := p) L.tables
      refine hQ _ d' [] [] (fun _ => ?_) { h.toTablesStored.frame hb.others, hlogged with }
      exact { h.toTablesStored.frame hb.others, hlogged with
        data := rfl
        counted := counted_holding _ _ _
        budget := rfl
        sequence := rfl
        nextId := hnext
        handles := freshHandles_forall₂ L.tables
        below := lt_nextIdOf h.descending
        nextId_lt := nextIdOf_lt h.ids
        path := hw'
        live := hlive
        locked := hb.locked.trans hlocked }
    · exact hQ _ d junk t (fun hlooks => (hlooks _ e (Or.inr rfl) he).elim) h
  · -- a store without tables replays the log as well
    refine does_replayWal_faulty hp h.toLogStored ⟨rfl, fun hopen => by cases hopen⟩ (hbase [] 1)
      (fun w' d' hw' hlive hb => ?_) (fun e' he' => ?_) hstop
    · exact hQ _ d' [] [] (fun hlooks => (hlooks _ e (Or.inl rfl) he).elim)
        { h.toTablesStored.frame hb.others, h.toLogStored.cut hb with }
    · exact hQ _ d junk t (fun hlooks => (hlooks _ e (Or.inl rfl) he).elim) h

theorem Env.quiet_looks : Env.quiet.Looks := fun _ _ _ => Env.not_faults_quiet

theorem does_load (hp : p.Lawful) {dirName : String} (h : Stored p d L junk t) (hlocked : d.locked = true)
    {Q : Unit → Store → Disk → Prop} (hQ : ∀ s' d', Agrees p s' d' L.reopen [] [] → Q () s' d') :
    Returns (do Store.loadSstables; Store.replayWal p) (Store.fresh dirName ⟨walName, false⟩) d Q :=
  does_load_faulty hp h hlocked (fun s' d' _ _ h' _ => hQ s' d' (h' Env.quiet_looks))
    fun _ _ _ _ _ he _ => absurd he Env.not_faults_quiet

/-- **Opening.** A directory that holds the layers opens to a store that agrees with them, whatever
remains at the end of its log. -/
theorem does_openWithDir (hp : p.Lawful) {dirName : String} (h : Stored p d L junk t)
    (hfree : d.locked = false) {Q : Unit → Store → Disk → Prop}
    (hQ : ∀ s' d', Agrees p s' d' L.reopen [] [] → Q () s' d') :
    Returns (Store.openWithDir p dirName) s d Q := by
  have hlog : LogStored p d.lockedBy L.log L.data junk t :=
    h.toLogStored.frame (d.files_lockedBy (by decide))
  have hstored : Stored p d.lockedBy L junk t := { h.toTablesStored.lockedBy, hlog with }
  exact does_openWithDir_start (Env.quiet_spares _) hfree
    ((does_load hp hstored rfl hQ).mono (fun _ _ _ hq => hq) fun _ _ _ he => he.elim)

end FerrumDB
