import FerrumDB.Lib.Cost
import FerrumDB.Store.Write

/-!
# How many I/O calls an operation makes

The clock of the environment counts the I/O calls, so a bound on it holds whatever they do: return, fail or
stop the process. A point read opens and reads at most one block of each table that may hold its key, and
nothing if the memtable has it; a scan reads the blocks of the tables that overlap it; a batch of `n` writes
makes at most `n + 3` calls before its flush, and the open handle of the log is what makes it so few
(`io_cost`).
-/

namespace FerrumDB

open CrashLogic

variable {σ α : Type} {p : Prost} {key : Bytes} {lo hi : Bound}

/-! ## What the bounds count -/

/-- The table may hold the key: it has blocks, and neither its key range nor its filter excludes the key. -/
def SsTable.admits (t : SsTable) (key : Bytes) : Bool :=
  decide (t.index ≠ []) && !t.outOfRange key && match t.passesBloom key with
    | .ok b => b
    | .error _ => false

/-- The calls that read the whole table: one for the file, and one for each block. -/
def SsTable.blockReads (t : SsTable) : ℕ := if t.index = [] then 0 else t.index.length + 1

/-- The table may hold keys within the bounds. -/
def SsTable.overlaps (t : SsTable) (lo hi : Bound) : Bool :=
  !match t.keyRange with
    | some (min, max) => !rangeOverlaps min max lo hi
    | none => false

def Store.readCalls (s : Store) (key : Bytes) : ℕ :=
  if s.data.contains key then 0 else 2 * s.sstables.countP (·.admits key)

def Store.scanCalls (s : Store) (lo hi : Bound) : ℕ :=
  ((s.sstables.filter (·.overlaps lo hi)).map SsTable.blockReads).sum

/-- Read every table, write one, and remove every old file. -/
def Store.compactCalls (s : Store) : ℕ := (s.sstables.map SsTable.blockReads).sum + 4 + s.sstables.length

/-- Write a table and clear the log, and compact the tables if there are too many. -/
def Store.flushCalls (p : Prost) (s : Store) : ℕ :=
  6 + if s.sstables.length + 1 > MAX_SSTABLES then (s.flushed p).compactCalls else 0

/-! ## Calls -/

/-- From `x`, the program makes at most `k` I/O calls, and returns with `Q` or stops. -/
abbrev Makes (c : Prog σ α) (x : Mem σ) (k : ℕ) (Q : α → Mem σ → Prop) : Prop := Costs Mem.clock c x k Q

theorem makes_ioCall {c : IoCall} {torn : TornEffect} {act : Disk → Except String α × Disk} {x : Mem σ} :
    Makes (ioCall c torn act) x 1 fun _ y => y.self = x.self := by
  unfold Makes Costs wp ioCall
  cases x.env x.clock c with
  | none =>
    dsimp only
    cases act x.disk with
    | mk r d =>
      cases r with
      | ok r => exact ⟨Nat.le_refl _, rfl⟩
      | error msg => exact Nat.le_refl _
  | some f => cases f <;> exact Nat.le_refl _

theorem makes_setSelf {a : σ} {x : Mem σ} : Makes (setSelf a) x 0 fun _ y => y.self = a := ⟨Nat.le_refl _, rfl⟩

/-- A program that begins by reading the receiver. -/
theorem costs_withSelf {count : Mem σ → ℕ} {f : σ → Prog σ α} {x : Mem σ} {k : ℕ} {Q : α → Mem σ → Prop}
    (h : Costs count (f x.self) x k Q) : Costs count (self >>= f) x k Q := by
  have hself : Costs count self x 0 fun r y => r = x.self ∧ y = x := ⟨Nat.le_refl _, rfl, rfl⟩
  refine hself.step ?_
  rintro _ _ ⟨rfl, rfl⟩
  exact h

theorem costs_ofStop {count : Mem σ → ℕ} {r : Except Stop α} {x : Mem σ} {k : ℕ} {Q : α → Mem σ → Prop}
    (h : ∀ a, r = .ok a → Q a x) : Costs count (ofStop r) x k Q := by
  cases r with
  | ok a => exact .pure (h a rfl)
  | error e => exact .throw

theorem costs_ofExcept {count : Mem σ → ℕ} {r : Except AppError α} {x : Mem σ} {k : ℕ} {Q : α → Mem σ → Prop}
    (h : ∀ a, r = .ok a → Q a x) : Costs count (ofExcept r) x k Q := by
  cases r with
  | ok a => exact .pure (h a rfl)
  | error e => exact .throw

/-- Ignoring a failure saves no call. -/
theorem costs_ignoreErr {count : Mem σ → ℕ} {c : Prog σ α} {x : Mem σ} {k : ℕ}
    (h : Costs count c x k fun _ _ => True) : Costs count (ignoreErr c) x k fun _ _ => True := by
  unfold Costs wp FerrumDB.ignoreErr at *
  cases hc : c x with
  | ok a y => rw [hc] at h; exact h
  | error e y =>
    rw [hc] at h
    cases e with
    | err e => exact ⟨h, trivial⟩
    | panic => exact h
    | crash => exact h

theorem makes_onField {τ : Type} {get : σ → τ} {put : τ → σ → σ} {c : Prog τ α} {x : Mem σ} {k : ℕ}
    {Q : α → Mem σ → Prop}
    (h : Makes c { x with self := get x.self } k fun a y => Q a { y with self := put y.self x.self }) :
    Makes (onField get put c) x k Q := by
  unfold onField
  exact Costs.zoom rfl (fun _ => rfl) h

/-! ## Reads -/

theorem makes_readBlock {path : FileName} {e : IndexEntry} {x : Mem σ} :
    Makes (readBlockFromDisk path e) x 1 fun _ y => y.self = x.self := by
  unfold readBlockFromDisk
  exact makes_ioCall.last fun _ _ hy => costs_ofStop fun _ _ => hy

theorem makes_cachedBlock {e : IndexEntry} {x : Mem SsTable} : Makes (SsTable.cachedBlock e) x 2 fun _ _ => True := by
  unfold SsTable.cachedBlock
  refine costs_withSelf ?_
  split
  · exact (makes_setSelf.step fun _ _ _ => .pure trivial).le (Nat.zero_le 2)
  · show Makes _ x (1 + 1) _
    refine makes_ioCall.bind fun _ y _ => ?_
    exact makes_readBlock.last fun _ z _ => ⟨Nat.le_refl _, trivial⟩

/-- A lookup in one table makes two calls at most, and none if the table does not admit the key. -/
theorem makes_get {x : Mem SsTable} :
    Makes (SsTable.get p key) x (if x.self.admits key then 2 else 0) fun _ _ => True := by
  unfold SsTable.get SsTable.admits
  refine costs_withSelf ?_
  by_cases hnil : x.self.index = []
  · rw [if_pos hnil]
    exact .pure trivial
  rw [if_neg hnil]
  by_cases hrange : x.self.outOfRange key = true
  · rw [if_pos hrange]
    exact .pure trivial
  rw [if_neg hrange]
  cases hbloom : x.self.passesBloom key with
  | error e => exact Costs.step (R := fun _ _ => False) .throw fun _ _ hfalse => hfalse.elim
  | ok b =>
    refine Costs.step (R := fun r y => r = b ∧ y = x) (.pure ⟨rfl, rfl⟩) fun r y hr => ?_
    obtain ⟨hr, rfl⟩ := hr
    rw [hr]
    cases b with
    | false => exact .pure trivial
    | true =>
      rw [if_neg (by simp), if_pos (by simp [hnil, hrange])]
      cases y.self.locate key with
      | none => exact .pure trivial
      | some e => exact makes_cachedBlock.last fun _ _ _ => costs_ofExcept fun _ _ => trivial

/-- A lookup in `n` tables from the `i`-th on. -/
theorem makes_getFromTables (n i : ℕ) (x : Mem Store) : Makes (Store.getFromTables p key n i) x
    (2 * ((x.self.sstables.drop i).take n).countP (·.admits key)) fun _ _ => True := by
  induction n generalizing i x with
  | zero => exact .pure trivial
  | succ n ih =>
    unfold Store.getFromTables Store.onTable
    rw [bind_assoc]
    refine costs_withSelf ?_
    cases ht : x.self.sstables[i]? with
    | none =>
      have hdrop : ∀ j, i ≤ j → x.self.sstables.drop j = [] := fun j hj =>
        List.drop_eq_nil_of_le ((List.getElem?_eq_none_iff.1 ht).trans hj)
      have hrest := ih (i + 1) x
      rw [hdrop (i + 1) (Nat.le_succ i)] at hrest
      rw [hdrop i (Nat.le_refl i)]
      refine Costs.step (R := fun r y => r = none ∧ y = x) (.pure ⟨rfl, rfl⟩) fun r y hr => ?_
      obtain ⟨rfl, rfl⟩ := hr
      simpa using hrest
    | some t =>
      have hcount : 2 * ((x.self.sstables.drop i).take (n + 1)).countP (·.admits key) =
          (if t.admits key then 2 else 0) + 2 * ((x.self.sstables.drop (i + 1)).take n).countP (·.admits key) := by
        obtain ⟨hlt, heq⟩ := List.getElem?_eq_some_iff.1 ht
        rw [List.drop_eq_getElem_cons hlt, heq, List.take_succ_cons, List.countP_cons]
        split_ifs <;> omega
      rw [hcount]
      have hget : Makes (onField (fun _ => t) (fun t s => { s with sstables := s.sstables.set i t }) (SsTable.get p key))
          x (if t.admits key then 2 else 0) fun _ y => y.self.sstables.drop (i + 1) = x.self.sstables.drop (i + 1) := by
        refine makes_onField (makes_get.mono (Nat.le_refl _) fun _ y _ => ?_)
        exact List.drop_set_of_lt (Nat.lt_succ_self i)
      refine hget.bind fun r y hy => ?_
      cases r with
      | some e => exact .pure trivial
      | none =>
        have hrest := ih (i + 1) y
        rwa [hy] at hrest

/-- **Point reads.** -/
theorem makes_getValue (x : Mem Store) :
    Makes (Store.getValue p key) x (x.self.readCalls key) fun _ _ => True := by
  unfold Store.getValue Store.readCalls
  refine costs_withSelf ?_
  rw [Std.ExtTreeMap.contains_eq_isSome_getElem?]
  cases x.self.data[key]? with
  | some e => exact .pure trivial
  | none =>
    have htables : Makes (Store.getFromTables p key x.self.sstables.length 0) x _ fun _ _ => True :=
      makes_getFromTables _ _ _
    rw [List.drop_zero, List.take_length] at htables
    exact htables

theorem makes_readBlocks {path : FileName} (index : List IndexEntry) (out : List (Bytes × Entry)) (x : Mem σ) :
    Makes (readBlocks p path index out) x index.length fun _ y => y.self = x.self := by
  induction index generalizing out x with
  | nil => exact .pure rfl
  | cons e index ih =>
    unfold readBlocks
    rw [List.length_cons, Nat.add_comm]
    refine makes_readBlock.bind fun records y hy => ?_
    refine Costs.step (R := fun _ z => z = y) (costs_ofExcept fun _ _ => rfl) ?_
    rintro out' _ rfl
    exact (ih out' _).mono (Nat.le_refl _) fun _ z hz => hz.trans hy

theorem makes_readAllEntries (t : SsTable) (x : Mem σ) :
    Makes (t.readAllEntries p) x t.blockReads fun _ y => y.self = x.self := by
  unfold SsTable.readAllEntries SsTable.blockReads
  split_ifs with hnil
  · exact .pure rfl
  · rw [Nat.add_comm]
    refine makes_ioCall.bind fun _ y hy => ?_
    exact (makes_readBlocks _ _ y).mono (Nat.le_refl _) fun _ z hz => hz.trans hy

theorem makes_scanTables (tables : List SsTable) (merged : Memtable) (x : Mem Store) :
    Makes (Store.scanTables p lo hi tables merged) x
      ((tables.filter (·.overlaps lo hi)).map SsTable.blockReads).sum fun _ y => y.self = x.self := by
  induction tables generalizing merged x with
  | nil => exact .pure rfl
  | cons t tables ih =>
    unfold Store.scanTables
    by_cases hskip : t.overlaps lo hi = true
    · rw [List.filter_cons, if_pos hskip, List.map_cons, List.sum_cons, if_neg]
      · refine (makes_readAllEntries t x).bind fun entries y hy => ?_
        exact (ih _ y).mono (Nat.le_refl _) fun _ z hz => hz.trans hy
      · unfold SsTable.overlaps at hskip
        cases hrange : t.keyRange with
        | none => simp
        | some r => rw [hrange] at hskip; simpa using hskip
    · rw [List.filter_cons, if_neg hskip, if_pos]
      · exact ih merged x
      · unfold SsTable.overlaps at hskip
        cases hrange : t.keyRange with
        | none => rw [hrange] at hskip; simp at hskip
        | some r => rw [hrange] at hskip; simpa using hskip

/-- **Scans.** -/
theorem makes_scanRange (x : Mem Store) :
    Makes (Store.scanRange p lo hi) x (x.self.scanCalls lo hi) fun _ _ => True := by
  have hsum : ((x.self.sstables.reverse.filter (·.overlaps lo hi)).map SsTable.blockReads).sum =
      x.self.scanCalls lo hi := by
    unfold Store.scanCalls
    rw [List.filter_reverse, List.map_reverse, List.sum_reverse]
  have htables : Makes (Store.scanTables p lo hi x.self.sstables.reverse ∅) x _ fun _ y => y.self = x.self :=
    makes_scanTables _ _ _
  rw [hsum] at htables
  unfold Store.scanRange
  refine costs_withSelf (htables.last fun merged y _ => ?_)
  exact Costs.last (R := fun _ _ => True) (costs_ofStop fun _ _ => trivial) fun _ _ _ => .pure trivial

/-! ## Flush and compaction -/

theorem makes_mergeFrom (tables : List SsTable) (merged : Memtable) (x : Mem Store) :
    Makes (Store.mergeFrom p tables merged) x (tables.map SsTable.blockReads).sum fun _ y => y.self = x.self := by
  induction tables generalizing merged x with
  | nil => exact .pure rfl
  | cons t tables ih =>
    unfold Store.mergeFrom
    rw [List.map_cons, List.sum_cons]
    refine (makes_readAllEntries t x).bind fun entries y hy => ?_
    exact (ih _ y).mono (Nat.le_refl _) fun _ z hz => hz.trans hy

theorem makes_flushSst {path : FileName} {entries : List (Bytes × Entry)} {x : Mem σ} :
    Makes (SsTable.flush p path entries) x 4 fun t y => t = freshTable p path entries ∧ y.self = x.self := by
  unfold SsTable.flush
  show Makes _ x (1 + (1 + (1 + (1 + 0)))) _
  refine makes_ioCall.bind fun _ x₁ h₁ => ?_
  refine makes_ioCall.bind fun _ x₂ h₂ => ?_
  refine makes_ioCall.bind fun _ x₃ h₃ => ?_
  refine makes_ioCall.bind fun _ x₄ h₄ => .pure ⟨?_, ?_⟩
  · rw [encodeTable_eq]
    rfl
  · rw [h₄, h₃, h₂, h₁]

theorem makes_succU64 {n : ℕ} {x : Mem σ} : Makes (succU64 n) x 0 fun r y => r = n + 1 ∧ y = x := by
  unfold succU64
  split_ifs
  · exact .pure ⟨rfl, rfl⟩
  · exact .throw

/-- **Compaction.** -/
theorem makes_compact (x : Mem Store) : Makes (Store.compact p) x x.self.compactCalls fun _ _ => True := by
  have hsum : (x.self.sstables.reverse.map SsTable.blockReads).sum = (x.self.sstables.map SsTable.blockReads).sum := by
    rw [List.map_reverse, List.sum_reverse]
  unfold Store.compact Store.compactCalls
  refine costs_withSelf ?_
  split_ifs
  · exact .pure trivial
  rw [Nat.add_assoc]
  have hmerge : Makes (Store.mergeTables p) x (x.self.sstables.map SsTable.blockReads).sum fun _ _ => True := by
    rw [← hsum]
    unfold Store.mergeTables
    exact costs_withSelf ((makes_mergeFrom _ _ x).last fun _ _ _ => .pure trivial)
  refine hmerge.bind fun merged y _ => ?_
  have hinstall : Makes (Store.installMerged p merged) y 4 fun _ _ => True := by
    unfold Store.installMerged
    refine costs_withSelf ?_
    split_ifs
    · exact (makes_setSelf (a := { y.self with sstables := [] })).mono (Nat.zero_le 4) fun _ _ _ => trivial
    · refine makes_flushSst.last fun t z _ => makes_succU64.last fun next w _ => ?_
      exact makes_setSelf.mono (Nat.le_refl 0) fun _ _ _ => trivial
  refine hinstall.bind fun _ z _ => ?_
  have hremove : ∀ path (w : Mem Store), Makes (ignoreErr (removeFile path)) w 1 fun _ _ => True := fun path w =>
    costs_ignoreErr (makes_ioCall.mono (Nat.le_refl 1) fun _ _ _ => trivial)
  have hcleanup : Makes (forM (x.self.sstables.map SsTable.path) fun path => ignoreErr (removeFile path)) z _
      fun _ _ => True := Costs.loop (fun _ => True) _ (fun path _ w _ => hremove path w) trivial
  rwa [List.length_map, Nat.mul_one] at hcleanup

/-- Emptying the log. -/
theorem makes_clear {x : Mem Wal} : Makes Wal.clear x 2 fun _ y => y.self = { x.self with file := false } := by
  unfold Wal.clear
  refine Costs.step (R := fun _ y => y.self = { x.self with file := false }) ⟨Nat.le_refl _, rfl⟩ fun _ y hy => ?_
  refine costs_withSelf ?_
  show Makes _ y (1 + 1) _
  refine makes_ioCall.bind fun _ z hz => makes_ioCall.mono (Nat.le_refl 1) fun _ w hw => ?_
  rw [hw, hz, hy]

theorem makes_flushTable (x : Mem Store) :
    Makes (Store.flushTable p) x 6 fun _ y => y.self = x.self.flushed p := by
  unfold Store.flushTable
  refine costs_withSelf ?_
  show Makes _ x (4 + 2) _
  refine makes_flushSst.bind fun t y hy => ?_
  obtain ⟨rfl, -⟩ := hy
  refine makes_succU64.step fun next z hz => ?_
  obtain ⟨rfl, rfl⟩ := hz
  refine makes_setSelf.step fun _ z hz => ?_
  unfold Store.onWal
  refine makes_onField (makes_clear.mono (Nat.le_refl 2) fun _ w hw => ?_)
  show ({ z.self with wal := w.self } : Store) = _
  rw [hw]
  dsimp only
  rw [hz]
  rfl

/-- **Flush.** -/
theorem makes_flush (x : Mem Store) : Makes (Store.flush p) x (x.self.flushCalls p) fun _ _ => True := by
  unfold Store.flush Store.flushCalls
  refine costs_withSelf ?_
  split_ifs with hempty hmany hmany
  · exact .pure trivial
  · exact .pure trivial
  · refine (makes_flushTable x).bind fun _ y hy => ?_
    unfold Store.maybeCompact
    refine costs_withSelf ?_
    split_ifs
    · rw [← hy]
      exact makes_compact y
    · exact .pure trivial
  · refine (makes_flushTable x).bind fun _ y hy => ?_
    unfold Store.maybeCompact
    refine costs_withSelf ?_
    have hlen : y.self.sstables.length = x.self.sstables.length + 1 := by
      rw [hy]
      rfl
    rw [if_neg (by omega)]
    exact .pure trivial

/-! ## Writes -/

/-- The calls that open the handle of the log, if it is not open. -/
def Wal.openCalls (w : Wal) : ℕ := if w.file then 0 else 1

theorem makes_writer {x : Mem Wal} : Makes Wal.writer x x.self.openCalls fun _ y => y.self.file = true := by
  unfold Wal.writer Wal.openCalls
  refine costs_withSelf ?_
  split_ifs with hfile
  · exact .pure hfile
  · exact makes_ioCall.last fun _ y _ => makes_setSelf.mono (Nat.le_refl 0) fun _ z hz => by rw [hz]

theorem makes_append {entry : WalEntry} {x : Mem Wal} :
    Makes (Wal.append p entry) x (x.self.openCalls + 1) fun _ y => y.self.file = true := by
  unfold Wal.append
  refine makes_writer.bind fun _ y hy => costs_withSelf ?_
  exact makes_ioCall.mono (Nat.le_refl 1) fun _ z hz => by rw [hz]; exact hy

theorem makes_writeCommit {sequence : UInt64} {x : Mem Wal} :
    Makes (Wal.writeCommit p sequence) x (x.self.openCalls + 2) fun _ _ => True := by
  unfold Wal.writeCommit
  refine makes_writer.bind fun _ y _ => costs_withSelf ?_
  show Makes _ y (1 + 1) _
  exact makes_ioCall.bind fun _ z _ => makes_ioCall.mono (Nat.le_refl 1) fun _ _ _ => trivial

theorem makes_logEntry {entry : UInt64 → WalEntry} {x : Mem Store} :
    Makes (Store.logEntry p entry) x (x.self.wal.openCalls + 1) fun _ y => y.self.wal.file = true := by
  unfold Store.logEntry Store.onWal
  refine costs_withSelf ?_
  split_ifs
  · refine makes_setSelf.step fun _ y hy => ?_
    rw [show x.self.wal = y.self.wal by rw [hy]]
    exact makes_onField makes_append
  · exact .throw

/-- The log handle is opened for the first entry at most. -/
theorem makes_logEntries (b : Batch) (x : Mem Store) :
    Makes (forM b fun e => Store.logEntry p (pendingEntry e.1 e.2)) x (x.self.wal.openCalls + b.length)
      fun _ y => y.self.wal.openCalls ≤ x.self.wal.openCalls ∧ (b ≠ [] → y.self.wal.openCalls = 0) := by
  induction b generalizing x with
  | nil => exact .pure ⟨Nat.le_refl _, fun hne => absurd rfl hne⟩
  | cons e b ih =>
    have hopen : ∀ y : Mem Store, y.self.wal.file = true → y.self.wal.openCalls = 0 := fun y hy => if_pos hy
    rw [List.forM_cons, List.length_cons, Nat.add_comm b.length 1, ← Nat.add_assoc]
    refine makes_logEntry.bind fun _ y hy => ?_
    have hrest := ih y
    rw [hopen y hy, Nat.zero_add] at hrest
    refine hrest.mono (Nat.le_refl _) fun _ z hz => ⟨?_, fun _ => ?_⟩
    · exact Nat.le_trans hz.1 (Nat.zero_le _)
    · exact Nat.le_zero.1 hz.1

/-- **Recording a batch.** -/
theorem makes_recordBatch (b : Batch) (x : Mem Store) :
    Makes (Store.recordBatch p b) x (b.length + 3) fun _ _ => True := by
  have hle : ∀ w : Wal, w.openCalls ≤ 1 := fun w => by unfold Wal.openCalls; split_ifs <;> omega
  unfold Store.recordBatch
  have hcommit : ∀ y : Mem Store, Makes (Store.logCommit p) y (y.self.wal.openCalls + 2) fun _ _ => True := by
    intro y
    unfold Store.logCommit Store.onWal
    exact costs_withSelf (makes_onField makes_writeCommit)
  have hinserts : ∀ y : Mem Store, Makes (forM b fun e => Store.insert e.1 (entryOf e.2)) y (b.length * 0)
      fun _ _ => True := by
    intro y
    refine Costs.loop (fun _ => True) b (fun e _ z _ => ?_) trivial
    unfold Store.insert
    refine costs_withSelf (Costs.step (R := fun _ _ => True) (costs_ofStop fun _ _ => trivial) fun s w _ => ?_)
    exact makes_setSelf.mono (Nat.le_refl 0) fun _ _ _ => trivial
  cases b with
  | nil =>
    refine Costs.step (R := fun _ _ => True) (.pure trivial) fun _ y _ => ?_
    exact ((hcommit y).le (by have := hle y.self.wal; omega)).last fun _ z _ => hinserts z
  | cons e b =>
    have hlog := makes_logEntries (p := p) (e :: b) x
    refine Costs.le (k := x.self.wal.openCalls + (e :: b).length + (2 + (e :: b).length * 0)) ?_ ?_
    · refine hlog.bind fun _ y hy => ?_
      have hcommit := hcommit y
      rw [hy.2 (List.cons_ne_nil e b), Nat.zero_add] at hcommit
      exact hcommit.bind fun _ z _ => hinserts z
    · have := hle x.self.wal
      omega

/-! ## Every operation -/

/-- How many I/O calls the operations of the store make at most, from `x` on. -/
structure IoCosts (p : Prost) (x : Mem Store) : Prop where
  get : ∀ key, Makes (Store.getValue p key) x (x.self.readCalls key) fun _ _ => True
  scan : ∀ lo hi, Makes (Store.scanRange p lo hi) x (x.self.scanCalls lo hi) fun _ _ => True
  record : ∀ b, Makes (Store.recordBatch p b) x (b.length + 3) fun _ y => Makes (Store.maybeFlush p) y
    (if y.self.memtableBytes ≥ y.self.memtableMaxBytes then y.self.flushCalls p else 0) fun _ _ => True
  flush : Makes (Store.flush p) x (x.self.flushCalls p) fun _ _ => True
  compact : Makes (Store.compact p) x x.self.compactCalls fun _ _ => True

theorem makes_maybeFlush (x : Mem Store) : Makes (Store.maybeFlush p) x
    (if x.self.memtableBytes ≥ x.self.memtableMaxBytes then x.self.flushCalls p else 0) fun _ _ => True := by
  unfold Store.maybeFlush
  refine costs_withSelf ?_
  split_ifs
  · exact makes_flush x
  · exact .pure trivial

/-- **The I/O calls of every operation**, from every store, whatever its files hold and whichever calls fail. -/
theorem io_cost (p : Prost) (x : Mem Store) : IoCosts p x where
  get _ := makes_getValue x
  scan _ _ := makes_scanRange x
  record b := (makes_recordBatch b x).mono (Nat.le_refl _) fun _ y _ => makes_maybeFlush y
  flush := makes_flush x
  compact := makes_compact x

end FerrumDB
