import FerrumDB.Store.Replay
import FerrumDB.Wal.Rules
import FerrumDB.SsTable.Open

/-!
# The store implements its layers

`Stored p d L junk t` says that the disk `d` holds the layers `L`: a file for every table, no other
table file, and a log whose bytes are the entries of `L`, then entries `junk` without a COMMIT, then
a torn frame `t`. `Agrees` adds the live store over it. In an undisturbed run `junk` and `t` are
empty; they are what failed or interrupted writes leave behind.

A point read answers as the layers do (`does_getValue`).
-/

namespace FerrumDB

open FramedLog Overlay

variable {env : Env} {s : Store} {d : Disk} {L : Layers} {junk : List WalEntry} {t : Bytes}
  {p : Prost}

/-! ## The invariant -/

/-- The log handle of the store is on the log of the directory. -/
structure Store.OnLog (s : Store) (d : Disk) : Prop where
  path : s.wal.filePath = walName
  live : s.wal.Live d

/-- The table files of the directory are those of `tables`, newest first. -/
structure TablesStored (p : Prost) (d : Disk) (tables : List (ℕ × Memtable)) : Prop where
  table : ∀ x ∈ tables, ∃ f, d.files[sstName x.1]? = some f ∧ f.Holds p x.2.toList
  descending : tables.Pairwise fun x y => y.1 < x.1
  ids : ∀ x ∈ tables, x.1 + 1 < 2 ^ 64
  files : ∀ name f, d.files[name]? = some f →
    name = "LOCK" ∨ name = walName ∨ ∃ x ∈ tables, name = sstName x.1

/-- The log file holds `log`, which replays to `data`, and the remains of later writes. -/
structure LogStored (p : Prost) (d : Disk) (log : List WalEntry) (data : Memtable)
    (junk : List WalEntry) (t : Bytes) : Prop where
  bytes : d.bytesOf walName = logBytes p (log ++ junk) ++ t
  synced : (logBytes p log).length ≤ d.syncedOf walName
  closed : Closed isCommit log
  unmarked : ∀ e ∈ junk, isCommit e = false
  torn : Torn p.encodeEntry maxVecLen t
  replays : Replays log data

/-- The disk holds the layers. -/
structure Stored (p : Prost) (d : Disk) (L : Layers) (junk : List WalEntry) (t : Bytes) : Prop
    extends TablesStored p d L.tables, LogStored p d L.log L.data junk t

/-- A handle serves the table with its id. -/
structure SsTable.HandleOf (p : Prost) (t : SsTable) (x : ℕ × Memtable) : Prop where
  path : t.path = sstName x.1
  serves : t.Serves p x.2.toList

/-- The store in memory is that of the layers. -/
structure Implements (p : Prost) (s : Store) (L : Layers) : Prop where
  data : s.data = L.data
  counted : s.Counted
  budget : s.memtableMaxBytes = L.budget
  sequence : s.sequence = L.sequence
  nextId : s.nextSstableId = L.nextId
  handles : List.Forall₂ (SsTable.HandleOf p) s.sstables L.tables
  below : ∀ x ∈ L.tables, x.1 < L.nextId
  nextId_lt : L.nextId < 2 ^ 64

/-- What a live store relies on: its own table files and its own handles, whatever else the directory
holds. -/
structure Running (p : Prost) (s : Store) (d : Disk) (L : Layers) : Prop
    extends Implements p s L, s.OnLog d where
  table : ∀ x ∈ L.tables, ∃ f, d.files[sstName x.1]? = some f ∧ f.Holds p x.2.toList
  descending : L.tables.Pairwise fun x y => y.1 < x.1

/-- The live store over the tables of the disk, whatever the log file holds. -/
structure Follows (p : Prost) (s : Store) (d : Disk) (L : Layers) : Prop
    extends TablesStored p d L.tables, Implements p s L, s.OnLog d where
  locked : d.locked = true

/-- The live store over the disk. -/
structure Agrees (p : Prost) (s : Store) (d : Disk) (L : Layers) (junk : List WalEntry) (t : Bytes) :
    Prop extends Follows p s d L, LogStored p d L.log L.data junk t

theorem Agrees.stored (h : Agrees p s d L junk t) : Stored p d L junk t :=
  { h.toTablesStored, h.toLogStored with }

theorem Follows.running (h : Follows p s d L) : Running p s d L :=
  { h.toImplements, h.toOnLog with table := h.table, descending := h.descending }

theorem Implements.bytes_eq (h : Implements p s L) : s.memtableBytes = L.bytes := by
  rw [h.counted, h.data]; rfl

/-- The calls on the table files of the layers. -/
def onTables (L : Layers) (c : IoCall) : Prop := ∃ x ∈ L.tables, readCalls (sstName x.1) c

/-! ## Point reads -/

theorem forall₂_set {α β : Type} {R : α → β → Prop} {l : List α} {l' : List β}
    (h : List.Forall₂ R l l') {i : ℕ} {a : α} (ha : ∀ b, l'[i]? = some b → R a b) :
    List.Forall₂ R (l.set i a) l' := by
  induction h generalizing i with
  | nil => exact .nil
  | cons hr htail ih =>
    cases i with
    | zero => exact .cons (ha _ rfl) htail
    | succ i => exact .cons hr (ih fun b hb => ha b hb)

theorem forall₂_getElem? {α β : Type} {R : α → β → Prop} {l : List α} {l' : List β}
    (h : List.Forall₂ R l l') (i : ℕ) :
    (l[i]? = none ∧ l'[i]? = none) ∨ ∃ a b, l[i]? = some a ∧ l'[i]? = some b ∧ R a b := by
  induction h generalizing i with
  | nil => exact Or.inl ⟨rfl, rfl⟩
  | cons hr _ ih =>
    cases i with
    | zero => exact Or.inr ⟨_, _, rfl, rfl, hr⟩
    | succ i => exact ih i

/-- The handles of the store from the `k`-th on serve `tables`, whose files are in the directory. -/
structure Store.ServesFrom (p : Prost) (s : Store) (d : Disk) (k : ℕ) (tables : List (ℕ × Memtable)) :
    Prop where
  handles : List.Forall₂ (SsTable.HandleOf p) (s.sstables.drop k) tables
  files : ∀ x ∈ tables, ∃ f, d.files[sstName x.1]? = some f ∧ f.Holds p x.2.toList

variable {k : ℕ} {tables : List (ℕ × Memtable)}

/-- Only the cache of one handle differs. -/
theorem Store.ServesFrom.setTable (h : s.ServesFrom p d k tables) {i : ℕ} {x : ℕ × Memtable} {tb : SsTable}
    (hx : tables[i]? = some x) (ht : tb.HandleOf p x) :
    Store.ServesFrom p { s with sstables := s.sstables.set (k + i) tb } d k tables where
  handles := by
    have hdrop : (s.sstables.set (k + i) tb).drop k = (s.sstables.drop k).set i tb := by
      rw [List.drop_set, if_neg (by omega), Nat.add_sub_cancel_left]
    rw [hdrop]
    exact forall₂_set h.handles fun b hb => by rw [hx] at hb; cases hb; exact ht
  files := h.files

/-- The method of one table: its handle may cache blocks. -/
theorem does_onTable_get (hp : p.Lawful) (h : s.ServesFrom p d k tables) {i : ℕ} {x : ℕ × Memtable}
    (hx : tables[i]? = some x) {key : Bytes} {Q : Option Entry → Store → Disk → Prop}
    {E : Stop → Store → Disk → Prop}
    (hQ : ∀ hs, Store.ServesFrom p { s with sstables := hs } d k tables →
      Q (layer x.2 key) { s with sstables := hs } d)
    (hE : ∀ e, env.Faults (readCalls (sstName x.1)) e → ∀ hs,
      Store.ServesFrom p { s with sstables := hs } d k tables → E e { s with sstables := hs } d) :
    Does env (Store.onTable (k + i) (SsTable.get p key)) s d Q E := by
  rcases forall₂_getElem? h.handles i with ⟨-, hnone⟩ | ⟨tb, x', htb, hx', hh⟩
  · rw [hx] at hnone; cases hnone
  · rw [hx] at hx'
    cases hx'
    rw [List.getElem?_drop] at htb
    obtain ⟨f, hf, hholds⟩ := h.files x (List.mem_of_getElem? hx)
    unfold Store.onTable
    refine .withSelf ?_
    rw [htb]
    refine Does.onField (does_get hp (by rw [hh.path]; exact hf) hholds hh.serves (fun c hc => ?_)
      fun e he c hc => ?_)
    · rw [lookup_toList]
      exact hQ _ (h.setTable hx ⟨hh.path, hh.serves.withCache hc⟩)
    · exact hE e (he.mono fun c hc => by rw [← hh.path]; exact hc) _
        (h.setTable hx ⟨hh.path, hh.serves.withCache hc⟩)

/-- Asking the tables from the `i`-th on. -/
theorem does_getFromTables (hp : p.Lawful) {key : Bytes} {Q : Option Value → Store → Disk → Prop}
    {E : Stop → Store → Disk → Prop} (n i : ℕ) (hn : tables.length ≤ i + n)
    (h : s.ServesFrom p d k tables)
    (hQ : ∀ hs, Store.ServesFrom p { s with sstables := hs } d k tables →
      Q (resolve Entry.live ((tables.drop i).map fun t => layer t.2) key) { s with sstables := hs } d)
    (hE : ∀ e, env.Faults (fun c => ∃ x ∈ tables, readCalls (sstName x.1) c) e → ∀ hs,
      Store.ServesFrom p { s with sstables := hs } d k tables → E e { s with sstables := hs } d) :
    Does env (Store.getFromTables p key n (k + i)) s d Q E := by
  induction n generalizing i s with
  | zero =>
    have hQ := hQ s.sstables h
    rw [List.drop_eq_nil_of_le (by omega)] at hQ
    exact .pure hQ
  | succ n ih =>
    unfold Store.getFromTables
    cases hx : tables[i]? with
    | none =>
      have hlen := List.getElem?_eq_none_iff.1 hx
      have hsame := hQ s.sstables h
      have hnone : s.sstables[k + i]? = none := by
        rcases forall₂_getElem? h.handles i with ⟨hn, -⟩ | ⟨_, _, _, hs, _⟩
        · rwa [List.getElem?_drop] at hn
        · rw [hx] at hs; cases hs
      unfold Store.onTable
      refine Does.bind (.withSelf ?_)
      rw [hnone]
      refine .pure (ih (i + 1) (by omega) h (fun hs h' => ?_) hE)
      have hQ := hQ hs h'
      rw [List.drop_eq_nil_of_le hlen] at hQ
      rw [List.drop_eq_nil_of_le (by omega)]
      exact hQ
    | some x =>
      have hdrop : tables.drop i = x :: tables.drop (i + 1) := by
        obtain ⟨hlt, rfl⟩ := List.getElem?_eq_some_iff.1 hx
        exact List.drop_eq_getElem_cons hlt
      rw [hdrop, List.map_cons] at hQ
      have hmem : x ∈ tables := List.mem_of_getElem? hx
      refine Does.bind (does_onTable_get hp h hx (fun hs h' => ?_)
        fun e he hs h' => hE e (he.mono fun c hc => ⟨x, hmem, hc⟩) hs h')
      cases hl : layer x.2 key with
      | some entry =>
        have hQ := hQ hs h'
        rw [resolve_cons_some hl] at hQ
        exact .pure hQ
      | none =>
        refine ih (s := { s with sstables := hs }) (i + 1) (by omega) h' (fun hs' h'' => ?_) hE
        have hQ := hQ hs' h''
        rwa [resolve_cons_none hl] at hQ

theorem Running.servesFrom (h : Running p s d L) : s.ServesFrom p d 0 L.tables := ⟨h.handles, h.table⟩

theorem Running.withHandles (h : Running p s d L) {hs : List SsTable}
    (h' : Store.ServesFrom p { s with sstables := hs } d 0 L.tables) :
    Running p { s with sstables := hs } d L := { h with handles := h'.handles }

/-- **Point reads answer as the layers do**, whatever else the directory holds. -/
theorem Running.does_getValue (hp : p.Lawful) (h : Running p s d L) {key : Bytes}
    {Q : Option Value → Store → Disk → Prop} {E : Stop → Store → Disk → Prop}
    (hQ : ∀ s', Running p s' d L → Q (L.get key) s' d)
    (hE : ∀ e, env.Faults (onTables L) e → ∀ s', Running p s' d L → E e s' d) :
    Does env (Store.getValue p key) s d Q E := by
  unfold Store.getValue
  refine .withSelf ?_
  have hdata : s.data[key]? = layer L.data key := by rw [h.data]; rfl
  rw [hdata]
  unfold Layers.get Layers.stack at hQ
  cases hl : layer L.data key with
  | some entry =>
    have hQ := hQ s h
    rw [resolve_cons_some hl] at hQ
    exact .pure hQ
  | none =>
    have hlen := h.handles.length_eq
    refine does_getFromTables (k := 0) hp s.sstables.length 0 (by omega) h.servesFrom (fun hs h' => ?_)
      fun e he hs h' => hE e he _ (h.withHandles h')
    have hQ := hQ _ (h.withHandles h')
    rwa [resolve_cons_none hl] at hQ

/-- Point reads keep the tables of the directory and the lock. -/
theorem does_getValue (hp : p.Lawful) (h : Follows p s d L) {key : Bytes}
    {Q : Option Value → Store → Disk → Prop} {E : Stop → Store → Disk → Prop}
    (hQ : ∀ s', Follows p s' d L → Q (L.get key) s' d)
    (hE : ∀ e, env.Faults (onTables L) e → ∀ s', Follows p s' d L → E e s' d) :
    Does env (Store.getValue p key) s d Q E := by
  have hfollows : ∀ s', Running p s' d L → Follows p s' d L := fun s' h' =>
    { h.toTablesStored, h'.toImplements, h'.toOnLog with locked := h.locked }
  exact h.running.does_getValue hp (fun s' h' => hQ s' (hfollows s' h'))
    fun e he s' h' => hE e he s' (hfollows s' h')

/-- Reading all entries of a table of the store. -/
theorem Running.returns_readAllEntries (hp : p.Lawful) (h : Running p s d L) {t : SsTable}
    (ht : t ∈ s.sstables) : ∃ x ∈ L.tables, Returns (t.readAllEntries p) s d fun r _ _ => r = x.2.toList := by
  obtain ⟨i, hi⟩ := List.mem_iff_getElem?.1 ht
  rcases forall₂_getElem? h.handles i with ⟨hnone, -⟩ | ⟨t', x, ht', hx, hr⟩
  · rw [hi] at hnone; cases hnone
  · rw [hi] at ht'
    cases ht'
    have hmem := List.mem_of_getElem? hx
    obtain ⟨f, hf, hholds⟩ := h.table x hmem
    refine ⟨x, hmem, ?_⟩
    exact does_readAllEntries hp (by rw [hr.path]; exact hf) hholds hr.serves.index rfl
      fun _ he => absurd he Env.not_faults_quiet

end FerrumDB
