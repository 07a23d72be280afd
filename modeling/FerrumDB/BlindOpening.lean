import FerrumDB.InterruptedOpening
import FerrumDB.Store.Keeps

/-!
# An opening that does not see its tables

`load_sstables` takes a directory that cannot be listed for one without tables. The opening goes through, and
the store knows the log only; its first table takes the id 1, and with it the file of the live table 1, if
there is one. A later opening puts that table below all others, so their values hide newer ones
(`blind_opening`).
-/

namespace FerrumDB

open Overlay

variable {env : Env} {s : Store} {d d' : Disk} {L : Layers} {p : Prost} {dir : String} {junk : List WalEntry}
  {t : Bytes}

/-- The listing of the directory fails, and no other call does. -/
structure Env.Blind (env : Env) : Prop where
  listing : ∀ n, ∃ msg written, env n ⟨.readDir, ""⟩ = some (.error msg written)
  others : env.Spares (· ≠ ⟨.readDir, ""⟩)

/-- The layers without their tables. -/
def Layers.blinded (L : Layers) : Layers := { L.reopen with tables := [], nextId := 1 }

/-- The layers after a flush of the store that did not see the tables: the memtable is table 1, below all tables
with higher ids. -/
def Layers.overwritten (L : Layers) : Layers :=
  { L with
    data := ∅
    log := []
    tables := L.tables.filter (fun x => 1 < x.1) ++ (1, L.data) :: L.tables.filter (fun x => x.1 < 1) }

theorem mem_overwritten {x : ℕ × Memtable} :
    x ∈ L.overwritten.tables ↔ x = (1, L.data) ∨ x ∈ L.tables ∧ x.1 ≠ 1 := by
  unfold Layers.overwritten
  simp only [List.mem_append, List.mem_cons, List.mem_filter, decide_eq_true_eq]
  constructor
  · rintro (⟨hx, hlt⟩ | rfl | ⟨hx, hlt⟩)
    · exact Or.inr ⟨hx, by omega⟩
    · exact Or.inl rfl
    · exact Or.inr ⟨hx, by omega⟩
  · rintro (rfl | ⟨hx, hne⟩)
    · exact Or.inr (Or.inl rfl)
    · rcases Nat.lt_or_gt_of_ne hne with hlt | hlt
      · exact Or.inr (Or.inr ⟨hx, hlt⟩)
      · exact Or.inl ⟨hx, hlt⟩

theorem descending_overwritten (h : L.tables.Pairwise fun x y => y.1 < x.1) :
    L.overwritten.tables.Pairwise fun x y => y.1 < x.1 := by
  refine List.pairwise_append.2 ⟨h.filter _, List.pairwise_cons.2 ⟨fun y hy => ?_, h.filter _⟩, fun x hx y hy => ?_⟩
  · exact of_decide_eq_true (List.mem_filter.1 hy).2
  · have hx : 1 < x.1 := of_decide_eq_true (List.mem_filter.1 hx).2
    rcases List.mem_cons.1 hy with rfl | hy
    · exact hx
    · have hy : y.1 < 1 := of_decide_eq_true (List.mem_filter.1 hy).2
      omega

/-- A failing listing counts as none. -/
theorem Env.Blind.does_tryReadDir (henv : env.Blind) {Q : Option (List FileName) → Store → Disk → Prop}
    {E : Stop → Store → Disk → Prop} (hQ : Q none s d) : Does env tryReadDir s d Q E := by
  intro clock
  obtain ⟨msg, written, hfault⟩ := henv.listing clock
  unfold CrashLogic.wp tryReadDir readDir ioCall
  dsimp only
  rw [hfault]
  exact ⟨rfl, hQ⟩

/-- **A blind opening** returns a store that runs on the log, and leaves the layers of the directory. -/
theorem Stored.does_openWithDir_blind (hp : p.Lawful) (h : Stored p d L junk t) (hfree : d.locked = false)
    (henv : env.Blind) {E : Stop → Store → Disk → Prop} :
    Does env (Store.openWithDir p dir) s d (fun _ s' d' => Running p s' d' L.blinded ∧ Stored p d' L [] []) E := by
  have hspares : ∀ {c : IoCall}, c ≠ ⟨.readDir, ""⟩ → ∀ e, ¬ env.Faults (· = c) e := by
    rintro c hc e ⟨n, _, f, rfl, hf, -⟩
    rw [henv.others n _ hc] at hf
    cases hf
  have hlocked : Stored p d.lockedBy L junk t := h.ofLock fun _ hn => d.files_lockedBy hn
  have hfree' : d.withLockFile.locked = false := d.locked_withLockFile.trans hfree
  unfold Disk.withLockFile at hfree'
  unfold Store.openWithDir
  refine Does.bind (does_createDirAll ?_ fun e he => (hspares (by decide) e he).elim)
  refine Does.bind (.ioCall_noEffect ?_ fun e he => (hspares (by decide) e he).elim)
  refine Does.bind (does_flock_faulty ?_ fun e he => (hspares (by decide) e he).elim)
  rw [hfree', if_neg (by simp)]
  refine .dropOnStop (Does.bind (Does.bind (.ignoreErr (does_createDirAll ?_ fun e he =>
    (hspares (by decide) e he).elim))))
  refine .pure (Does.bind (.setSelf (Does.bind ?_)))
  unfold Store.loadSstables
  refine Does.bind (henv.does_tryReadDir (.pure ?_))
  refine does_replayWal hp (fun n c hc => henv.others n c ?_) hlocked.toLogStored ⟨rfl, fun hopen => by cases hopen⟩
    ?_ fun w' d' hw' hlive hb => ⟨?_, { hlocked.toTablesStored.frame hb.others, hlocked.toLogStored.cut hb with }⟩
  · rintro rfl
    exact absurd hc (by decide : ("" : FileName) ≠ walName)
  · unfold Store.holding
    rw [OrderedMap.total_empty]
    rfl
  · exact {
      data := rfl
      counted := counted_holding _ _ _
      budget := rfl
      sequence := rfl
      nextId := rfl
      handles := .nil
      below := nofun
      nextId_lt := (by decide : 1 < 2 ^ 64)
      path := hw'
      live := hlive
      table := nofun
      descending := .nil }

/-- The flush of a store that does not see the tables overwrites table 1. -/
theorem Running.returns_flush_blind (h : Running p s d L.blinded) (hst : Stored p d L [] [])
    (hempty : L.data.isEmpty = false) (hfits : FerrumDB.TableFits p L.data.toList) :
    Returns (Store.flush p) s d fun _ _ d' => Stored p d' L.overwritten [] [] := by
  have hnext : s.nextSstableId = 1 := h.nextId
  have hdata : s.data = L.data := h.data
  obtain ⟨hlen, hholds⟩ := h.toImplements.holds_data ⟨hfits, (by decide : 1 + 1 < 2 ^ 64)⟩
  have hflushed : ∀ d', (d.put (sstName 1) (tableFile p s.data.toList hlen)).Becomes walName [] 0 d' →
      Stored p d' L.overwritten [] [] := by
    intro d' hb
    have hfile : ∀ n ≠ walName, n ≠ sstName 1 → d'.files[n]? = d.files[n]? := fun n hw hn =>
      (hb.others n hw).trans (files_put_of_ne n hn)
    have hnew : d'.files[sstName 1]? = some (tableFile p s.data.toList hlen) := by
      rw [hb.others _ (sstName_ne_walName _), Disk.files_put, if_pos rfl]
    refine { logStored_nil hb.bytes with
      table := fun x hx => ?_
      descending := descending_overwritten hst.descending
      ids := fun x hx => ?_
      files := fun name f hname => ?_ }
    · rcases mem_overwritten.1 hx with rfl | ⟨hx, hid⟩
      · exact ⟨_, hnew, hholds⟩
      · rw [hfile _ (sstName_ne_walName _) fun heq => hid (sstName_injective heq)]
        exact hst.table x hx
    · rcases mem_overwritten.1 hx with rfl | ⟨hx, -⟩
      · exact (by decide : 1 + 1 < 2 ^ 64)
      · exact hst.ids x hx
    · by_cases hw : name = walName
      · exact Or.inr (Or.inl hw)
      · by_cases hn : name = sstName 1
        · exact Or.inr (Or.inr ⟨(1, L.data), mem_overwritten.2 (Or.inl rfl), hn⟩)
        · rw [hfile name hw hn] at hname
          rcases hst.files name f hname with hlock | hlog | ⟨x, hx, heq⟩
          · exact Or.inl hlock
          · exact absurd hlog hw
          · refine Or.inr (Or.inr ⟨x, mem_overwritten.2 (Or.inr ⟨hx, fun hid => ?_⟩), heq⟩)
            exact hn (by rw [heq, hid])
  unfold Store.flush
  refine .withSelf ?_
  rw [hdata, hempty, if_neg (by simp)]
  refine Does.bind (does_flushTable_file hlen (by rw [hnext]; decide) h.path (fun d' hb => ?_)
    (fun e he => absurd he Env.not_faults_quiet) fun e _ he => absurd he Env.not_faults_quiet)
  rw [hnext] at hb
  have hone : (s.flushed p).sstables.length = 1 := congrArg (· + 1) h.handles.length_eq
  unfold Store.maybeCompact
  refine .withSelf ?_
  rw [if_neg (by rw [hone]; decide)]
  exact .pure (hflushed d' hb)

/-! ## What is lost -/

/-- The store that a blind opening returns reads as the log alone, and its next table is table 1; and once it has
flushed and is closed, the directory opens to the tables with the flushed one in the place of table 1. -/
structure OpensBlind (p : Prost) (dir : String) (L : Layers) (s : Store) (d : Disk) : Prop where
  nextId : s.nextSstableId = 1
  reads : ∀ key, Returns (Store.getValue p key) s d fun r _ _ => r = (layer L.data key).bind Entry.live
  flush : L.data.isEmpty = false → FerrumDB.TableFits p L.data.toList → Returns (Store.flush p) s d fun _ _ d' =>
    Reopens p dir { d' with locked := false } L.overwritten.get

theorem Stored.opensBlind (hp : p.Lawful) (h : Stored p d L junk t) (hfree : d.locked = false) (henv : env.Blind) :
    Does env (Store.openWithDir p dir) s d (fun _ s' d' => OpensBlind p dir L s' d') fun _ _ _ => False := by
  refine (h.does_openWithDir_blind hp hfree henv).mono (fun _ s' d' hopen => ?_) fun _ _ _ he => he
  obtain ⟨hrun, hst⟩ := hopen
  refine ⟨hrun.nextId, fun key => ?_, fun hempty hfits => ?_⟩
  · refine hrun.does_getValue hp (fun _ _ => ?_) fun _ he => absurd he Env.not_faults_quiet
    show resolve Entry.live [layer L.data] key = _
    cases hkey : layer L.data key with
    | none => rw [resolve_cons_none hkey]; rfl
    | some e => rw [resolve_cons_some hkey]; rfl
  · refine (hrun.returns_flush_blind hst hempty hfits).mono (fun _ _ d'' hflushed => ?_) fun _ _ _ he => he
    have hclosed : Stored p { d'' with locked := false } L.overwritten [] [] := hflushed.ofLock fun _ _ => rfl
    exact hclosed.reopens hp rfl

/-- A listing that is refused. -/
def Env.refusesListing : Env := fun _ c =>
  if c = ⟨.readDir, ""⟩ then some (.error "Permission denied (os error 13)" 0) else none

theorem Env.refusesListing_blind : Env.refusesListing.Blind := ⟨fun _ => ⟨_, _, if_pos rfl⟩, fun _ _ hc => if_neg hc⟩

/-- A key in table 1, and another one in table 2 that the log has a newer value of. -/
def oldAndNew : List Op :=
  [.setValue [1] (.integer 1), .flush, .setValue [2] (.integer 2), .flush, .setValue [2] (.integer 3)]

/-- Key 1 is lost, and key 2 is back at its old value. -/
example : [[1], [2]].map (oldAndNew.foldl Op.step Layers.empty).overwritten.get = [none, some (.integer 2)] := by
  decide +kernel

end FerrumDB
