import FerrumDB.Refinement
import FerrumDB.Store.Crash

/-!
# Compactions whose cleanup is not finished

A compaction writes the merged table and then removes the old files, newest first; a removal may fail,
and the process may stop between two of them. The old tables that survive lie below the merged table,
which has no tombstones. The directory then reads as before exactly if they bring no deleted key back
(`compact_survivors_iff`).
-/

namespace FerrumDB

open CrashLogic Overlay

variable {env : Env} {s : Store} {d d' : Disk} {L : Layers} {p : Prost} {dir : String}
  {junk : List WalEntry} {t : Bytes}

/-! ## Survivors -/

/-- The tables whose files are in the directory. -/
def survivors (d : Disk) (tables : List (ℕ × Memtable)) : List (ℕ × Memtable) :=
  tables.filter fun x => d.files.contains (sstName x.1)

/-- The tables `sv`, below the merge of all tables, bring no key back: a key that the memtable does not
hold and whose newest entry in the old tables is a tombstone has no value in `sv`. -/
def BringNothingBack (L : Layers) (sv : List (ℕ × Memtable)) : Prop :=
  ∀ key e, layer L.data key = none → first (L.tables.map fun t => layer t.2) key = some e →
    e.live = none → resolve Entry.live (sv.map fun t => layer t.2) key = none

/-- The survivors are the old tables that are still stored. -/
theorem Compacted.survivors_eq {sv : List (ℕ × Memtable)} (h : Compacted p s d d' L sv)
    (hold : TablesStored p d L.tables) (hbelow : ∀ x ∈ L.tables, x.1 < L.nextId)
    (hlen : 2 ≤ L.tables.length) (hsv : sv.Sublist L.tables) : survivors d' L.tables = sv := by
  have hnodup : (L.tables.map Prod.fst).Nodup := by
    rw [List.Nodup, List.pairwise_map]
    exact hold.descending.imp fun hlt heq => by omega
  have hmem : ∀ x ∈ L.tables, d'.files.contains (sstName x.1) = true ↔ x ∈ sv := by
    intro x hx
    rw [Std.ExtTreeMap.contains_iff_mem, Std.ExtTreeMap.mem_iff_isSome_getElem?, Option.isSome_iff_exists]
    constructor
    · rintro ⟨f, hf⟩
      rcases h.tables.files _ f hf with hn | hn | ⟨y, hy, hn⟩
      · exact absurd hn (sstName_ne_lock _)
      · exact absurd hn (sstName_ne_walName _)
      · have hid : x.1 = y.1 := sstName_injective hn
        rcases List.mem_append.1 hy with hy | hy
        · -- the merged table has a new id
          have hlt := hbelow x hx
          unfold Layers.compact at hy
          rw [if_neg (by omega)] at hy
          split_ifs at hy
          · cases hy
          · rw [List.mem_singleton.1 hy] at hid
            omega
        · rwa [List.inj_on_of_nodup_map hnodup hx (hsv.subset hy) hid]
    · intro hx'
      obtain ⟨f, hf, -⟩ := h.tables.table x (List.mem_append_right _ hx')
      exact ⟨f, hf⟩
  have hfilter : (survivors d' L.tables).Sublist L.tables := List.filter_sublist
  have hperm : (survivors d' L.tables).Perm sv := by
    refine (List.perm_ext_iff_of_nodup (hfilter.nodup hnodup.of_map) (hsv.nodup hnodup.of_map)).2 fun x => ?_
    unfold survivors
    rw [List.mem_filter]
    constructor
    · rintro ⟨hx, hc⟩
      exact (hmem x hx).1 hc
    · intro hx
      exact ⟨hsv.subset hx, (hmem x (hsv.subset hx)).2 hx⟩
  refine hperm.eq_of_pairwise (fun a b _ _ hab hba => ?_) (hold.descending.sublist hfilter)
    (hold.descending.sublist hsv)
  omega

/-- With the merged table on top of the survivors, every key reads as before exactly if they bring
nothing back. -/
theorem get_over_survivors (hlen : 2 ≤ L.tables.length) {sv : List (ℕ × Memtable)}
    (hsv : sv.Sublist L.tables) :
    Layers.get { L with tables := L.compact.tables ++ sv } = L.get ↔ BringNothingBack L sv := by
  have hmerged : ∀ key, resolve Entry.live ((L.compact.tables ++ sv).map fun t => layer t.2) key =
      resolve Entry.live (layer (mergedTables L.tables) :: sv.map fun t => layer t.2) key := by
    intro key
    unfold Layers.compact
    rw [if_neg (by omega)]
    split_ifs with hemp
    · exact (resolve_cons_none (layer_eq_none_of_isEmpty hemp key)).symm
    · rfl
  have hiff : ∀ key, resolve Entry.live ((L.compact.tables ++ sv).map fun t => layer t.2) key =
      resolve Entry.live (L.tables.map fun t => layer t.2) key ↔
      ∀ e, first (L.tables.map fun t => layer t.2) key = some e → e.live = none →
        resolve Entry.live (sv.map fun t => layer t.2) key = none := fun key => by
    rw [hmerged]
    exact resolve_merge_over_iff (merges_mergedTables L.tables key) (first_sublist (hsv.map _))
  constructor
  · intro hget key e hnone hfirst hlive
    have hkey := congrFun hget key
    unfold Layers.get Layers.stack at hkey
    rw [resolve_cons_none hnone, resolve_cons_none hnone] at hkey
    exact (hiff key).1 hkey e hfirst hlive
  · intro hback
    funext key
    unfold Layers.get Layers.stack
    cases hl : layer L.data key with
    | some e => rw [resolve_cons_some hl, resolve_cons_some hl]
    | none =>
      rw [resolve_cons_none hl, resolve_cons_none hl]
      exact (hiff key).2 fun e hfirst hlive => hback key e hl hfirst hlive

/-! ## The directory after a compaction -/

/-- Whatever a crash leaves, the directory opens to the reads of `L` exactly if the survivors bring
nothing back. -/
def SafeLeftovers (p : Prost) (dir : String) (L : Layers) (d : Disk) : Prop :=
  ∀ keep, Reopens p dir (d.crash keep) L.get ↔ BringNothingBack L (survivors d L.tables)

theorem Compacted.safeLeftovers (hp : p.Lawful) {sv : List (ℕ × Memtable)} (h : Compacted p s d d' L sv)
    (hold : Stored p d L junk t) (hbelow : ∀ x ∈ L.tables, x.1 < L.nextId) (hlen : 2 ≤ L.tables.length)
    (hsv : sv.Sublist L.tables) : SafeLeftovers p dir L d' := by
  intro keep
  rw [h.survivors_eq hold.toTablesStored hbelow hlen hsv, ← get_over_survivors hlen hsv]
  obtain ⟨junk', t', hlog⟩ := (hold.toLogStored.frame h.log).crash keep
  have hstored : Stored p (d'.crash keep) { L with tables := L.compact.tables ++ sv } junk' t' :=
    { h.tables.crash keep, hlog with }
  exact (hstored.reopens hp rfl).reopens_iff

/-- A key in the older of two tables, deleted in the newer one. -/
def deletedOps : List Op := [.setValue [1] (.integer 5), .flush, .deleteValue [1], .flush]

/-- The removal of `path` fails with `f`. -/
def Env.failsRemove (path : FileName) (f : Fault) : Env := fun _ c =>
  if c = ⟨.remove, path⟩ then some f else none

end FerrumDB
