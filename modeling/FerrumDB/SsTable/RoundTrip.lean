import FerrumDB.SsTable.Open
import FerrumDB.Wire

/-!
# The table format round-trips

Flushing a map and opening the file gives back the handle and the map: the listing is the map in key
order, and a lookup after any lookups before it answers as the map does.
-/

namespace FerrumDB

variable {σ : Type} {d : Disk} {p : Prost}

/-- Look up the keys of `ks`, then `key`. -/
def getAfter (p : Prost) (ks : List Bytes) (key : Bytes) : Prog SsTable (Option Entry) := do
  forM ks fun k => discard (SsTable.get p k)
  SsTable.get p key

theorem returns_getAfter (hp : p.Lawful) {t : SsTable} {f : File} {entries : List Record}
    (hd : d.files[t.path]? = some f) (h : f.Holds p entries) (ht : t.Serves p entries)
    (ks : List Bytes) (key : Bytes) :
    Returns (getAfter p ks key) t d fun r _ _ => r = entries.lookup key := by
  -- the lookups before only change the cache
  have hloop : Returns (forM ks fun k => discard (SsTable.get p k)) t d fun _ t' d' =>
      d' = d ∧ t'.path = t.path ∧ t'.Serves p entries := Does.loop
    (fun (t' : SsTable) d' => d' = d ∧ t'.path = t.path ∧ t'.Serves p entries) ks
    (fun k _ t' d' ⟨hd', hpath, hs⟩ => by
      subst hd'
      rw [← hpath] at hd
      refine Does.bind (does_get hp hd h hs (fun c hc => .pure ⟨rfl, hpath, hs.withCache hc⟩) ?_)
      exact fun e he => absurd he Env.not_faults_quiet)
    ⟨rfl, rfl, ht⟩
  refine hloop.seq fun _ t' d' ⟨hd', hpath, hs⟩ => ?_
  subst hd'
  rw [← hpath] at hd
  exact does_get hp hd h hs (fun c hc => rfl) fun e he => absurd he Env.not_faults_quiet

/-- **Round trip.** For a map that fits its fields, flushing it to a file and opening the file gives
the same index, key range and filter; the listing is the map in ascending key order; and every key,
present or not, is looked up as the map has it, a tombstone as a tombstone. -/
theorem open_flush (hp : p.Lawful) (M : Std.ExtTreeMap Bytes Entry compare)
    (hfits : TableFits p M.toList) (path : FileName) (a : σ) (d : Disk) :
    Returns (SsTable.flush p path M.toList) a d fun t a d =>
      Returns (SsTable.open path) a d fun t' a d =>
        t'.index = t.index ∧ t'.minKey = t.minKey ∧ t'.maxKey = t.maxKey ∧ t'.bloom = t.bloom ∧
        Returns (t'.readAllEntries p) a d (fun es _ _ => es = M.toList ∧ Ascending es) ∧
        ∀ ks key, Returns (getAfter p ks key) t' d fun r _ _ => r = M[key]? := by
  have hasc := ascending_toList M
  have hholds := holds_tableFile hfits hasc
  refine does_flush hfits.file ?_ fun e he => absurd he Env.not_faults_quiet
  have hd : (d.put path (tableFile p M.toList hfits.file)).files[path]? =
      some (tableFile p M.toList hfits.file) := by simp
  refine does_open hd ?_ fun e he => absurd he Env.not_faults_quiet
  rw [parse_of_holds hholds]
  refine ⟨rfl, rfl, rfl, rfl, ?_, fun ks key => ?_⟩
  · exact does_readAllEntries hp hd hholds rfl ⟨rfl, hasc⟩ fun e he => absurd he Env.not_faults_quiet
  · have hget := returns_getAfter hp (t := freshTable p path M.toList) hd hholds
      (serves_freshTable path M.toList) ks key
    rw [lookup_toList] at hget
    exact hget

/-- A map with a value of every kind, a tombstone and the empty key. -/
def sampleMap : Std.ExtTreeMap Bytes Entry compare :=
  .ofList [([], .value (.integer (-1))), ([7], .tombstone), ([7, 0], .value (.bytes [1, 2])),
    ([9], .value (.float 4607182418800017408)), ([1], .value (.boolean true)),
    ([255], .value (.text "iron"))] compare

theorem tableFits_sampleMap : TableFits Prost.wire sampleMap.toList := by decide +kernel

set_option maxRecDepth 100000 in
theorem open_flush_sampleMap :
    TableFits Prost.wire sampleMap.toList ∧
    Returns (SsTable.flush Prost.wire "sstable_1.sst" sampleMap.toList) () Disk.empty fun t a d =>
      Returns (SsTable.open "sstable_1.sst") a d fun t' a d =>
        t'.index = t.index ∧ t'.minKey = t.minKey ∧ t'.maxKey = t.maxKey ∧ t'.bloom = t.bloom ∧
        Returns (t'.readAllEntries Prost.wire) a d (fun es _ _ => es = sampleMap.toList ∧ Ascending es) ∧
        ∀ ks key, Returns (getAfter Prost.wire ks key) t' d fun r _ _ => r = sampleMap[key]? :=
  ⟨tableFits_sampleMap, open_flush wire_lawful sampleMap tableFits_sampleMap "sstable_1.sst" ()
    Disk.empty⟩

end FerrumDB
