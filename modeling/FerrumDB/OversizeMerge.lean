import FerrumDB.Compaction

/-!
# A merge that does not fit its field

Two tables that fit can have a merge that does not: a small record in front of a value of almost 4 GiB
takes the block length of the merged table past 32 bits, where it wraps to 11. The compaction returns,
removes the two tables, and leaves one that cannot be read (`compaction_loses_big`).
-/

namespace FerrumDB

open ByteCodec

variable {env : Env} {s : Store} {d : Disk} {n : ℕ}

/-! ## The tables -/

def lowKey : Bytes := [96]

def lowRecord : Record := (lowKey, .value (.integer 5))

/-- The merged table: a small record, then a big one. -/
def mergedRecords (n : ℕ) : List Record := [lowRecord, (bigKey, .value (bigValue n))]

theorem groups_pair {p : Prost} {e e' : Record} (h : (blockBytes p [e]).length < BLOCK_SIZE) :
    groups p [e, e'] = [[e, e']] := by
  unfold groups groupsFrom
  rw [List.nil_append, if_neg (by omega)]
  unfold groupsFrom groupsFrom
  split
  · rfl
  · rfl

theorem length_valueBytes_big (hn : n = 2 ^ 32 - 21) :
    (Prost.wire.encodeValue (bigValue n).toProto).length = n + 6 := by
  have hfield : Prost.wire.encodeValue (bigValue n).toProto =
      (Protobuf.varint 42 ++ (Protobuf.varint (List.replicate n (0 : UInt8)).length ++ List.replicate n 0)) ++ [] := rfl
  have hvarint : (Protobuf.varint n).length = 5 := by
    rw [hn]
    decide
  rw [hfield, List.append_nil, List.length_replicate, List.length_append, List.length_append, hvarint,
    List.length_replicate, show (Protobuf.varint 42).length = 1 from rfl]
  omega

theorem length_encodeRecord_big (hn : n = 2 ^ 32 - 21) :
    (encodeRecord Prost.wire bigKey (.value (bigValue n))).length = n + 16 := by
  have hvalue := length_valueBytes_big hn
  simp only [encodeRecord, List.length_append, List.length_cons, length_lenPrefixed, hvalue]
  rw [show bigKey.length = 1 from rfl]
  omega

/-- The big value alone fits. -/
theorem tableFits_big (hn : n = 2 ^ 32 - 21) : TableFits Prost.wire (bigRecords n) := by
  have hgroups : groups Prost.wire (bigRecords n) = [bigRecords n] := groups_singleton _ _
  have hblock : (blockBytes Prost.wire (bigRecords n)).length = n + 16 := by
    rw [bigRecords, blockBytes_cons, blockBytes_nil, List.append_nil]
    exact length_encodeRecord_big hn
  have hbloom : (BloomFilter.new 1).bits.length = 8 := by decide
  have hkeys : ∀ e ∈ bigRecords n, e.1.length ≤ 1 := by simp [bigRecords, bigKey]
  refine ⟨fun e he => ?_, fun e he => ?_, fun g hg => ?_, ?_, ?_, ?_⟩
  · have := hkeys e he
    omega
  · rw [List.mem_singleton.1 he]
    show (Prost.wire.encodeValue (bigValue n).toProto).length < _
    rw [length_valueBytes_big hn]
    omega
  · rw [hgroups] at hg
    rw [List.mem_singleton.1 hg, hblock]
    omega
  · rw [hgroups]
    exact (by decide : 1 < 2 ^ 32)
  · show (BloomFilter.new 1).bits.length < 2 ^ 32
    decide
  · have hlen := length_file_single_le hgroups hkeys
    rw [hblock, show (bigRecords n).length = 1 from rfl, hbloom] at hlen
    unfold maxFileLen
    omega

theorem groups_merged (n : ℕ) : groups Prost.wire (mergedRecords n) = [mergedRecords n] :=
  groups_pair (by decide)

theorem length_blockBytes_merged (hn : n = 2 ^ 32 - 21) :
    (blockBytes Prost.wire (mergedRecords n)).length = n + 28 := by
  rw [mergedRecords, blockBytes_cons, blockBytes_cons, blockBytes_nil, List.append_nil, List.length_append,
    show (encodeRecord Prost.wire lowRecord.1 lowRecord.2).length = 12 from rfl, length_encodeRecord_big hn]
  omega

/-- The first 11 bytes of the merged table. -/
def mergedHead : Bytes := [0, 0, 0, 1, 96, 0, 0, 0, 0, 2, 8]

theorem wrapped_merged (hn : n = 2 ^ 32 - 21) :
    Wrapped (mergedRecords n) ⟨lowKey, 0, 11⟩ mergedHead where
  index := by
    have hlen : asU32 ((blockBytes Prost.wire (mergedRecords n)).length + 4) = 11 := by
      rw [length_blockBytes_merged hn, hn]
      decide
    unfold tableIndex
    rw [groups_merged, indexFrom, indexFrom, hlen]
    rfl
  offset := rfl
  len := rfl
  starts := by
    have hrecord : encodeRecord Prost.wire lowRecord.1 lowRecord.2 = mergedHead ++ [5] := rfl
    have hregion : dataRegion Prost.wire (groups Prost.wire (mergedRecords n)) =
        blockBytes Prost.wire (mergedRecords n) ++ (u32Bytes (crc32 (blockBytes Prost.wire (mergedRecords n))) ++ []) := by
      rw [groups_merged]
      exact List.append_assoc _ _ _
    rw [encodeTable_eq]
    dsimp only
    rw [hregion]
    conv => rhs; lhs; lhs; rw [mergedRecords, blockBytes_cons, hrecord]
    simp only [List.append_assoc]
    exact List.prefix_append _ _

theorem checkBlock_merged : checkBlock ⟨lowKey, 0, 11⟩ mergedHead = .error (.err (crcMismatch 0)) := by
  have hcrc : crc32 [0, 0, 0, 1, 96, 0, 0] ≠ 520 := by decide +kernel
  unfold checkBlock
  rw [if_neg (by decide)]
  dsimp only
  rw [if_pos (by show crc32 [0, 0, 0, 1, 96, 0, 0] ≠ _; exact hcrc)]

theorem length_file_merged (hn : n = 2 ^ 32 - 21) :
    (encodeTable Prost.wire (mergedRecords n)).file.length ≤ maxFileLen := by
  have hkeys : ∀ e ∈ mergedRecords n, e.1.length ≤ 1 := by simp [mergedRecords, lowRecord, lowKey, bigKey]
  have hlen := length_file_single_le (groups_merged n) hkeys
  have hbloom : (BloomFilter.new 2).bits.length = 8 := by decide
  rw [length_blockBytes_merged hn, show (mergedRecords n).length = 2 from rfl, hbloom] at hlen
  unfold maxFileLen
  omega

/-! ## Writing them -/

def bigMap (n : ℕ) : Memtable := (∅ : Memtable).insert bigKey (.value (bigValue n))

def lowMap : Memtable := (∅ : Memtable).insert lowKey (.value (.integer 5))

/-- The layers after the big value was put, which flushes it. -/
def bigLayers (n : ℕ) : Layers := ⟨∅, DEFAULT_MEMTABLE_MAX_BYTES, [], 1, [(1, bigMap n)], 2⟩

/-- The layers after a small value was put and flushed on top. -/
def twoLayers (n : ℕ) : Layers :=
  ⟨∅, DEFAULT_MEMTABLE_MAX_BYTES, [], 2, [(2, lowMap), (1, bigMap n)], 3⟩

theorem step_big (hn : n = 2 ^ 32 - 21) :
    (Op.setValue bigKey (bigValue n)).step Layers.empty = bigLayers n := by
  have hbytes : (Layers.empty.write (bigBatch n)).bytes ≥ DEFAULT_MEMTABLE_MAX_BYTES := by
    show ((bigMap n).toList.map fun e => entryFootprint e.1 e.2).sum ≥ _
    rw [bigMap, toList_singleton]
    show 1 + (List.replicate n (0 : UInt8)).length + 0 ≥ _
    rw [List.length_replicate, hn]
    decide
  have hne : (Layers.empty.write (bigBatch n)).data.isEmpty = false := by
    rw [← Std.ExtTreeMap.isEmpty_toList]
    show (bigMap n).toList.isEmpty = false
    rw [bigMap, toList_singleton]
    rfl
  show (Layers.empty.write (bigBatch n)).maybeFlush = _
  rw [maybeFlush_eq_flush ⟨hbytes, hne⟩]
  unfold Layers.flush
  rw [hne]
  rfl

theorem fits_big (hn : n = 2 ^ 32 - 21) :
    (Op.setValue bigKey (bigValue n)).Fits Prost.wire Layers.empty where
  write := by
    refine ⟨?_, (by decide : 0 + 1 < 2 ^ 64)⟩
    have hlen := length_logBytes_put_le bigKey (List.replicate n 0)
    rw [List.length_replicate] at hlen
    have hlen : (logBytes Prost.wire (Layers.empty.write (bigBatch n)).log).length ≤ 1 + n + 300 := hlen
    show (logBytes Prost.wire (Layers.empty.write (bigBatch n)).log).length ≤ _
    unfold maxFileLen
    omega
  flush _ _ := by
    refine ⟨⟨?_, (by decide : 1 + 1 < 2 ^ 64)⟩, fun hmany => absurd hmany (by decide : ¬ 1 > MAX_SSTABLES)⟩
    show FerrumDB.TableFits Prost.wire (bigMap n).toList
    rw [bigMap, toList_singleton]
    exact tableFits_big hn

def lowBatch : Batch := [(lowKey, some (.integer 5))]

theorem step_low (n : ℕ) : (Op.setValue lowKey (.integer 5)).step (bigLayers n) = (bigLayers n).write lowBatch := by
  show ((bigLayers n).write lowBatch).maybeFlush = _
  refine if_neg ?_
  show ¬ (lowMap.toList.map fun e => entryFootprint e.1 e.2).sum ≥ DEFAULT_MEMTABLE_MAX_BYTES
  rw [lowMap, toList_singleton]
  decide

theorem step_flush (n : ℕ) : Op.flush.step ((bigLayers n).write lowBatch) = twoLayers n := by
  have hne : ((bigLayers n).write lowBatch).data.isEmpty = false := by
    rw [← Std.ExtTreeMap.isEmpty_toList]
    show lowMap.toList.isEmpty = false
    rw [lowMap, toList_singleton]
    rfl
  show ((bigLayers n).write lowBatch).flush = _
  unfold Layers.flush
  rw [hne]
  rfl

theorem fits_low (n : ℕ) : (Op.setValue lowKey (.integer 5)).Fits Prost.wire (bigLayers n) where
  write := by
    refine ⟨?_, (by decide : 1 + 1 < 2 ^ 64)⟩
    show (logBytes Prost.wire ([] ++ (batchLog 1 lowBatch ++ [commitEntry 2]))).length ≤ maxFileLen
    decide
  flush hfull := by
    have hbytes : ¬ (lowMap.toList.map fun e => entryFootprint e.1 e.2).sum ≥ DEFAULT_MEMTABLE_MAX_BYTES := by
      rw [lowMap, toList_singleton]
      decide
    exact absurd hfull hbytes

theorem fits_flush (n : ℕ) : Op.flush.Fits Prost.wire ((bigLayers n).write lowBatch) := by
  intro _
  refine ⟨⟨?_, (by decide : 2 + 1 < 2 ^ 64)⟩, fun hmany => absurd hmany (by decide : ¬ 2 > MAX_SSTABLES)⟩
  show FerrumDB.TableFits Prost.wire lowMap.toList
  rw [lowMap, toList_singleton]
  decide +kernel

/-- The run that writes both tables. -/
def twoTables (n : ℕ) : List Op :=
  [.setValue bigKey (bigValue n), .setValue lowKey (.integer 5), .flush]

theorem returns_twoTables (hn : n = 2 ^ 32 - 21) (dir : String) :
    Returns (runOps Prost.wire dir (twoTables n)) s Disk.empty fun _ s' d' =>
      Agrees Prost.wire s' d' (twoLayers n) [] [] := by
  have hfits : RunFits Prost.wire Layers.empty (twoTables n) := by
    refine ⟨fits_big hn, ?_, ?_, trivial⟩
    · rw [step_big hn]
      exact fits_low n
    · rw [step_big hn, step_low]
      exact fits_flush n
  have hsteps : (twoTables n).foldl Op.step Layers.empty = twoLayers n := by
    show Op.flush.step ((Op.setValue lowKey (.integer 5)).step
      ((Op.setValue bigKey (bigValue n)).step Layers.empty)) = _
    rw [step_big hn, step_low, step_flush]
  have hrun : Returns (runOps Prost.wire dir (twoTables n)) s Disk.empty _ :=
    returns_runOps wire_lawful (twoTables n) hfits s
  rwa [hsteps] at hrun

/-! ## Merging them -/

theorem layer_singleton (key k : Bytes) (e : Entry) :
    layer ((∅ : Memtable).insert key e) k = if key = k then some e else none := by
  unfold layer
  rw [Std.ExtTreeMap.getElem?_insert, Std.ExtTreeMap.getElem?_empty]
  simp only [Std.compare_eq_iff_eq]

theorem newest_twoLayers (n : ℕ) (key : Bytes) : (twoLayers n).newest key =
    if lowKey = key then some (.value (.integer 5))
    else if bigKey = key then some (.value (bigValue n)) else none := by
  unfold Layers.newest
  show (layer lowMap key).or ((layer (bigMap n) key).or none) = _
  rw [lowMap, bigMap, layer_singleton, layer_singleton, Option.or_none]
  split
  · rfl
  · rfl

theorem toList_merged (n : ℕ) : (mergedTables (twoLayers n).tables).toList = mergedRecords n := by
  have hne : bigKey ≠ lowKey := by decide
  refine OrderedMap.eq_of_mem_iff (OrderedMap.pairwise_lt_toList _) ?_ ?_
  · refine List.pairwise_pair.2 ?_
    show lowKey < bigKey
    decide
  · rintro ⟨key, e⟩
    rw [mem_mergedTables, newest_twoLayers]
    unfold mergedRecords lowRecord
    rw [List.mem_cons, List.mem_singleton, Prod.mk.injEq, Prod.mk.injEq]
    constructor
    · rintro ⟨-, hnewest⟩
      split_ifs at hnewest with hlow hbig
      · exact Or.inl ⟨hlow.symm, (Option.some.inj hnewest).symm⟩
      · exact Or.inr ⟨hbig.symm, (Option.some.inj hnewest).symm⟩
    · rintro (⟨rfl, rfl⟩ | ⟨rfl, rfl⟩)
      · exact ⟨rfl, if_pos rfl⟩
      · refine ⟨rfl, ?_⟩
        rw [if_neg hne.symm, if_pos rfl]

/-- The store after the compaction: one table, which cannot be read. -/
structure Merged (n : ℕ) (s : Store) (d : Disk) : Prop where
  data : s.data = ∅
  sstables : s.sstables = [freshTable Prost.wire (sstName 3) (mergedRecords n)]
  file : ∃ f, d.files[sstName 3]? = some f ∧ f.bytes = (encodeTable Prost.wire (mergedRecords n)).file

/-- Without I/O failures, cleanup returns whatever is missing. -/
theorem returns_cleanup (paths : List FileName) : Returns (Store.cleanup paths) s d fun _ _ _ => True := by
  unfold Store.cleanup
  induction paths generalizing d with
  | nil => exact .pure trivial
  | cons path paths ih =>
    rw [List.forM_cons]
    refine Does.bind (.ignoreErr (.ioCall_noEffect ?_ fun e he => absurd he Env.not_faults_quiet))
    dsimp only
    split_ifs
    · exact ih
    · exact ih

theorem Merged.ignores {path : FileName} (hpath : path ∈ (twoLayers n).tables.map fun x => sstName x.1) :
    Ignores (Merged n) path := by
  intro s d d' hd hm
  obtain ⟨f, hf, hbytes⟩ := hm.file
  refine ⟨hm.data, hm.sstables, f, ?_, hbytes⟩
  rw [hd, hf]
  rintro rfl
  obtain ⟨x, hx, hname⟩ := List.mem_map.1 hpath
  have hids : ∀ x ∈ (twoLayers n).tables, x.1 ≠ 3 := by simp [twoLayers]
  exact hids x hx (sstName_injective hname)

/-- **Compacting the two tables** returns. -/
theorem returns_compact_big (hn : n = 2 ^ 32 - 21) (h : Agrees Prost.wire s d (twoLayers n) [] []) :
    Returns (Store.compact Prost.wire) s d fun _ s' d' => Merged n s' d' := by
  have hlen : s.sstables.length = 2 := h.handles.length_eq
  have hnext : s.nextSstableId = 3 := h.nextId
  have hdata : s.data = ∅ := h.data
  have hne : (mergedTables (twoLayers n).tables).isEmpty = false := by
    rw [← Std.ExtTreeMap.isEmpty_toList, toList_merged]
    rfl
  unfold Store.compact
  refine .withSelf ?_
  rw [hlen, if_neg (by decide), map_path h.handles]
  refine Does.bind (does_mergeTables wire_lawful h.toFollows.running ?_ fun e he => absurd he Env.not_faults_quiet)
  unfold Store.installMerged
  refine Does.bind (.withSelf ?_)
  rw [hne, if_neg (by simp), hnext, toList_merged]
  refine Does.bind (does_flush (length_file_merged hn) ?_ fun e he => absurd he Env.not_faults_quiet)
  refine Does.bind (does_succU64 (by decide) (.setSelf ?_))
  have hmerged : Merged n { s with
      nextSstableId := 3 + 1
      sstables := [freshTable Prost.wire (sstName 3) (mergedRecords n)] }
      (d.put (sstName 3) (tableFile Prost.wire (mergedRecords n) (length_file_merged hn))) := by
    have hput := Disk.files_put d (sstName 3) (sstName 3)
      (tableFile Prost.wire (mergedRecords n) (length_file_merged hn))
    rw [if_pos rfl] at hput
    exact ⟨hdata, rfl, _, hput, rfl⟩
  have hkeep := keeps_cleanup (fun path hpath => Merged.ignores hpath) Env.quiet _ _ hmerged
  exact ((returns_cleanup _).and hkeep).mono (fun _ _ _ h' => h'.2.1) fun _ _ _ he => he

/-- **Point reads** of the merged table fail. -/
theorem does_getValue_merged (hn : n = 2 ^ 32 - 21) (h : Merged n s d) {Q : Option Value → Store → Disk → Prop}
    {E : Stop → Store → Disk → Prop} (hE : ∀ s', E (.err (crcMismatch 0)) s' d)
    (hio : ∀ e, ¬ env.Faults (readCalls (sstName 3)) e) :
    Does env (Store.getValue Prost.wire lowKey) s d Q E := by
  obtain ⟨f, hd, hf⟩ := h.file
  have hasc : Ascending (mergedRecords n) := by
    refine List.pairwise_pair.2 ?_
    show lowKey < bigKey
    decide
  exact (wrapped_merged hn).does_getValue h.data h.sstables hd hf hio checkBlock_merged hasc
    (show (BloomFilter.new 2).bits.length < 2 ^ 32 by decide) rfl hE

/-- A value of almost 4 GiB and a small one, each in a table that can be read; the compaction of the two
returns, and then the small one can no longer be read. -/
theorem compaction_loses_big : Returns (runOps Prost.wire "db" (twoTables (2 ^ 32 - 21)))
    (Store.fresh "db" ⟨walName, false⟩) Disk.empty fun _ s d =>
      Returns (Store.getValue Prost.wire lowKey) s d (fun r _ _ => r = some (.integer 5)) ∧
      Returns (Store.compact Prost.wire) s d fun _ s' d' => ¬ SameReads Prost.wire s d s' d' := by
  refine (returns_twoTables rfl "db").mono (fun _ s d h => ?_) fun _ _ _ he => he
  have hread : Returns (Store.getValue Prost.wire lowKey) s d fun r _ _ => r = some (.integer 5) := by
    refine does_getValue wire_lawful h.toFollows (fun _ _ => ?_) fun _ he => absurd he Env.not_faults_quiet
    have hempty : layer (twoLayers (2 ^ 32 - 21)).data lowKey = none := Std.ExtTreeMap.getElem?_empty
    unfold Layers.get Layers.stack
    rw [Overlay.resolve_cons_none hempty]
    show ((twoLayers (2 ^ 32 - 21)).newest lowKey).bind Entry.live = _
    rw [newest_twoLayers, if_pos rfl]
    rfl
  refine ⟨hread, (returns_compact_big rfl h).mono (fun _ s' d' hmerged hsame => ?_) fun _ _ _ he => he⟩
  exact ((hsame lowKey _).1 hread).not_stops (E := fun _ _ _ => True)
    (does_getValue_merged rfl hmerged (fun _ => trivial) fun _ => Env.not_faults_quiet)

end FerrumDB
