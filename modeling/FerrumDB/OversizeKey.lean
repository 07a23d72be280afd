import FerrumDB.ByteValues
import FerrumDB.Oversize

/-!
# A key that is read as another record

A key of 4 GiB makes the length of its record wrap to 0 and that of its block to 15, so a reader takes the
first bytes of the key for a whole block. They can be chosen to pass its checksum and to hold an integer:
the table API puts bytes, and a scan meets a value that is not (`scan_unexpectedValue`).
-/

namespace FerrumDB

open ByteCodec CrashLogic

variable {env : Env} {s : Store} {d : Disk} {n : ℕ}

/-! ## The table of the key -/

/-- After a key length of 0: a value of two bytes, the integer 5, and the checksum of all this. -/
def falseHead : Bytes := [0, 0, 0, 0, 2, 8, 5, 208, 176, 27, 5]

/-- A key of `n` bytes. -/
def falseKey (n : ℕ) : Bytes := falseHead ++ List.replicate (n - 11) 0

def falseRecords (n : ℕ) : List Record := [(falseKey n, .value (.bytes []))]

theorem length_falseKey (hn : n = 2 ^ 32) : (falseKey n).length = n := by
  unfold falseKey
  rw [List.length_append, List.length_replicate, show falseHead.length = 11 from rfl]
  omega

theorem blockBytes_false (hn : n = 2 ^ 32) :
    blockBytes Prost.wire (falseRecords n) = [0, 0, 0, 0] ++ falseKey n ++ [0, 0, 0, 0, 2, 42, 0] := by
  have hlen : u32Bytes (asU32 (falseKey n).length) = [0, 0, 0, 0] := by
    rw [length_falseKey hn, hn]
    decide
  rw [falseRecords, blockBytes_cons, blockBytes_nil, List.append_nil]
  unfold encodeRecord lenPrefixed
  rw [hlen]
  rfl

theorem length_blockBytes_false (hn : n = 2 ^ 32) :
    (blockBytes Prost.wire (falseRecords n)).length = n + 11 := by
  rw [blockBytes_false hn, List.length_append, List.length_append, length_falseKey hn,
    List.length_cons, List.length_cons, List.length_cons, List.length_cons, List.length_nil]
  rw [show ([0, 0, 0, 0, 2, 42, 0] : Bytes).length = 7 from rfl]
  omega

/-- The block length of the index wraps, to the head of the key. -/
theorem wrapped_false (hn : n = 2 ^ 32) :
    Wrapped (falseRecords n) ⟨falseKey n, 0, 15⟩ ([0, 0, 0, 0] ++ falseHead) where
  index := by
    have hlen : asU32 ((blockBytes Prost.wire (falseRecords n)).length + 4) = 15 := by
      rw [length_blockBytes_false hn, hn]
      decide
    unfold tableIndex
    rw [falseRecords, groups_singleton, indexFrom, indexFrom]
    unfold falseRecords at hlen
    rw [hlen]
    rfl
  offset := rfl
  len := rfl
  starts := by
    have hregion : dataRegion Prost.wire (groups Prost.wire (falseRecords n)) =
        blockBytes Prost.wire (falseRecords n) ++ (u32Bytes (crc32 (blockBytes Prost.wire (falseRecords n))) ++ []) := by
      rw [falseRecords, groups_singleton]
      exact List.append_assoc _ _ _
    rw [encodeTable_eq]
    dsimp only
    rw [hregion]
    conv => rhs; lhs; lhs; rw [blockBytes_false hn, falseKey]
    simp only [List.append_assoc]
    rw [← List.append_assoc]
    exact List.prefix_append _ _

/-- The checksum is right. -/
theorem checkBlock_false : checkBlock ⟨falseKey n, 0, 15⟩ ([0, 0, 0, 0] ++ falseHead) =
    .ok [0, 0, 0, 0, 0, 0, 0, 0, 2, 8, 5] := by
  have hcrc : crc32 [0, 0, 0, 0, 0, 0, 0, 0, 2, 8, 5] = UInt32.ofNat (ofBe [208, 176, 27, 5]) := by
    decide +kernel
  unfold checkBlock
  rw [if_neg (by decide)]
  dsimp only
  exact if_neg (not_not_intro hcrc)

/-- And the block holds an integer. -/
theorem decodeRecords_false : decodeRecords Prost.wire [0, 0, 0, 0, 0, 0, 0, 0, 2, 8, 5] 11 0 [] =
    .ok [([], .value (.integer 5))] := by
  decide +kernel

/-- The file system has room for the table. -/
theorem length_file_false (hn : n = 2 ^ 32) :
    (encodeTable Prost.wire (falseRecords n)).file.length ≤ maxFileLen := by
  have hkeys : ∀ e ∈ falseRecords n, e.1.length ≤ n := by
    intro e he
    rw [List.mem_singleton.1 he]
    exact (length_falseKey hn).le
  have hlen := length_file_single_le (groups_singleton Prost.wire (falseKey n, .value (.bytes []))) hkeys
  have hlen : (encodeTable Prost.wire (falseRecords n)).file.length ≤
    (blockBytes Prost.wire (falseRecords n)).length + 3 * n + (BloomFilter.new 1).bits.length + 200 := hlen
  have hbloom : (BloomFilter.new 1).bits.length = 8 := by decide
  rw [length_blockBytes_false hn, hbloom] at hlen
  unfold maxFileLen
  omega

/-! ## Scanning it -/

theorem returns_readAllEntries_false (hn : n = 2 ^ 32) {name : FileName} {f : File} {σ : Type} {a : σ}
    (hd : d.files[name]? = some f) (hf : f.bytes = (encodeTable Prost.wire (falseRecords n)).file)
    {Q : List Record → σ → Disk → Prop} {E : Stop → σ → Disk → Prop}
    (hio : ∀ e, ¬ env.Faults (readCalls name) e) (hQ : Q [([], .value (.integer 5))] a d) :
    Does env ((freshTable Prost.wire name (falseRecords n)).readAllEntries Prost.wire) a d Q E := by
  have hindex : (freshTable Prost.wire name (falseRecords n)).index = [⟨falseKey n, 0, 15⟩] :=
    (wrapped_false hn).index
  unfold SsTable.readAllEntries
  rw [hindex, if_neg (by simp)]
  refine Does.bind (does_openRead hd ?_ fun e he =>
    (hio e (he.mono fun c hc => by rw [hc]; exact ⟨rfl, Or.inl rfl⟩)).elim)
  refine Does.bind ((wrapped_false hn).does_readBlock hd hf hio (fun records hr => ?_) fun stop hs => ?_)
  · rw [checkBlock_false] at hr
    cases hr
    refine Does.bind ?_
    rw [show ([0, 0, 0, 0, 0, 0, 0, 0, 2, 8, 5] : Bytes).length = 11 from rfl, decodeRecords_false]
    exact .pure (.pure hQ)
  · rw [checkBlock_false] at hs
    cases hs

/-- **A scan** over the table takes the integer for a pair. -/
theorem returns_scanRange_false (hn : n = 2 ^ 32) (h : Alone (falseRecords n) s d) :
    Returns (Store.scanRange Prost.wire .unbounded .unbounded) s d fun r _ _ => r = [([], .integer 5)] := by
  obtain ⟨f, hd, hf, -⟩ := h.file
  have hrange : (freshTable Prost.wire (sstName 1) (falseRecords n)).keyRange = some (falseKey n, falseKey n) := rfl
  unfold Store.scanRange
  refine .withSelf (Does.bind ?_)
  rw [h.sstables, List.reverse_singleton]
  unfold Store.scanTables
  rw [hrange]
  dsimp only
  rw [if_neg (by simp [rangeOverlaps])]
  refine Does.bind (returns_readAllEntries_false hn hd hf (fun _ => Env.not_faults_quiet) ?_)
  unfold Store.scanTables
  refine .pure (Does.bind ?_)
  have hdata : s.dataRange .unbounded .unbounded = .ok [] := by
    unfold Store.dataRange
    rw [h.data]
    rfl
  rw [hdata]
  refine .pure (.pure ?_)
  show (((∅ : Memtable).insertMany [([], Entry.value (.integer 5))]).insertMany []).toList.filterMap _ = _
  rw [Std.ExtTreeMap.insertMany_nil, Std.ExtTreeMap.insertMany_list_singleton, toList_singleton]
  rfl

/-! ## A put and a scan -/

/-- **Putting the key** into an empty table returns. -/
theorem returns_setValue_false (hn : n = 2 ^ 32) (h : Agrees Prost.wire s d Layers.empty [] []) :
    Returns (Store.setValue Prost.wire (falseKey n) (.bytes [])) s d fun _ s' d' =>
      Alone (falseRecords n) s' d' := by
  have hbig : DEFAULT_MEMTABLE_MAX_BYTES ≤ (falseKey n).length + ([] : Bytes).length := by
    rw [length_falseKey hn, hn]
    decide
  have hroom : (falseKey n).length + ([] : Bytes).length + 300 ≤ maxFileLen := by
    rw [length_falseKey hn, hn]
    decide
  rw [setValue_eq]
  exact Does.bind ((returns_writeBatch_put hbig hroom (length_file_false hn) h).mono
    (fun _ _ _ h' => .pure h') fun _ _ _ he => he)

/-- A table is opened in an empty directory, a key of 4 GiB is put with the empty value, and then a scan
of the table fails with `UnexpectedValue`. -/
theorem scan_unexpectedValue : ∃ x y z,
    Store.openWithDir Prost.wire "db" ⟨Store.fresh "db" ⟨walName, false⟩, Disk.empty, Env.quiet, 0⟩ = .ok () x ∧
      Table.put Prost.wire (falseKey (2 ^ 32)) [] ⟨x.self, x.disk, Env.quiet, 0⟩ = .ok () y ∧
      Table.scan Prost.wire ⟨y.self, y.disk, Env.quiet, 0⟩ = .error (.err .unexpectedValue) z := by
  have hopen : Returns (Store.openWithDir Prost.wire "db") (Store.fresh "db" ⟨walName, false⟩) Disk.empty
      fun _ s d => Agrees Prost.wire s d Layers.empty [] [] :=
    does_openWithDir wire_lawful stored_empty rfl fun _ _ h' => h'
  obtain ⟨_, x, hx, hagrees⟩ := hopen.run 0
  obtain ⟨_, y, hy, halone⟩ := (returns_setValue_false rfl hagrees).run 0
  obtain ⟨_, z, hz, rfl⟩ := (returns_scanRange_false rfl halone).run 0
  refine ⟨x, y, z, hx, ?_, ?_⟩
  · unfold Table.put
    rw [bind_ok (core_ok hy)]
    rfl
  · unfold Table.scan Table.rangeBounds
    rw [bind_ok (core_ok hz)]
    rfl

end FerrumDB
