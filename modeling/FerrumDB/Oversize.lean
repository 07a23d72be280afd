import FerrumDB.Refinement
import FerrumDB.Store.Crash

/-!
# A value that does not fit its field

The lengths of a record and of a block are narrowed to 32 bits without a check. A value of 4 GiB,
alone in its block, makes the block length of the index wrap to 20: the table can be written and
opened, but reading the block fails its checksum (`does_readBlockFromDisk_big`), and with it every
read of the key (`does_getValue_big`).
-/

namespace FerrumDB

open ByteCodec

variable {env : Env} {s : Store} {d : Disk} {n : ℕ}

/-! ## The table of one big value -/

def bigKey : Bytes := [97]

/-- `n` zero bytes. -/
def bigValue (n : ℕ) : Value := .bytes (List.replicate n 0)

def bigRecords (n : ℕ) : List Record := [(bigKey, .value (bigValue n))]

theorem groups_singleton (p : Prost) (e : Record) : groups p [e] = [[e]] := by
  unfold groups groupsFrom groupsFrom
  split
  · rfl
  · rfl

/-- The first 16 bytes of the record: its key, its type, a length wrapped to 6, and the head of the
message. -/
def bigHead : Bytes := [0, 0, 0, 1, 97, 0, 0, 0, 0, 6, 42, 128, 128, 128, 128, 16]

theorem encodeValueMessage_big (hn : n = 2 ^ 32) : encodeValueMessage (bigValue n).toProto =
    [42, 128, 128, 128, 128, 16] ++ List.replicate n 0 := by
  show encodeValueMessage ⟨some (.data (List.replicate n 0))⟩ = _
  simp only [encodeValueMessage, Option.toList_some, List.map_cons, List.map_nil, Kind.toField,
    Protobuf.encodeFields, List.flatMap_cons, List.flatMap_nil, List.append_nil, Protobuf.encodeField,
    Protobuf.Payload.wireType, Protobuf.encodePayload, List.length_replicate]
  rw [hn, ← List.append_assoc]
  congr 1

theorem blockBytes_big (hn : n = 2 ^ 32) :
    blockBytes Prost.wire (bigRecords n) = bigHead ++ List.replicate n 0 := by
  have hvalue : Prost.wire.encodeValue (bigValue n).toProto = _ := encodeValueMessage_big hn
  have hlen : u32Bytes (asU32 ([42, 128, 128, 128, 128, 16] ++ List.replicate n (0 : UInt8)).length) =
      [0, 0, 0, 6] := by
    rw [List.length_append, List.length_replicate, hn]
    decide
  rw [bigRecords, blockBytes_cons, blockBytes_nil, List.append_nil]
  show lenPrefixed bigKey ++ TYPE_VALUE :: lenPrefixed (Prost.wire.encodeValue (bigValue n).toProto) = _
  rw [hvalue]
  unfold lenPrefixed
  rw [hlen]
  rfl

/-- The index entry of the block: its length has wrapped. -/
theorem tableIndex_big (hn : n = 2 ^ 32) :
    tableIndex Prost.wire (bigRecords n) = [⟨bigKey, 0, 20⟩] := by
  have hlen : asU32 ((blockBytes Prost.wire (bigRecords n)).length + 4) = 20 := by
    rw [blockBytes_big hn, List.length_append, List.length_replicate, hn]
    decide
  unfold tableIndex bigRecords
  rw [groups_singleton]
  unfold bigRecords at hlen
  rw [indexFrom, indexFrom, hlen]
  rfl

theorem file_big (hn : n = 2 ^ 32) : ∃ rest,
    (encodeTable Prost.wire (bigRecords n)).file = bigHead ++ ([0, 0, 0, 0] ++ rest) := by
  have hzeros : List.replicate n (0 : UInt8) = [0, 0, 0, 0] ++ List.replicate (n - 4) 0 := by
    have h4 : n = 4 + (n - 4) := by omega
    conv => lhs; rw [h4, List.replicate_add]
    rfl
  have hregion : dataRegion Prost.wire (groups Prost.wire (bigRecords n)) = bigHead ++ ([0, 0, 0, 0] ++
      (List.replicate (n - 4) 0 ++ u32Bytes (crc32 (blockBytes Prost.wire (bigRecords n))))) := by
    have hg : groups Prost.wire (bigRecords n) = [bigRecords n] := groups_singleton _ _
    have hblock := blockBytes_big hn
    rw [hzeros] at hblock
    rw [hg]
    show (blockBytes Prost.wire (bigRecords n) ++ _) ++ [] = _
    rw [List.append_nil]
    conv => lhs; lhs; rw [hblock]
    simp only [List.append_assoc]
  rw [encodeTable_eq]
  dsimp only
  rw [hregion, List.append_assoc, List.append_assoc]
  exact ⟨_, rfl⟩

/-! ## Lengths -/

theorem length_encodeValueMessage_bytes_le (b : Bytes) :
    (encodeValueMessage (Value.bytes b).toProto).length ≤ b.length + 20 := by
  have hfield : encodeValueMessage (Value.bytes b).toProto = Protobuf.encodeField ⟨5, .bytes b⟩ ++ [] := rfl
  rw [hfield, List.append_nil]
  exact Protobuf.length_encodeField_bytes_le 5 b

/-- The frames of one put of bytes are hardly longer than its key and its value. -/
theorem length_logBytes_put_le (key b : Bytes) :
    (logBytes Prost.wire (batchLog 0 [(key, some (.bytes b))] ++ [commitEntry 1])).length ≤
      key.length + b.length + 300 := by
  have hput : (Prost.wire.encodeEntry (Wal.createPutEntry key (.bytes b) 1)).length ≤ key.length + b.length + 80 := by
    have hfields : entryFields (Wal.createPutEntry key (.bytes b) 1) =
        (((if key = [] then [] else [⟨2, .bytes key⟩]) ++
          [⟨3, .bytes (encodeValueMessage (Value.bytes b).toProto)⟩]) ++ [⟨4, .varint 1⟩]) ++ [] := rfl
    have hkey : ((if key = [] then [] else [⟨2, .bytes key⟩] : List Protobuf.Field).flatMap
        Protobuf.encodeField).length ≤ key.length + 20 := by
      split
      · exact Nat.zero_le _
      · rw [List.flatMap_singleton]
        exact Protobuf.length_encodeField_bytes_le 2 key
    have hvalue := Protobuf.length_encodeField_bytes_le 3 (encodeValueMessage (Value.bytes b).toProto)
    have hmessage := length_encodeValueMessage_bytes_le b
    have hsequence := Protobuf.length_encodeField_varint_le 4 1
    show (Protobuf.encodeFields (entryFields _)).length ≤ _
    rw [hfields, List.append_nil]
    unfold Protobuf.encodeFields
    simp only [List.flatMap_append, List.length_append, List.flatMap_singleton]
    omega
  have hcommit : (frame Prost.wire (commitEntry 1)).length < 100 := by decide
  have hb : batchLog 0 [(key, some (.bytes b))] = [Wal.createPutEntry key (.bytes b) 1] := rfl
  rw [hb, logBytes_append, logBytes_singleton, logBytes_singleton, List.length_append, length_frame]
  omega

/-- The file of a table of one block is hardly longer than the block, three keys and the filter. -/
theorem length_file_single_le {p : Prost} {entries : List Record} {K : ℕ} (hg : groups p entries = [entries])
    (hK : ∀ e ∈ entries, e.1.length ≤ K) : (encodeTable p entries).file.length ≤
      (blockBytes p entries).length + 3 * K + (BloomFilter.new entries.length).bits.length + 200 := by
  have hkey : ∀ k ∈ entries.map Prod.fst, k.length ≤ K := by
    intro k hk
    obtain ⟨e, he, rfl⟩ := List.mem_map.1 hk
    exact hK e he
  have hfirst : (firstKey entries).length ≤ K := by
    unfold firstKey
    cases entries with
    | nil => exact Nat.zero_le _
    | cons e es => exact hK e (List.mem_cons_self ..)
  have hrange : (encodeKeyRange (entries.map Prod.fst).head? (entries.map Prod.fst).getLast?).length ≤ 2 * K + 8 := by
    cases hmin : (entries.map Prod.fst).head? with
    | none => exact Nat.zero_le _
    | some min =>
      cases hmax : (entries.map Prod.fst).getLast? with
      | none => exact Nat.zero_le _
      | some max =>
        have h1 := hkey min (List.mem_of_mem_head? hmin)
        have h2 := hkey max (List.mem_of_mem_getLast? hmax)
        simp only [encodeKeyRange, List.length_append, length_lenPrefixed]
        omega
  have hbloom : (encodeBloom (tableBloom entries)).length ≤ (BloomFilter.new entries.length).bits.length + 8 := by
    unfold tableBloom bloomOf
    split
    · exact Nat.zero_le _
    · have hlike := (BloomFilter.foldl_add_like (entries.map Prod.fst)
        (BloomFilter.new (entries.map Prod.fst).length)).1
      rw [List.length_map] at hlike
      simp only [encodeBloom, List.length_append, length_u32Bytes, length_lenPrefixed, List.length_map, hlike]
      omega
  have hdata : (dataRegion p (groups p entries)).length = (blockBytes p entries).length + 4 := by
    rw [hg]
    show (sealedBlock p entries ++ []).length = _
    rw [List.append_nil, length_sealedBlock]
  have hindex : ((tableIndex p entries).flatMap encodeIndexEntry).length ≤ K + 16 := by
    unfold tableIndex
    rw [hg]
    show (encodeIndexEntry _ ++ []).length ≤ _
    simp only [encodeIndexEntry, List.append_nil, List.length_append, length_lenPrefixed, length_u32Bytes,
      length_u64Bytes]
    omega
  rw [encodeTable_eq]
  dsimp only
  unfold tableRegion indexRegion
  simp only [List.length_append, length_footerBytes, hdata]
  unfold FOOTER_LEN
  omega

/-! ## Tables whose block length has wrapped -/

/-- The table of `entries` has one block, whose length in the index has wrapped: the index takes `head`,
the first bytes of the file, for the block. -/
structure Wrapped (entries : List Record) (e : IndexEntry) (head : Bytes) : Prop where
  index : tableIndex Prost.wire entries = [e]
  offset : e.blockOffset = 0
  len : e.blockLen.toNat = head.length
  starts : head <+: (encodeTable Prost.wire entries).file

section Wrapped

variable {σ : Type} {a : σ} {entries : List Record} {e : IndexEntry} {head : Bytes} {name : FileName}
  {f : File} {stop : Stop}

/-- Reading the block comes to checking `head`. -/
theorem Wrapped.does_readBlock (h : Wrapped entries e head) (hd : d.files[name]? = some f)
    (hf : f.bytes = (encodeTable Prost.wire entries).file) (hio : ∀ e, ¬ env.Faults (readCalls name) e)
    {Q : Bytes → σ → Disk → Prop} {E : Stop → σ → Disk → Prop}
    (hQ : ∀ records, checkBlock e head = .ok records → Q records a d)
    (hE : ∀ stop, checkBlock e head = .error stop → E stop a d) :
    Does env (readBlockFromDisk name e) a d Q E := by
  obtain ⟨rest, hrest⟩ := h.starts
  rw [← hrest] at hf
  have hread : f.readAt e.blockOffset.toNat e.blockLen.toNat = .ok head := by
    rw [h.offset, h.len, show (UInt64.toNat 0) = 0 from rfl]
    unfold File.readAt
    rw [if_neg (by unfold maxFileLen; omega), if_neg (by rw [hf, List.length_append]; omega), hf,
      List.drop_zero, List.take_left]
  exact does_readBlockFromDisk hd hread hQ hE fun stop hstop => (hio stop hstop).elim

/-- A key of the table cannot be read if the check of its block fails. -/
theorem Wrapped.does_get (h : Wrapped entries e head) (hd : d.files[name]? = some f)
    (hf : f.bytes = (encodeTable Prost.wire entries).file) (hio : ∀ e, ¬ env.Faults (readCalls name) e)
    (hcheck : checkBlock e head = .error stop) (hasc : Ascending entries)
    (hsize : (BloomFilter.new entries.length).bits.length < 2 ^ 32) {key : Bytes} {entry : Entry}
    (hkey : entries.lookup key = some entry)
    {Q : Option Entry → SsTable → Disk → Prop} {E : Stop → SsTable → Disk → Prop}
    (hE : ∀ t, E stop t d) :
    Does env (SsTable.get Prost.wire key) (freshTable Prost.wire name entries) d Q E := by
  refine does_get_block hasc hsize (serves_freshTable name entries) (fun hnone => ?_)
    fun pre g post hg _ => ?_
  · rw [hnone] at hkey
    cases hkey
  · have hmem : blockEntry Prost.wire pre g ∈ tableIndex Prost.wire entries := by
      unfold tableIndex
      rw [hg]
      exact List.mem_of_getElem? (getElem?_indexFrom_split pre post g)
    rw [h.index, List.mem_singleton] at hmem
    rw [hmem]
    refine Does.bind ?_
    unfold SsTable.cachedBlock
    refine .withSelf ?_
    refine Does.bind (does_openRead hd ?_ fun e he =>
      (hio e (he.mono fun c hc => by rw [hc]; exact ⟨rfl, Or.inl rfl⟩)).elim)
    refine Does.bind (h.does_readBlock hd hf hio (fun records hr => ?_) fun stop' hs => ?_)
    · rw [hcheck] at hr
      cases hr
    · rw [hcheck] at hs
      cases hs
      exact hE _

/-- **Point reads** of a store whose only table has such a block fail. -/
theorem Wrapped.does_getValue (h : Wrapped entries e head) (hdata : s.data = ∅)
    (hsst : s.sstables = [freshTable Prost.wire name entries]) (hd : d.files[name]? = some f)
    (hf : f.bytes = (encodeTable Prost.wire entries).file) (hio : ∀ e, ¬ env.Faults (readCalls name) e)
    (hcheck : checkBlock e head = .error stop) (hasc : Ascending entries)
    (hsize : (BloomFilter.new entries.length).bits.length < 2 ^ 32) {key : Bytes} {entry : Entry}
    (hkey : entries.lookup key = some entry)
    {Q : Option Value → Store → Disk → Prop} {E : Stop → Store → Disk → Prop} (hE : ∀ s', E stop s' d) :
    Does env (Store.getValue Prost.wire key) s d Q E := by
  unfold Store.getValue
  refine .withSelf ?_
  rw [hdata, Std.ExtTreeMap.getElem?_empty, hsst]
  refine Does.bind (.withSelf ?_)
  rw [hsst]
  exact Does.onField (h.does_get hd hf hio hcheck hasc hsize hkey fun t => hE _)

end Wrapped

/-! ## Reading it -/

theorem wrapped_big (hn : n = 2 ^ 32) :
    Wrapped (bigRecords n) ⟨bigKey, 0, 20⟩ (bigHead ++ [0, 0, 0, 0]) where
  index := tableIndex_big hn
  offset := rfl
  len := rfl
  starts := by
    obtain ⟨rest, hrest⟩ := file_big hn
    rw [hrest, ← List.append_assoc]
    exact List.prefix_append _ _

/-- The wrapped length takes the checksum from the middle of the value. -/
theorem checkBlock_big : checkBlock ⟨bigKey, 0, 20⟩ (bigHead ++ [0, 0, 0, 0]) = .error (.err (crcMismatch 0)) := by
  have hcrc : crc32 bigHead ≠ 0 := by decide +kernel
  unfold checkBlock
  rw [if_neg (by decide)]
  dsimp only
  rw [if_pos (by show crc32 bigHead ≠ _; exact hcrc)]

/-- The disk holds one table, of the big value, and an empty log. -/
structure OversizedDisk (n : ℕ) (d : Disk) : Prop where
  file : ∃ f, d.files[sstName 1]? = some f ∧ f.bytes = (encodeTable Prost.wire (bigRecords n)).file ∧
    f.synced = f.bytes.length
  files : ∀ name f, d.files[name]? = some f → name = "LOCK" ∨ name = walName ∨ name = sstName 1
  log : d.bytesOf walName = []

/-- The store holds that table and nothing else. -/
structure Oversized (n : ℕ) (s : Store) (d : Disk) : Prop extends OversizedDisk n d where
  data : s.data = ∅
  sstables : s.sstables = [freshTable Prost.wire (sstName 1) (bigRecords n)]

/-- **Point reads** of the key fail. -/
theorem does_getValue_big (hn : n = 2 ^ 32) (h : Oversized n s d) {Q : Option Value → Store → Disk → Prop}
    {E : Stop → Store → Disk → Prop} (hE : ∀ s', E (.err (crcMismatch 0)) s' d)
    (hio : ∀ e, ¬ env.Faults (readCalls (sstName 1)) e) :
    Does env (Store.getValue Prost.wire bigKey) s d Q E := by
  obtain ⟨f, hd, hf, -⟩ := h.file
  exact (wrapped_big hn).does_getValue h.data h.sstables hd hf hio checkBlock_big (List.pairwise_singleton _ _)
    (show (BloomFilter.new 1).bits.length < 2 ^ 32 by decide) rfl hE

/-- **Scans** whose bounds overlap the key range of the table fail. -/
theorem does_scanRange_big (hn : n = 2 ^ 32) (h : Oversized n s d) {lo hi : Bound}
    (hover : rangeOverlaps bigKey bigKey lo hi = true)
    {Q : List (Bytes × Value) → Store → Disk → Prop} {E : Stop → Store → Disk → Prop}
    (hE : E (.err (crcMismatch 0)) s d) (hio : ∀ e, ¬ env.Faults (readCalls (sstName 1)) e) :
    Does env (Store.scanRange Prost.wire lo hi) s d Q E := by
  obtain ⟨f, hd, hf, -⟩ := h.file
  have hindex : (freshTable Prost.wire (sstName 1) (bigRecords n)).index = [⟨bigKey, 0, 20⟩] :=
    tableIndex_big hn
  unfold Store.scanRange
  refine .withSelf (Does.bind ?_)
  rw [h.sstables, List.reverse_singleton]
  unfold Store.scanTables
  have hrange : (freshTable Prost.wire (sstName 1) (bigRecords n)).keyRange = some (bigKey, bigKey) := rfl
  rw [hrange]
  dsimp only
  rw [if_neg (by simp [hover])]
  unfold SsTable.readAllEntries
  rw [hindex, if_neg (by simp)]
  refine Does.bind (Does.bind (does_openRead hd ?_ fun e he =>
    (hio e (he.mono fun c hc => by rw [hc]; exact ⟨rfl, Or.inl rfl⟩)).elim))
  refine Does.bind ((wrapped_big hn).does_readBlock hd hf hio (fun records hr => ?_) fun stop hs => ?_)
  · rw [checkBlock_big] at hr
    cases hr
  · rw [checkBlock_big] at hs
    cases hs
    exact hE

/-! ## A put into an empty table, flushed at once -/

section Alone

variable {key b : Bytes}

theorem toList_singleton (key : Bytes) (e : Entry) : ((∅ : Memtable).insert key e).toList = [(key, e)] := by
  have hperm := OrderedMap.toList_insert_perm_of_none (m := (∅ : Memtable)) (k := key) (v := e)
    Std.ExtTreeMap.getElem?_empty
  rw [Std.ExtTreeMap.toList_eq_nil_iff.2 rfl] at hperm
  exact List.perm_singleton.1 hperm.symm

/-- The store holds one table, of `entries`, and nothing else. -/
structure Alone (entries : List Record) (s : Store) (d : Disk) : Prop where
  file : ∃ f, d.files[sstName 1]? = some f ∧ f.bytes = (encodeTable Prost.wire entries).file ∧
    f.synced = f.bytes.length
  files : ∀ name f, d.files[name]? = some f → name = "LOCK" ∨ name = walName ∨ name = sstName 1
  log : d.bytesOf walName = []
  data : s.data = ∅
  sstables : s.sstables = [freshTable Prost.wire (sstName 1) entries]

/-- The memtable after one put. -/
theorem toList_put (h : Follows Prost.wire s d (Layers.empty.write [(key, some (.bytes b))])) :
    s.data.toList = [(key, .value (.bytes b))] := by
  have hdata : s.data = (∅ : Memtable).insert key (.value (.bytes b)) := h.data
  rw [hdata]
  exact toList_singleton key _

/-- **Flushing the put** returns, whether or not its lengths fit. -/
theorem returns_flush_put (h : Follows Prost.wire s d (Layers.empty.write [(key, some (.bytes b))]))
    (hlen : (encodeTable Prost.wire [(key, .value (.bytes b))]).file.length ≤ maxFileLen) :
    Returns (Store.flush Prost.wire) s d fun _ s' d' => Alone [(key, .value (.bytes b))] s' d' := by
  have hlist := toList_put h
  have hnext : s.nextSstableId = 1 := h.nextId
  have hsst : s.sstables = [] := List.forall₂_nil_right_iff.1 h.handles
  have hne : s.data.isEmpty = false := by
    rw [← Std.ExtTreeMap.isEmpty_toList, hlist]; rfl
  unfold Store.flush
  refine .withSelf ?_
  rw [hne, if_neg (by simp)]
  refine Does.bind (does_flushTable_file (by rw [hlist]; exact hlen)
    (by rw [hnext]; decide) h.path (fun d'' hb'' => ?_) (fun e he => absurd he Env.not_faults_quiet)
    fun e d'' he => absurd he Env.not_faults_quiet)
  have hpost : (s.flushed Prost.wire).sstables =
      [freshTable Prost.wire (sstName 1) [(key, .value (.bytes b))]] := by
    show freshTable _ (sstName s.nextSstableId) s.data.toList :: s.sstables = _
    rw [hnext, hlist, hsst]
  unfold Store.maybeCompact
  refine .withSelf ?_
  rw [hpost, if_neg (by simp [MAX_SSTABLES])]
  refine .pure ⟨?_, ?_, hb''.bytes, rfl, hpost⟩
  · have hput := Disk.files_put d (sstName s.nextSstableId) (sstName 1)
      (tableFile Prost.wire s.data.toList (by rw [hlist]; exact hlen))
    rw [if_pos (by rw [hnext])] at hput
    refine ⟨_, (hb''.others _ (sstName_ne_walName 1)).trans hput, ?_, rfl⟩
    show (encodeTable Prost.wire s.data.toList).file = _
    rw [hlist]
  · intro name f hname
    by_cases hw : name = walName
    · exact Or.inr (Or.inl hw)
    · rw [hb''.others name hw, Disk.files_put] at hname
      by_cases hname' : sstName s.nextSstableId = name
      · exact Or.inr (Or.inr (by rw [← hname', hnext]))
      · rw [if_neg hname'] at hname
        rcases h.files name f hname with hl | hl | ⟨x, hx, -⟩
        · exact Or.inl hl
        · exact Or.inr (Or.inl hl)
        · cases hx

/-- A big put reaches the budget of a new table. -/
theorem memtableBytes_put (hbig : DEFAULT_MEMTABLE_MAX_BYTES ≤ key.length + b.length)
    (h : Follows Prost.wire s d (Layers.empty.write [(key, some (.bytes b))])) :
    s.memtableBytes ≥ s.memtableMaxBytes := by
  have hmax : s.memtableMaxBytes = DEFAULT_MEMTABLE_MAX_BYTES := h.budget
  have hcount := h.counted
  unfold Store.Counted OrderedMap.total at hcount
  rw [hcount, toList_put h, hmax]
  exact hbig

/-- The log of a new table has room for the put, so only a fault can cut it. -/
theorem not_logCut_put (hroom : key.length + b.length + 300 ≤ maxFileLen)
    (h : Agrees Prost.wire s d Layers.empty [] []) (henv : env.Spares (onPath walName)) {e : Stop} {u : Bytes} :
    ¬ LogCut env Prost.wire (d.bytesOf walName).length
      (batchLog Layers.empty.sequence [(key, some (.bytes b))] ++
        [commitEntry (batchEnd Layers.empty.sequence [(key, some (.bytes b))])]) e u := by
  have hwal : d.bytesOf walName = [] := h.bytes
  have hlen := length_logBytes_put_le key b
  have hseq : commitEntry (batchEnd Layers.empty.sequence [(key, some (.bytes b))]) = commitEntry 1 := rfl
  intro hc
  refine henv.not_faults (hc.fault ?_)
  rw [hwal, hseq]
  show 0 + (logBytes Prost.wire (batchLog 0 [(key, some (.bytes b))] ++ [commitEntry 1])).length ≤ _
  omega

/-- **A big put** into an empty table returns, and leaves a table of its own. -/
theorem returns_writeBatch_put (hbig : DEFAULT_MEMTABLE_MAX_BYTES ≤ key.length + b.length)
    (hroom : key.length + b.length + 300 ≤ maxFileLen)
    (hlen : (encodeTable Prost.wire [(key, .value (.bytes b))]).file.length ≤ maxFileLen)
    (h : Agrees Prost.wire s d Layers.empty [] []) :
    Returns (Store.writeBatch Prost.wire [(key, some (.bytes b))]) s d fun _ s' d' =>
      Alone [(key, .value (.bytes b))] s' d' := by
  refine does_writeBatch (b := [(key, some (.bytes b))]) h.toFollows (show 0 + 1 < 2 ^ 64 by decide)
    (fun s' d' bs h' _ _ => ?_)
    fun e s' d' u _ hc => (not_logCut_put hroom h (Env.quiet_spares _) hc).elim
  unfold Store.maybeFlush
  refine .withSelf ?_
  rw [if_pos (memtableBytes_put hbig h')]
  exact returns_flush_put h' hlen

end Alone

/-! ## Writing it -/

/-- The write of the big value. -/
def bigBatch (n : ℕ) : Batch := [(bigKey, some (bigValue n))]

theorem Alone.oversized (h : Alone (bigRecords n) s d) : Oversized n s d :=
  ⟨⟨h.file, h.files, h.log⟩, h.data, h.sstables⟩

/-- The file system has room for the table. -/
theorem length_file_big (hn : n = 2 ^ 32) :
    (encodeTable Prost.wire (bigRecords n)).file.length ≤ maxFileLen := by
  have hkeys : ∀ e ∈ bigRecords n, e.1.length ≤ 1 := by simp [bigRecords, bigKey]
  have hlen := length_file_single_le (groups_singleton Prost.wire (bigKey, .value (bigValue n))) hkeys
  have hlen : (encodeTable Prost.wire (bigRecords n)).file.length ≤ (blockBytes Prost.wire (bigRecords n)).length +
    3 * 1 + (BloomFilter.new (bigRecords n).length).bits.length + 200 := hlen
  have hblock := congrArg List.length (blockBytes_big hn)
  rw [List.length_append, List.length_replicate, show bigHead.length = 16 from rfl] at hblock
  have hbloom : (BloomFilter.new 1).bits.length = 8 := by decide
  rw [hblock, show (bigRecords n).length = 1 from rfl, hbloom] at hlen
  unfold maxFileLen
  omega

theorem length_bigPut (n : ℕ) : bigKey.length + (List.replicate n (0 : UInt8)).length = 1 + n := by
  rw [List.length_replicate]
  rfl

/-- The value reaches the budget of a new table. -/
theorem budget_le_big (hn : n = 2 ^ 32) :
    DEFAULT_MEMTABLE_MAX_BYTES ≤ bigKey.length + (List.replicate n (0 : UInt8)).length := by
  rw [length_bigPut, hn]
  decide

/-- The log has room for the value. -/
theorem log_room_big (hn : n = 2 ^ 32) :
    bigKey.length + (List.replicate n (0 : UInt8)).length + 300 ≤ maxFileLen := by
  rw [length_bigPut, hn]
  decide

/-- **Flushing the value** returns, and leaves it in a table that cannot be read. -/
theorem returns_flush_big (hn : n = 2 ^ 32) (h : Follows Prost.wire s d (Layers.empty.write (bigBatch n))) :
    Returns (Store.flush Prost.wire) s d fun _ s' d' => Oversized n s' d' :=
  (returns_flush_put h (length_file_big hn)).mono (fun _ _ _ h' => Alone.oversized h') fun _ _ _ he => he

theorem memtableBytes_big (hn : n = 2 ^ 32) (h : Follows Prost.wire s d (Layers.empty.write (bigBatch n))) :
    s.memtableBytes ≥ s.memtableMaxBytes := memtableBytes_put (budget_le_big hn) h

/-- The log of a new table has room for the write, so only a fault can cut it. -/
theorem not_logCut_big (hn : n = 2 ^ 32) (h : Agrees Prost.wire s d Layers.empty [] [])
    (henv : env.Spares (onPath walName)) {e : Stop} {u : Bytes} :
    ¬ LogCut env Prost.wire (d.bytesOf walName).length
      (batchLog Layers.empty.sequence (bigBatch n) ++
        [commitEntry (batchEnd Layers.empty.sequence (bigBatch n))]) e u :=
  not_logCut_put (log_room_big hn) h henv

/-- **Writing the value** to an empty table returns, and leaves it in a table that cannot be read. -/
theorem returns_writeBatch_big (hn : n = 2 ^ 32) (h : Agrees Prost.wire s d Layers.empty [] []) :
    Returns (Store.writeBatch Prost.wire (bigBatch n)) s d fun _ s' d' => Oversized n s' d' :=
  (returns_writeBatch_put (budget_le_big hn) (log_room_big hn) (length_file_big hn) h).mono
    (fun _ _ _ h' => Alone.oversized h') fun _ _ _ he => he

/-- The same through `set_value` on a new table. -/
theorem returns_runOps_big (hn : n = 2 ^ 32) {dir : String} :
    Returns (runOps Prost.wire dir [.setValue bigKey (bigValue n)]) s Disk.empty
      fun _ s' d' => Oversized n s' d' := by
  have hopen : Returns (Store.openWithDir Prost.wire dir) s Disk.empty fun _ s' d' =>
      Agrees Prost.wire s' d' Layers.empty [] [] :=
    does_openWithDir wire_lawful stored_empty rfl fun _ _ h' => h'
  refine hopen.seq fun _ s' d' h' => ?_
  rw [List.forM_cons, List.forM_nil]
  have hset : Returns (Op.run Prost.wire dir (.setValue bigKey (bigValue n))) s' d'
      fun _ s'' d'' => Oversized n s'' d'' := by
    show Returns (discard _) _ _ _
    rw [setValue_eq]
    exact Does.bind (Does.bind ((returns_writeBatch_big hn h').mono
      (fun _ _ _ h'' => .pure (.pure h'')) fun _ _ _ he => he))
  exact hset.seq fun _ s'' d'' h'' => .pure h''

/-! ## Opening it -/

theorem OversizedDisk.crash (h : OversizedDisk n d) (keep : FileName → ℕ) : OversizedDisk n (d.crash keep) where
  file := by
    obtain ⟨f, hd, hf, hsynced⟩ := h.file
    obtain ⟨hbytes, hlen⟩ := File.crash_of_synced hsynced (keep (sstName 1))
    exact ⟨_, by rw [Disk.files_crash, hd]; rfl, hbytes.trans hf, by rw [hlen, hbytes]⟩
  files name f hname := by
    rw [Disk.files_crash] at hname
    obtain ⟨g, hg, -⟩ := Option.map_eq_some_iff.1 hname
    exact h.files name g hg
  log := by rw [Disk.bytesOf_crash, h.log, List.take_nil]

theorem OversizedDisk.lists (h : OversizedDisk n d) :
    Lists d [(1, freshTable Prost.wire (sstName 1) (bigRecords n))] where
  parse x hx := by
    obtain ⟨f, hd, hf, -⟩ := h.file
    rw [List.mem_singleton.1 hx]
    refine ⟨f, hd, parse_encodeTable hf ⟨?_, ?_, ?_⟩ _⟩
    · intro e he
      rw [List.mem_singleton.1 he]
      show bigKey.length < 2 ^ 32
      decide
    · unfold bigRecords
      rw [groups_singleton]
      exact (by decide : 1 < 2 ^ 32)
    · show (BloomFilter.new 1).bits.length < 2 ^ 32
      decide
  descending := List.pairwise_singleton _ _
  ids x hx := by rw [List.mem_singleton.1 hx]; exact (by decide : 1 + 1 < 2 ^ 64)
  files name f hname := by
    rcases h.files name f hname with hl | hl | hl
    · exact Or.inl hl
    · exact Or.inr (Or.inl hl)
    · exact Or.inr (Or.inr ⟨_, List.mem_singleton_self _, hl⟩)

/-- **Opening** the directory of the big value succeeds. -/
theorem returns_openWithDir_big (h : OversizedDisk n d) (hfree : d.locked = false)
    (dir : String) : Returns (Store.openWithDir Prost.wire dir) s d fun _ s' d' => Oversized n s' d' := by
  have hframe : ∀ n ≠ "LOCK", d.lockedBy.files[n]? = d.files[n]? := fun n hn => d.files_lockedBy hn
  have hdisk : OversizedDisk n d.lockedBy := by
    refine ⟨?_, fun name f hname => ?_, ?_⟩
    · rw [hframe _ (sstName_ne_lock 1)]; exact h.file
    · by_cases hl : name = "LOCK"
      · exact Or.inl hl
      · rw [hframe name hl] at hname; exact h.files name f hname
    · unfold Disk.bytesOf
      rw [hframe walName (by decide)]
      exact h.log
  refine does_openWithDir_start (Env.quiet_spares _) hfree ?_
  refine Does.bind (does_loadSstables hdisk.lists (Env.quiet_spares _) ?_)
  refine does_replayWal wire_lawful (Env.quiet_spares _) (logStored_nil hdisk.log)
    ⟨rfl, fun hopen => by cases hopen⟩ ?_ fun w' d' hw' hlive hb => ⟨⟨?_, ?_, hb.bytes⟩, rfl, rfl⟩
  · unfold Store.holding
    rw [OrderedMap.total_empty]
    rfl
  · rw [hb.others _ (sstName_ne_walName 1)]; exact hdisk.file
  · intro name f hname
    by_cases hw : name = walName
    · exact Or.inr (Or.inl hw)
    · rw [hb.others name hw] at hname; exact hdisk.files name f hname

end FerrumDB
