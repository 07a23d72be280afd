import FerrumDB.SsTable

/-!
# The layout of a table file

The records of a table are grouped into blocks (`groups`): a block is closed by the record that
takes it to `BLOCK_SIZE` bytes. The data region is the blocks in order, each sealed by its checksum,
and the index lists them with their offsets and lengths (`indexFrom`). `encodeTable_eq` says that
this is what the block loop of the writer builds; `TableFits` collects the bounds under which no
length is narrowed.
-/

namespace FerrumDB

open ByteCodec

abbrev Record := Bytes × Entry

variable (p : Prost)

/-! ## Blocks -/

/-- The record bytes of a block. -/
def blockBytes (g : List Record) : Bytes := g.flatMap fun e => encodeRecord p e.1 e.2

/-- A block as it lies in the file: its record bytes and their checksum. -/
def sealedBlock (g : List Record) : Bytes := blockBytes p g ++ u32Bytes (crc32 (blockBytes p g))

/-- The blocks of `entries`, after the records `cur` of the open one. -/
def groupsFrom : List Record → List Record → List (List Record)
  | cur, [] => if cur = [] then [] else [cur]
  | cur, e :: es =>
    if (blockBytes p (cur ++ [e])).length ≥ BLOCK_SIZE then (cur ++ [e]) :: groupsFrom [] es
    else groupsFrom (cur ++ [e]) es

def groups (entries : List Record) : List (List Record) := groupsFrom p [] entries

def dataRegion (gs : List (List Record)) : Bytes := gs.flatMap (sealedBlock p)

def firstKey (g : List Record) : Bytes := (g.head?.map Prod.fst).getD []

/-- The index entries of the blocks `gs`, the first of which starts at `offset`. -/
def indexFrom : ℕ → List (List Record) → List IndexEntry
  | _, [] => []
  | offset, g :: gs =>
    ⟨firstKey g, asU64 offset, asU32 ((blockBytes p g).length + 4)⟩ ::
      indexFrom (offset + (sealedBlock p g).length) gs

def indexRegion (index : List IndexEntry) (minKey maxKey : Option Bytes)
    (bloom : Option BloomFilter) : Bytes :=
  index.flatMap encodeIndexEntry ++ encodeKeyRange minKey maxKey ++ encodeBloom bloom

def footerBytes (indexOffset indexLen entryCount : ℕ) : Bytes :=
  u64Bytes (asU64 indexOffset) ++ u64Bytes (asU64 indexLen) ++ u32Bytes (asU32 entryCount) ++ MAGIC ++
    u32Bytes VERSION

variable {p}

@[simp] theorem length_u32Bytes (v : UInt32) : (u32Bytes v).length = 4 := length_beBytes 4 _

@[simp] theorem length_u64Bytes (v : UInt64) : (u64Bytes v).length = 8 := length_beBytes 8 _

@[simp] theorem length_lenPrefixed (bs : Bytes) : (lenPrefixed bs).length = 4 + bs.length := by
  simp [lenPrefixed]

@[simp] theorem length_footerBytes (i l n : ℕ) : (footerBytes i l n).length = FOOTER_LEN := by
  simp [footerBytes, MAGIC, FOOTER_LEN]

theorem nine_le_length_encodeRecord (key : Bytes) (entry : Entry) :
    9 ≤ (encodeRecord p key entry).length := by
  cases entry <;> simp only [encodeRecord, List.length_append, List.length_cons,
    length_lenPrefixed, length_u32Bytes] <;> omega

@[simp] theorem blockBytes_nil : blockBytes p [] = [] := rfl

theorem blockBytes_cons (e : Record) (g : List Record) :
    blockBytes p (e :: g) = encodeRecord p e.1 e.2 ++ blockBytes p g := rfl

theorem blockBytes_concat (g : List Record) (e : Record) :
    blockBytes p (g ++ [e]) = blockBytes p g ++ encodeRecord p e.1 e.2 := by
  simp [blockBytes]

theorem length_le_blockBytes (g : List Record) : 9 * g.length ≤ (blockBytes p g).length := by
  induction g with
  | nil => simp
  | cons e g ih =>
    have := nine_le_length_encodeRecord (p := p) e.1 e.2
    rw [blockBytes_cons, List.length_append, List.length_cons]; omega

theorem blockBytes_eq_nil {g : List Record} : blockBytes p g = [] ↔ g = [] := by
  refine ⟨fun h => ?_, fun h => by rw [h]; rfl⟩
  have hlen := length_le_blockBytes (p := p) g
  rw [h, List.length_nil] at hlen
  exact List.length_eq_zero_iff.1 (by omega)

@[simp] theorem length_sealedBlock (g : List Record) :
    (sealedBlock p g).length = (blockBytes p g).length + 4 := by simp [sealedBlock]

/-! ## Groups -/

theorem flatten_groupsFrom (cur es : List Record) : (groupsFrom p cur es).flatten = cur ++ es := by
  induction es generalizing cur with
  | nil =>
    unfold groupsFrom
    split
    · next h => rw [h]; rfl
    · simp
  | cons e es ih =>
    unfold groupsFrom
    split
    · rw [List.flatten_cons, ih]; simp
    · rw [ih]; simp

@[simp] theorem flatten_groups (entries : List Record) : (groups p entries).flatten = entries :=
  flatten_groupsFrom [] entries

theorem ne_nil_of_mem_groupsFrom {cur es g : List Record} (h : g ∈ groupsFrom p cur es) :
    g ≠ [] := by
  induction es generalizing cur with
  | nil =>
    unfold groupsFrom at h
    split at h
    · cases h
    · next hc => rw [List.mem_singleton.1 h]; exact hc
  | cons e es ih =>
    unfold groupsFrom at h
    split at h
    · rcases List.mem_cons.1 h with rfl | h
      · simp
      · exact ih h
    · exact ih h

theorem ne_nil_of_mem_groups {entries g : List Record} (h : g ∈ groups p entries) : g ≠ [] :=
  ne_nil_of_mem_groupsFrom h

theorem groups_eq_nil {entries : List Record} : groups p entries = [] ↔ entries = [] := by
  refine ⟨fun h => ?_, fun h => by rw [h]; rfl⟩
  rw [← flatten_groups (p := p) entries, h]; rfl

/-! ## The writer -/

/-- The writer has closed the blocks `gs` and holds the records `cur` of an open one. -/
structure Writer.Holds (p : Prost) (w : Writer) (gs : List (List Record)) (cur : List Record) :
    Prop where
  file : w.file = dataRegion p gs
  index : w.index = indexFrom p 0 gs
  block : w.block = blockBytes p cur
  first : cur ≠ [] → w.blockFirstKey = some (firstKey cur)
  offset : cur ≠ [] → w.blockOffset = asU64 (dataRegion p gs).length

theorem dataRegion_concat (gs : List (List Record)) (g : List Record) :
    dataRegion p (gs ++ [g]) = dataRegion p gs ++ sealedBlock p g := by simp [dataRegion]

theorem indexFrom_append (offset : ℕ) (gs gs' : List (List Record)) :
    indexFrom p offset (gs ++ gs') =
      indexFrom p offset gs ++ indexFrom p (offset + (dataRegion p gs).length) gs' := by
  induction gs generalizing offset with
  | nil => simp [indexFrom, dataRegion]
  | cons g gs ih =>
    simp only [List.cons_append, indexFrom, ih, dataRegion, List.flatMap_cons, List.length_append,
      Nat.add_assoc]

theorem Writer.holds_new : Writer.Holds p Writer.new [] [] :=
  ⟨rfl, rfl, rfl, fun h => absurd rfl h, fun h => absurd rfl h⟩

theorem Writer.Holds.finalizeBlock {w : Writer} {gs : List (List Record)} {cur : List Record}
    (h : w.Holds p gs cur) (hc : cur ≠ []) : w.finalizeBlock.Holds p (gs ++ [cur]) [] := by
  refine ⟨?_, ?_, rfl, fun h => absurd rfl h, fun h => absurd rfl h⟩
  · rw [dataRegion_concat, sealedBlock, ← List.append_assoc, ← h.file, ← h.block]
    rfl
  · rw [indexFrom_append, ← h.index]
    simp [Writer.finalizeBlock, indexFrom, h.first hc, h.offset hc, h.block]

/-- One round adds its record to the open block. -/
theorem Writer.Holds.push {w : Writer} {gs : List (List Record)} {cur : List Record}
    (h : w.Holds p gs cur) (e : Record) :
    Writer.Holds p { (w.noteKey e.1).startBlock e.1 with
      block := ((w.noteKey e.1).startBlock e.1).block ++ encodeRecord p e.1 e.2 } gs (cur ++ [e]) := by
  have hblock : (w.noteKey e.1).block = blockBytes p cur := h.block
  unfold Writer.startBlock
  by_cases hc : cur = []
  · subst hc
    rw [if_pos (by rw [hblock]; rfl)]
    refine ⟨h.file, h.index, ?_, fun _ => rfl, fun _ => ?_⟩
    · rw [blockBytes_concat, ← hblock]
    · show asU64 w.file.length = _
      rw [h.file]
  · rw [if_neg (by rw [hblock, blockBytes_eq_nil]; exact hc)]
    have hfirst : firstKey (cur ++ [e]) = firstKey cur := by
      cases cur with
      | nil => exact absurd rfl hc
      | cons c cur => rfl
    refine ⟨h.file, h.index, ?_, fun _ => ?_, fun _ => h.offset hc⟩
    · rw [blockBytes_concat, ← hblock]
    · rw [hfirst]; exact h.first hc

/-- **The block loop.** It closes exactly the blocks of `groupsFrom`. -/
theorem Writer.Holds.foldl {w : Writer} {gs : List (List Record)} {cur : List Record}
    (h : w.Holds p gs cur) (es : List Record) :
    ((es.foldl (Writer.add p) w).finish).Holds p (gs ++ groupsFrom p cur es) [] := by
  induction es generalizing w gs cur with
  | nil =>
    rw [List.foldl_nil]
    unfold Writer.finish groupsFrom
    by_cases hc : cur = []
    · rw [if_pos (by rw [h.block, hc]; rfl), if_pos hc, List.append_nil, ← hc]; exact h
    · rw [if_neg (by rw [h.block, blockBytes_eq_nil]; exact hc), if_neg hc]
      exact h.finalizeBlock hc
  | cons e es ih =>
    rw [List.foldl_cons]
    have hpush := h.push e
    unfold groupsFrom
    by_cases hlen : (blockBytes p (cur ++ [e])).length ≥ BLOCK_SIZE
    · rw [if_pos hlen]
      have hadd : Writer.add p w e = Writer.finalizeBlock _ := if_pos (by rw [hpush.block]; exact hlen)
      rw [hadd, ← List.singleton_append, ← List.append_assoc]
      exact ih (hpush.finalizeBlock (by simp))
    · rw [if_neg hlen]
      have hadd : Writer.add p w e = _ := if_neg (by rw [hpush.block]; exact hlen)
      rw [hadd]
      exact ih hpush

/-- The key range and the keys of the filter. -/
structure Writer.Noted (w : Writer) (ks : List Bytes) : Prop where
  keys : w.keys = ks
  minKey : w.minKey = ks.head?
  maxKey : w.maxKey = ks.getLast?

theorem Writer.noted_foldl (es : List Record) :
    ((es.foldl (Writer.add p) Writer.new).finish).Noted (es.map Prod.fst) := by
  have hadd : ∀ (w : Writer) (e : Record) (keys : List Bytes), w.Noted keys →
      (Writer.add p w e).Noted (keys ++ [e.1]) := by
    intro w e keys h
    have hn : (w.noteKey e.1).Noted (keys ++ [e.1]) := by
      refine ⟨by rw [← h.keys]; rfl, ?_, by rw [List.getLast?_concat]; rfl⟩
      show some (w.minKey.getD e.1) = _
      rw [h.minKey]; cases keys <;> rfl
    unfold Writer.add Writer.startBlock Writer.finalizeBlock
    dsimp only
    split_ifs <;> exact ⟨hn.keys, hn.minKey, hn.maxKey⟩
  have hfold : ∀ (es : List Record) (w : Writer) (keys : List Bytes), w.Noted keys →
      (es.foldl (Writer.add p) w).Noted (keys ++ es.map Prod.fst) := by
    intro es
    induction es with
    | nil => intro w keys h; simpa using h
    | cons e es ih =>
      intro w keys h
      simpa using ih _ _ (hadd w e keys h)
  have h := hfold es Writer.new [] ⟨rfl, rfl, rfl⟩
  rw [List.nil_append] at h
  unfold Writer.finish Writer.finalizeBlock
  split_ifs <;> exact ⟨h.keys, h.minKey, h.maxKey⟩

/-! ## The image of a table -/

variable (p)

def tableIndex (entries : List Record) : List IndexEntry := indexFrom p 0 (groups p entries)

def tableBloom (entries : List Record) : Option BloomFilter := bloomOf (entries.map Prod.fst)

/-- The index region of the table of `entries`. -/
def tableRegion (entries : List Record) : Bytes :=
  indexRegion (tableIndex p entries) (entries.map Prod.fst).head? (entries.map Prod.fst).getLast?
    (tableBloom entries)

/-- **What a flush writes.** The file is the data region, the index region and the footer. -/
theorem encodeTable_eq (entries : List Record) : encodeTable p entries =
    { file := dataRegion p (groups p entries) ++ (tableRegion p entries ++
        footerBytes (dataRegion p (groups p entries)).length (tableRegion p entries).length
          (groups p entries).length)
      index := tableIndex p entries
      minKey := (entries.map Prod.fst).head?
      maxKey := (entries.map Prod.fst).getLast?
      bloom := tableBloom entries } := by
  have hw := Writer.holds_new (p := p).foldl entries
  have hn := Writer.noted_foldl (p := p) entries
  have hlen : ∀ (offset : ℕ) (gs : List (List Record)), (indexFrom p offset gs).length = gs.length := by
    intro offset gs
    induction gs generalizing offset with
    | nil => rfl
    | cons g gs ih => simp [indexFrom, ih]
  unfold encodeTable
  simp only [hw.file, hw.index, hn.keys, hn.minKey, hn.maxKey, List.nil_append, hlen]
  simp only [tableRegion, tableIndex, tableBloom, indexRegion, footerBytes, groups, List.append_assoc]

/-- The bytes of the value of an entry, as a record stores them. -/
def valueBytes : Entry → Bytes
  | .value v => p.encodeValue v.toProto
  | .tombstone => []

/-- **No length is narrowed.** Keys, values, blocks, the block count and the filter fit their 32-bit
fields, and the file has room for all of it. -/
structure TableFits (entries : List Record) : Prop where
  key : ∀ e ∈ entries, e.1.length < 2 ^ 32
  value : ∀ e ∈ entries, (valueBytes p e.2).length < 2 ^ 32
  block : ∀ g ∈ groups p entries, (blockBytes p g).length + 4 < 2 ^ 32
  count : (groups p entries).length < 2 ^ 32
  bloom : (BloomFilter.new entries.length).bits.length < 2 ^ 32
  file : (encodeTable p entries).file.length ≤ maxFileLen

/-- Every length a flush writes fits its 32-bit field. -/
structure FieldsFit (entries : List Record) : Prop where
  key : ∀ e ∈ entries, e.1.length < 2 ^ 32
  value : ∀ e ∈ entries, (valueBytes p e.2).length < 2 ^ 32
  block : ∀ g ∈ groups p entries, (blockBytes p g).length + 4 < 2 ^ 32
  count : (groups p entries).length < 2 ^ 32
  bloom : (BloomFilter.new entries.length).bits.length < 2 ^ 32

/-- The bounds under which the index region is intact. -/
structure IndexFits (entries : List Record) : Prop where
  key : ∀ e ∈ entries, e.1.length < 2 ^ 32
  count : (groups p entries).length < 2 ^ 32
  bloom : (BloomFilter.new entries.length).bits.length < 2 ^ 32

variable {p} in
theorem TableFits.indexFits {entries : List Record} (h : TableFits p entries) : IndexFits p entries :=
  ⟨h.key, h.count, h.bloom⟩

variable {p} in
theorem FieldsFit.tableFits {entries : List Record} (h : FieldsFit p entries)
    (hfile : (encodeTable p entries).file.length ≤ maxFileLen) : TableFits p entries :=
  ⟨h.key, h.value, h.block, h.count, h.bloom, hfile⟩

instance (entries : List Record) : Decidable (TableFits p entries) :=
  decidable_of_iff ((∀ e ∈ entries, e.1.length < 2 ^ 32) ∧
    (∀ e ∈ entries, (valueBytes p e.2).length < 2 ^ 32) ∧
    (∀ g ∈ groups p entries, (blockBytes p g).length + 4 < 2 ^ 32) ∧
    (groups p entries).length < 2 ^ 32 ∧
    (BloomFilter.new entries.length).bits.length < 2 ^ 32 ∧
    (encodeTable p entries).file.length ≤ maxFileLen)
    ⟨fun ⟨h1, h2, h3, h4, h5, h6⟩ => ⟨h1, h2, h3, h4, h5, h6⟩,
      fun ⟨h1, h2, h3, h4, h5, h6⟩ => ⟨h1, h2, h3, h4, h5, h6⟩⟩

end FerrumDB
