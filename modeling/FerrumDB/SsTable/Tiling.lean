import FerrumDB.SsTable.RoundTrip

/-!
# The blocks of a table tile its data region

What the index a flush writes says of the file (`Tiles`): the blocks follow one another from offset 0
to the index region, their record bytes are the encoding of all entries with no record split or lost,
and a block is closed by the record that takes it to `BLOCK_SIZE` bytes.
-/

namespace FerrumDB

variable {σ : Type} {p : Prost} {entries : List Record}

/-! ## Block sizes -/

theorem length_blockBytes_dropLast (g : List Record) :
    (blockBytes p g.dropLast).length ≤ (blockBytes p g).length := by
  obtain rfl | ⟨g, e, rfl⟩ := List.eq_nil_or_concat' g
  · exact Nat.le_refl _
  · rw [List.dropLast_concat, blockBytes_concat, List.length_append]
    omega

/-- A block is below the threshold until its last record. -/
theorem started_of_mem_groupsFrom {cur es g : List Record} (hcur : (blockBytes p cur).length < BLOCK_SIZE)
    (h : g ∈ groupsFrom p cur es) : (blockBytes p g.dropLast).length < BLOCK_SIZE := by
  induction es generalizing cur with
  | nil =>
    unfold groupsFrom at h
    split at h
    · cases h
    · rw [List.mem_singleton.1 h]
      exact Nat.lt_of_le_of_lt (length_blockBytes_dropLast cur) hcur
  | cons e es ih =>
    unfold groupsFrom at h
    split at h
    · rcases List.mem_cons.1 h with rfl | h
      · rwa [List.dropLast_concat]
      · exact ih (by simp [BLOCK_SIZE]) h
    · next hlen => exact ih (by omega) h

/-- Only the trailing block can be below the threshold. -/
theorem full_of_mem_groupsFrom {cur es g : List Record} (h : g ∈ (groupsFrom p cur es).dropLast) :
    BLOCK_SIZE ≤ (blockBytes p g).length := by
  induction es generalizing cur with
  | nil =>
    unfold groupsFrom at h
    split at h <;> cases h
  | cons e es ih =>
    unfold groupsFrom at h
    split at h
    · next hlen =>
      by_cases hnil : groupsFrom p [] es = []
      · rw [hnil] at h
        cases h
      · rw [List.dropLast_cons_of_ne_nil hnil] at h
        rcases List.mem_cons.1 h with rfl | h
        · exact hlen
        · exact ih h
    · exact ih h

/-! ## The index as a tiling -/

/-- The record bytes of the block of `e`: all of it but the checksum. -/
def recordBytes (file : Bytes) (e : IndexEntry) : Bytes :=
  (file.drop e.blockOffset.toNat).take (e.blockLen.toNat - 4)

/-- Where the block of `e` ends. -/
def IndexEntry.stop (e : IndexEntry) : ℕ := e.blockOffset.toNat + e.blockLen.toNat

/-- The block of `e` is made of the records `g`: it starts at the first of them, and it is below the
threshold before the last. -/
structure BlockOf (p : Prost) (file : Bytes) (e : IndexEntry) (g : List Record) : Prop where
  records : recordBytes file e = blockBytes p g
  firstKey : g.head?.map Prod.fst = some e.firstKey
  started : (blockBytes p g.dropLast).length < BLOCK_SIZE

/-- The blocks of `index` tile the data region of `file`, and hold `entries`. -/
structure Tiles (p : Prost) (entries : List Record) (file : Bytes) (index : List IndexEntry) : Prop where
  start : ∀ e ∈ index.head?, e.blockOffset.toNat = 0
  next : index.IsChain fun e e' => e'.blockOffset.toNat = e.stop
  stop : (index.getLast?.map IndexEntry.stop).getD 0 =
    (Footer.parse (file.drop (file.length - FOOTER_LEN))).indexOffset.toNat
  records : index.flatMap (recordBytes file) = entries.flatMap fun e => encodeRecord p e.1 e.2
  blocks : ∃ gs, gs.flatten = entries ∧ List.Forall₂ (BlockOf p file) index gs
  firstKeys : index.Pairwise fun e e' => e.firstKey < e'.firstKey
  full : ∀ e ∈ index.dropLast, BLOCK_SIZE ≤ (recordBytes file e).length

/-- A relation between every block and its index entry. -/
theorem forall₂_indexFrom {R : IndexEntry → List Record → Prop} (pre gs : List (List Record))
    (h : ∀ gs₁ g gs₂, gs = gs₁ ++ g :: gs₂ → R (blockEntry p (pre ++ gs₁) g) g) :
    List.Forall₂ R (indexFrom p (dataRegion p pre).length gs) gs := by
  induction gs generalizing pre with
  | nil => exact .nil
  | cons g gs ih =>
    rw [indexFrom_cons]
    refine .cons ?_ (ih (pre ++ [g]) fun gs₁ g' gs₂ hgs => ?_)
    · have hhead := h [] g gs rfl
      rwa [List.append_nil] at hhead
    · have htail := h (g :: gs₁) g' gs₂ (by rw [hgs]; rfl)
      rwa [List.append_assoc, List.singleton_append]

/-- Neighbouring blocks, as their index entries place them. -/
theorem isChain_indexFrom (pre gs : List (List Record))
    (h : ∀ gs₁ g gs₂, gs = gs₁ ++ g :: gs₂ →
      (blockEntry p (pre ++ gs₁) g).blockOffset.toNat = (dataRegion p (pre ++ gs₁)).length ∧
        (blockEntry p (pre ++ gs₁) g).stop = (dataRegion p (pre ++ gs₁ ++ [g])).length) :
    (indexFrom p (dataRegion p pre).length gs).IsChain fun e e' => e'.blockOffset.toNat = e.stop := by
  induction gs generalizing pre with
  | nil => exact .nil
  | cons g gs ih =>
    have hrest : (indexFrom p (dataRegion p (pre ++ [g])).length gs).IsChain
        fun e e' => e'.blockOffset.toNat = e.stop := by
      refine ih (pre ++ [g]) fun gs₁ g' gs₂ hgs => ?_
      have htail := h (g :: gs₁) g' gs₂ (by rw [hgs]; rfl)
      rwa [List.append_assoc pre, List.singleton_append]
    cases gs with
    | nil => exact .singleton _
    | cons g' gs =>
      rw [indexFrom_cons, indexFrom_cons]
      rw [indexFrom_cons] at hrest
      refine .cons_cons ?_ hrest
      have hstop := (h [] g (g' :: gs) rfl).2
      have hnext := (h [g] g' gs rfl).1
      rw [List.append_nil] at hstop
      rw [hstop, hnext]

section Holds

variable {f : File}

theorem File.Holds.stop_block (h : f.Holds p entries) {pre post : List (List Record)} {g : List Record}
    (hg : groups p entries = pre ++ g :: post) :
    (blockEntry p pre g).stop = (dataRegion p (pre ++ [g])).length := by
  obtain ⟨hoff, hlen, -⟩ := h.place hg
  unfold IndexEntry.stop
  rw [hoff, hlen, dataRegion_concat, List.length_append]

theorem File.Holds.recordBytes_block (h : f.Holds p entries) {pre post : List (List Record)}
    {g : List Record} (hg : groups p entries = pre ++ g :: post) :
    recordBytes f.bytes (blockEntry p pre g) = blockBytes p g := by
  obtain ⟨hoff, hlen, -⟩ := h.place hg
  have hfile : f.bytes = dataRegion p pre ++ (blockBytes p g ++ (u32Bytes (crc32 (blockBytes p g)) ++
      (dataRegion p post ++ (tableRegion p entries ++
        footerBytes (dataRegion p (groups p entries)).length (tableRegion p entries).length
          (groups p entries).length)))) := by
    rw [h.bytes, encodeTable_eq]
    simp only [hg, dataRegion, sealedBlock, List.flatMap_append, List.flatMap_cons, List.append_assoc]
  have htake : (sealedBlock p g).length - 4 = (blockBytes p g).length := by
    rw [length_sealedBlock]
    omega
  unfold recordBytes
  rw [hoff, hlen, htake, hfile, List.drop_left, List.take_left]

/-- The footer gives the length of the data region. -/
theorem File.Holds.indexOffset (h : f.Holds p entries) :
    (Footer.parse (f.bytes.drop (f.bytes.length - FOOTER_LEN))).indexOffset.toNat =
      (dataRegion p (groups p entries)).length := by
  have hflen := f.length_le
  have hle := h.dataRegion_le
  have hbytes : f.bytes = (dataRegion p (groups p entries) ++ tableRegion p entries) ++
      footerBytes (dataRegion p (groups p entries)).length (tableRegion p entries).length
        (groups p entries).length := by
    rw [h.bytes, encodeTable_eq, List.append_assoc]
  have hlen := congrArg List.length hbytes
  simp only [List.length_append, length_footerBytes] at hlen
  have hsub : f.bytes.length - FOOTER_LEN =
      (dataRegion p (groups p entries) ++ tableRegion p entries).length := by
    rw [List.length_append]
    omega
  unfold maxFileLen at hflen
  rw [hsub, hbytes, List.drop_left]
  exact (Footer.parse_footerBytes (by omega) (by omega) h.fits.count).1

/-- The blocks of the file of a table, in order. -/
theorem File.Holds.blockOf (h : f.Holds p entries) :
    List.Forall₂ (BlockOf p f.bytes) (tableIndex p entries) (groups p entries) := by
  refine forall₂_indexFrom [] (groups p entries) fun pre g post hg => ?_
  have hmem : g ∈ groups p entries := by rw [hg]; simp
  refine ⟨h.recordBytes_block hg, ?_, started_of_mem_groupsFrom (by simp [BLOCK_SIZE]) hmem⟩
  cases g with
  | nil => exact absurd rfl (ne_nil_of_mem_groups hmem)
  | cons e g => rfl

theorem File.Holds.tiles (h : f.Holds p entries) : Tiles p entries f.bytes (tableIndex p entries) where
  start e he := by
    cases hgs : groups p entries with
    | nil =>
      rw [tableIndex, hgs] at he
      cases he
    | cons g gs =>
      rw [tableIndex, hgs] at he
      cases he
      have hfirst : groups p entries = [] ++ g :: gs := hgs
      exact (h.place hfirst).1
  next := isChain_indexFrom [] (groups p entries) fun pre g post hg => ⟨(h.place hg).1, h.stop_block hg⟩
  stop := by
    rw [h.indexOffset, tableIndex]
    obtain hnil | ⟨gs, g, hgs⟩ := List.eq_nil_or_concat' (groups p entries)
    · rw [hnil]
      rfl
    · rw [hgs, indexFrom_split, show indexFrom p _ [] = [] from rfl, List.getLast?_concat]
      exact h.stop_block hgs
  records := by
    have hflat : ∀ {index : List IndexEntry} {gs : List (List Record)},
        List.Forall₂ (BlockOf p f.bytes) index gs →
        index.flatMap (recordBytes f.bytes) = gs.flatten.flatMap fun e => encodeRecord p e.1 e.2 := by
      intro index gs hblocks
      induction hblocks with
      | nil => rfl
      | cons hblock _ ih =>
        rw [List.flatMap_cons, List.flatten_cons, List.flatMap_append, ih, hblock.records]
        rfl
    rw [hflat h.blockOf, flatten_groups]
  blocks := ⟨groups p entries, flatten_groups entries, h.blockOf⟩
  firstKeys := (blocks_groups h.ascending).pairwise_indexFrom
  full e he := by
    obtain hnil | ⟨gs, g, hgs⟩ := List.eq_nil_or_concat' (groups p entries)
    · rw [tableIndex, hnil] at he
      cases he
    · rw [tableIndex, hgs, indexFrom_split, show indexFrom p _ [] = [] from rfl, List.dropLast_concat] at he
      obtain ⟨pre, g', post, hsplit, rfl⟩ := mem_indexFrom he
      have hall : groups p entries = pre ++ g' :: (post ++ [g]) := by
        rw [hgs, hsplit, List.append_assoc]
        rfl
      rw [h.recordBytes_block hall]
      have hmem : g' ∈ (groupsFrom p [] entries).dropLast := by
        rw [← groups, hgs, List.dropLast_concat, hsplit]
        simp
      exact full_of_mem_groupsFrom hmem

end Holds

/-- **Tiling.** The blocks that a flush of ascending entries writes tile the data region of its file,
whenever every length fits its field. -/
theorem flush_tiles (hasc : Ascending entries) (hfits : FieldsFit p entries) {path : FileName} {x y : Mem σ}
    {t : SsTable} (run : SsTable.flush p path entries x = .ok t y) :
    ∃ f, y.disk.files[path]? = some f ∧ Tiles p entries f.bytes t.index := by
  obtain ⟨hlen, rfl, hdisk⟩ := flush_returns run
  have hholds := holds_tableFile (hfits.tableFits hlen) hasc
  exact ⟨_, by rw [hdisk]; simp, hholds.tiles⟩

theorem exists_flush (hlen : (encodeTable p entries).file.length ≤ maxFileLen) (path : FileName) (a : σ)
    (d : Disk) : ∃ t y, SsTable.flush p path entries ⟨a, d, Env.quiet, 0⟩ = .ok t y := by
  have hflush : Returns (SsTable.flush p path entries) a d fun _ _ _ => True :=
    does_flush hlen trivial fun _ he => absurd he Env.not_faults_quiet
  obtain ⟨t, y, run, -⟩ := hflush.run 0
  exact ⟨t, y, run⟩

/-- The file of the sample map is tiled. -/
theorem flush_tiles_sampleMap : ∃ t y f,
    SsTable.flush Prost.wire "sstable_1.sst" sampleMap.toList ⟨(), Disk.empty, Env.quiet, 0⟩ = .ok t y ∧
    y.disk.files["sstable_1.sst"]? = some f ∧ Tiles Prost.wire sampleMap.toList f.bytes t.index := by
  have hfits := tableFits_sampleMap
  obtain ⟨t, y, run⟩ := exists_flush (p := Prost.wire) hfits.file "sstable_1.sst" () Disk.empty
  have hfields : FieldsFit Prost.wire sampleMap.toList :=
    ⟨hfits.key, hfits.value, hfits.block, hfits.count, hfits.bloom⟩
  obtain ⟨f, hf, htiles⟩ := flush_tiles (ascending_toList sampleMap) hfields run
  exact ⟨t, y, f, run, hf, htiles⟩

end FerrumDB
