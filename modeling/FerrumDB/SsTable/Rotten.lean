import FerrumDB.SsTable.Corruption

/-!
# Rotten tables

A table file rots when blocks of it change behind the program's back and their checksums show it. The rest of the
file is as it was, so the file opens as before (`File.Rots.parse`) and is read at the same places
(`File.Rots.readAt`). Rot adds up (`File.Rots.trans`), and a change of one block in at most four consecutive
record bytes or in the checksum is rot (`rots_of_hit`).
-/

namespace FerrumDB

variable {p : Prost} {f f' f'' : File} {e : IndexEntry} {name : FileName}

/-- The bytes of a block, its checksum included. -/
def File.block (f : File) (e : IndexEntry) : Bytes := (f.bytes.drop e.blockOffset.toNat).take e.blockLen.toNat

/-- The block does not pass its check. -/
def Unreadable (e : IndexEntry) (block : Bytes) : Prop := ∃ msg, checkBlock e block = .error (.err (.decodeError msg))

/-- Where the part of a table file starts that is read when it is opened. -/
def File.indexStart (f : File) : ℕ :=
  min (Footer.parse (f.bytes.drop (f.bytes.length - FOOTER_LEN))).indexOffset.toNat (f.bytes.length - FOOTER_LEN)

/-- `f'` is what is left of the table file `f`: its index is intact, and so is each of its blocks unless the
checksum shows that it is not. -/
structure File.Rots (f f' : File) : Prop where
  length_eq : f'.bytes.length = f.bytes.length
  synced_eq : f'.synced = f.synced
  index : f'.bytes.drop f.indexStart = f.bytes.drop f.indexStart
  blocks : ∀ name t, SsTable.parse name f = .ok t → ∀ e ∈ t.index, f'.block e = f.block e ∨ Unreadable e (f'.block e)

theorem File.rots_refl (f : File) : f.Rots f := ⟨rfl, rfl, rfl, fun _ _ _ _ _ => .inl rfl⟩

theorem File.Rots.drop_eq (h : f.Rots f') {k : ℕ} (hk : f.indexStart ≤ k) : f'.bytes.drop k = f.bytes.drop k := by
  have hindex := congrArg (List.drop (k - f.indexStart)) h.index
  rwa [List.drop_drop, List.drop_drop, Nat.add_sub_cancel' hk] at hindex

theorem File.Rots.footer (h : f.Rots f') :
    f'.bytes.drop (f'.bytes.length - FOOTER_LEN) = f.bytes.drop (f.bytes.length - FOOTER_LEN) := by
  rw [h.length_eq]
  exact h.drop_eq (Nat.min_le_right _ _)

theorem File.Rots.indexStart (h : f.Rots f') : f'.indexStart = f.indexStart := by
  unfold File.indexStart
  rw [h.footer, h.length_eq]

/-- From the index on, the files are read alike. -/
theorem File.Rots.readAt (h : f.Rots f') {off : ℕ} (hoff : f.indexStart ≤ off) (n : ℕ) :
    f'.readAt off n = f.readAt off n := by
  unfold File.readAt
  rw [h.length_eq, h.drop_eq hoff]

/-- **A rotten table opens as before.** -/
theorem File.Rots.parse (h : f.Rots f') (name : FileName) : SsTable.parse name f' = SsTable.parse name f := by
  have hstart : f.indexStart ≤ (Footer.parse (f.bytes.drop (f.bytes.length - FOOTER_LEN))).indexOffset.toNat :=
    Nat.min_le_left _ _
  unfold SsTable.parse
  rw [h.footer, h.length_eq]
  dsimp only
  rw [h.readAt hstart]

theorem File.Rots.trans (h : f.Rots f') (h' : f'.Rots f'') : f.Rots f'' where
  length_eq := h'.length_eq.trans h.length_eq
  synced_eq := h'.synced_eq.trans h.synced_eq
  index := (h'.drop_eq (Nat.le_of_eq h.indexStart)).trans h.index
  blocks name t ht e he := by
    have hpass := h.blocks name t ht e he
    rcases h'.blocks name t ((h.parse name).trans ht) e he with hsame | hfails
    · rwa [hsame]
    · exact .inr hfails

/-- A block is read in both files, or in neither. -/
theorem File.Rots.readAt_block (h : f.Rots f') (e : IndexEntry) :
    (∃ msg, f.readAt e.blockOffset.toNat e.blockLen.toNat = .error msg ∧
      f'.readAt e.blockOffset.toNat e.blockLen.toNat = .error msg) ∨
    (f.readAt e.blockOffset.toNat e.blockLen.toNat = .ok (f.block e) ∧
      f'.readAt e.blockOffset.toNat e.blockLen.toNat = .ok (f'.block e)) := by
  unfold File.readAt File.block
  rw [h.length_eq]
  split_ifs
  · exact .inl ⟨_, rfl, rfl⟩
  · exact .inl ⟨_, rfl, rfl⟩
  · exact .inr ⟨rfl, rfl⟩

/-! ## What is rot -/

section Hit

variable {entries : List Record}

/-- The index of a table starts behind its blocks. -/
theorem File.Holds.indexStart (h : f.Holds p entries) :
    f.indexStart = (dataRegion p (groups p entries)).length := by
  have hflen := f.length_le
  have hbytes := h.bytes
  rw [encodeTable_eq] at hbytes
  dsimp only at hbytes
  have hlen := congrArg List.length hbytes
  simp only [List.length_append, length_footerBytes] at hlen
  unfold maxFileLen at hflen
  obtain ⟨hi, -⟩ := Footer.parse_footerBytes (i := (dataRegion p (groups p entries)).length)
    (l := (tableRegion p entries).length) (n := (groups p entries).length) (by omega) (by omega) h.fits.indexFits.count
  have hsub : f.bytes.length - FOOTER_LEN =
      (dataRegion p (groups p entries) ++ tableRegion p entries).length := by
    rw [List.length_append]
    omega
  have hfooter : f.bytes.drop (f.bytes.length - FOOTER_LEN) =
      footerBytes (dataRegion p (groups p entries)).length (tableRegion p entries).length
        (groups p entries).length := by
    rw [hsub, hbytes, ← List.append_assoc, List.drop_left]
  unfold File.indexStart
  rw [hfooter, hi]
  exact min_eq_left (by omega)

/-- **A short change of one block is rot.** -/
theorem rots_of_hit (h : f.Holds p entries) (he : e ∈ tableIndex p entries) (hhit : HitsBlock e f.bytes f'.bytes)
    (hne : f.bytes ≠ f'.bytes) (hsynced : f'.synced = f.synced) : f.Rots f' := by
  obtain ⟨pre, g, post, hg, rfl⟩ := mem_indexFrom he
  have hconf := confined_block h hg hhit
  obtain ⟨-, -, hend⟩ := h.place hg
  have hindex := hconf.drop_eq (hend.trans (Nat.le_of_eq h.indexStart.symm))
  refine ⟨hhit.length_eq.symm, hsynced, hindex.symm, fun name t ht e' he' => ?_⟩
  cases (parse_of_holds h name).symm.trans ht
  obtain ⟨pre', g', post', hg', rfl⟩ := mem_indexFrom he'
  obtain ⟨hoff, hlen, -⟩ := h.place hg'
  have hapart : (dataRegion p pre').length + (sealedBlock p g').length ≤ (dataRegion p pre).length ∨
      (dataRegion p pre).length + (sealedBlock p g).length ≤ (dataRegion p pre').length →
      f'.block (blockEntry p pre' g') = f.block (blockEntry p pre' g') := by
    intro hout
    rw [← hoff, ← hlen] at hout
    exact (hconf.slice_eq hout).symm
  rcases blocks_apart (p := p) hg hg' with ⟨rfl, rfl⟩ | hbefore | hafter
  · right
    obtain ⟨block, hread, hcheck⟩ := checkBlock_hit h hg hhit hne
    obtain ⟨-, hread'⟩ := File.readAt_of_length_eq hhit.length_eq (h.readAt_block hg)
    cases hread.symm.trans hread'
    exact ⟨_, hcheck⟩
  · exact .inl (hapart (.inr hbefore))
  · exact .inl (hapart (.inl hafter))

/-- Its blocks and its index are all of a table. -/
theorem File.Rots.eq_of_blocks (h : f.Rots f') (hf : f.Holds p entries)
    (hblocks : ∀ e ∈ tableIndex p entries, f'.block e = f.block e) : f' = f := by
  have htake : ∀ post pre, groups p entries = pre ++ post →
      f'.bytes.take (dataRegion p pre).length = f.bytes.take (dataRegion p pre).length →
      f'.bytes.take (dataRegion p (groups p entries)).length =
        f.bytes.take (dataRegion p (groups p entries)).length := by
    intro post
    induction post with
    | nil =>
      intro pre hpre hsame
      rwa [hpre, List.append_nil]
    | cons g post ih =>
      intro pre hpre hsame
      have hmem : blockEntry p pre g ∈ tableIndex p entries := by
        unfold tableIndex
        rw [hpre, indexFrom_split]
        exact List.mem_append_right _ (List.mem_cons_self ..)
      obtain ⟨hoff, hlen, -⟩ := hf.place hpre
      have hblock := hblocks _ hmem
      unfold File.block at hblock
      rw [hoff, hlen] at hblock
      refine ih (pre ++ [g]) (by rw [hpre, List.append_assoc]; rfl) ?_
      rw [dataRegion_concat, List.length_append, List.take_add, List.take_add, hsame, hblock]
  have hbytes : f'.bytes = f.bytes := by
    rw [← List.take_append_drop (dataRegion p (groups p entries)).length f'.bytes, htake _ [] rfl rfl,
      h.drop_eq (Nat.le_of_eq hf.indexStart), List.take_append_drop]
  cases f
  cases f'
  simp only [File.mk.injEq]
  exact ⟨hbytes, h.synced_eq⟩

end Hit

end FerrumDB
