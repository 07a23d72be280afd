import FerrumDB.SsTable.Malformed

/-!
# What `SsTable::open` accepts

The readers of the index region are the inverses of its writers: a field that is read lies in the buffer as
it would be written, and the cursor stops behind it (`Spans`). So a file opens if and only if it has the
format (`TableFile`): a footer with the magic bytes and the version, an index region that lies in the file,
or is empty, and begins with the index entries, as many as the footer counts, and then ends or goes on with
the key range and the filter. The handle is what these bytes encode, and no length has been narrowed
(`opens_iff_tableFile`). The blocks before the region are not looked at.
-/

namespace FerrumDB

open ByteCodec

variable {buf bs : Bytes} {c c' n : ℕ} {name : FileName} {f : File} {t : SsTable} {d : Disk}

/-! ## Fields -/

theorem spans_of_readU32 {v : UInt32} (h : readU32 buf c = .ok (v, c')) : Spans buf c (u32Bytes v) c' := by
  obtain ⟨⟨bs, c''⟩, hread, h⟩ := bind_eq_ok h
  obtain ⟨hspans, hlen⟩ := spans_of_takeBytes hread
  cases h
  have hlt := ofBe_lt bs
  rw [hlen] at hlt
  have hbytes : u32Bytes (UInt32.ofNat (ofBe bs)) = bs := by
    unfold u32Bytes
    rw [UInt32.toNat_ofNat_of_lt' hlt, ← hlen, beBytes_ofBe]
  rwa [hbytes]

theorem spans_of_readU64 {v : UInt64} (h : readU64 buf c = .ok (v, c')) : Spans buf c (u64Bytes v) c' := by
  obtain ⟨⟨bs, c''⟩, hread, h⟩ := bind_eq_ok h
  obtain ⟨hspans, hlen⟩ := spans_of_takeBytes hread
  cases h
  have hlt := ofBe_lt bs
  rw [hlen] at hlt
  have hbytes : u64Bytes (UInt64.ofNat (ofBe bs)) = bs := by
    unfold u64Bytes
    rw [UInt64.toNat_ofNat_of_lt' hlt, ← hlen, beBytes_ofBe]
  rwa [hbytes]

/-- A length and as many bytes. -/
theorem spans_lenPrefixed {v : UInt32} (h : readU32 buf c = .ok (v, n)) (h' : readBytes buf v.toNat n = .ok (bs, c')) :
    Spans buf c (lenPrefixed bs) c' ∧ bs.length < 2 ^ 32 := by
  obtain ⟨hspans, hlen⟩ := spans_of_takeBytes h'
  have hlt : bs.length < 2 ^ 32 := by
    rw [hlen]
    exact v.toNat_lt
  refine ⟨?_, hlt⟩
  have hv : asU32 bs.length = v := by
    unfold asU32
    rw [hlen, UInt32.ofNat_toNat]
  unfold lenPrefixed
  rw [hv]
  exact (spans_of_readU32 h).append hspans

/-! ## The index region -/

theorem spans_of_readIndexEntry {e : IndexEntry} (h : readIndexEntry buf c = .ok (e, c')) :
    Spans buf c (encodeIndexEntry e) c' ∧ e.firstKey.length < 2 ^ 32 := by
  obtain ⟨⟨keyLen, c₁⟩, hlen, h⟩ := bind_eq_ok h
  obtain ⟨⟨key, c₂⟩, hkey, h⟩ := bind_eq_ok h
  obtain ⟨⟨blockOffset, c₃⟩, hoffset, h⟩ := bind_eq_ok h
  obtain ⟨⟨blockLen, c₄⟩, hblock, h⟩ := bind_eq_ok h
  cases h
  obtain ⟨hspans, hlt⟩ := spans_lenPrefixed hlen hkey
  exact ⟨(hspans.append (spans_of_readU64 hoffset)).append (spans_of_readU32 hblock), hlt⟩

theorem spans_of_readIndex {out index : List IndexEntry} (hc : c ≤ buf.length)
    (h : readIndex buf n out c = .ok (index, c')) : ∃ es, index = out ++ es ∧ es.length = n ∧
      Spans buf c (es.flatMap encodeIndexEntry) c' ∧ ∀ e ∈ es, e.firstKey.length < 2 ^ 32 := by
  induction n generalizing c out with
  | zero =>
    cases h
    exact ⟨[], (List.append_nil _).symm, rfl, .nil hc, nofun⟩
  | succ n ih =>
    obtain ⟨⟨e, c₁⟩, hentry, h⟩ := bind_eq_ok h
    obtain ⟨hspans, hlt⟩ := spans_of_readIndexEntry hentry
    obtain ⟨es, rfl, rfl, hspans', hlts⟩ := ih hspans.le h
    refine ⟨e :: es, by simp, rfl, hspans.append hspans', fun e' he' => ?_⟩
    rcases List.mem_cons.1 he' with rfl | he'
    · exact hlt
    · exact hlts e' he'

/-- The key range and the filter are there, with lengths that fit, or neither is. -/
inductive TailFits : Option Bytes → Option Bytes → Option BloomFilter → Prop
  | absent : TailFits none none none
  | present {min max : Bytes} {b : BloomFilter} (hmin : min.length < 2 ^ 32) (hmax : max.length < 2 ^ 32)
      (hbits : b.bits.length < 2 ^ 32) : TailFits (some min) (some max) (some b)

theorem readRangeAndBloom_eq_ok (hc : c ≤ buf.length) {min max : Option Bytes} {bloom : Option BloomFilter} :
    readRangeAndBloom buf c = .ok (min, max, bloom) ↔ TailFits min max bloom ∧ ∃ slack,
      Left buf c (encodeKeyRange min max ++ encodeBloom bloom ++ slack) ∧ (bloom = none → slack = []) := by
  constructor
  · intro h
    unfold readRangeAndBloom at h
    split at h
    · obtain ⟨⟨minLen, c₁⟩, hminLen, h⟩ := bind_eq_ok h
      obtain ⟨⟨min', c₂⟩, hmin, h⟩ := bind_eq_ok h
      obtain ⟨⟨maxLen, c₃⟩, hmaxLen, h⟩ := bind_eq_ok h
      obtain ⟨⟨max', c₄⟩, hmax, h⟩ := bind_eq_ok h
      obtain ⟨⟨k, c₅⟩, hk, h⟩ := bind_eq_ok h
      obtain ⟨⟨bitsLen, c₆⟩, hbitsLen, h⟩ := bind_eq_ok h
      obtain ⟨⟨bits, c₇⟩, hbits, h⟩ := bind_eq_ok h
      cases h
      obtain ⟨hspans₁, hlt₁⟩ := spans_lenPrefixed hminLen hmin
      obtain ⟨hspans₂, hlt₂⟩ := spans_lenPrefixed hmaxLen hmax
      obtain ⟨hspans₃, hlt₃⟩ := spans_lenPrefixed hbitsLen hbits
      exact ⟨.present hlt₁ hlt₂ hlt₃, _,
        ((hspans₁.append hspans₂).append ((spans_of_readU32 hk).append hspans₃)).left, nofun⟩
    · next hend =>
      cases h
      exact ⟨.absent, [], ⟨hc, List.drop_eq_nil_of_le (by omega)⟩, fun _ => rfl⟩
  · rintro ⟨htail, slack, hleft, hslack⟩
    cases htail with
    | absent =>
      rw [hslack rfl] at hleft
      exact readRangeAndBloom_nil hleft
    | present hmin hmax hbits => exact readRangeAndBloom_ahead hmin hmax hbits hleft

/-! ## The file -/

/-- The bytes are those of a table file, and the handle is what they say. -/
structure TableFile (name : FileName) (bytes : Bytes) (t : SsTable) : Prop where
  footer : FOOTER_LEN ≤ bytes.length
  magic : (footerOf bytes).magic = MAGIC
  version : (footerOf bytes).version = VERSION
  inside : ReadableAt bytes (footerOf bytes).indexOffset.toNat (footerOf bytes).indexLen.toNat
  region : ∃ slack, (bytes.drop (footerOf bytes).indexOffset.toNat).take (footerOf bytes).indexLen.toNat =
    indexRegion t.index t.minKey t.maxKey t.bloom ++ slack ∧ (t.bloom = none → slack = [])
  count : t.index.length = (footerOf bytes).entryCount.toNat
  keys : ∀ e ∈ t.index, e.firstKey.length < 2 ^ 32
  tail : TailFits t.minKey t.maxKey t.bloom
  path : t.path = name
  cache : t.cache = BlockCache.new BLOCK_CACHE_CAP

theorem tableFile_of_parse (h : SsTable.parse name f = .ok t) : TableFile name f.bytes t := by
  unfold SsTable.parse at h
  split at h
  · cases h
  next hlen =>
  dsimp only at h
  split_ifs at h with hmagic hversion hfar
  split at h
  · cases h
  next buf hread =>
  split at h
  · cases h
  next index c hindex =>
  split at h
  · cases h
  next minKey maxKey bloom htail =>
  cases h
  obtain ⟨hinside, rfl⟩ := readAt_eq_ok_iff.1 hread
  obtain ⟨es, rfl, hcount, hspans, hkeys⟩ := spans_of_readIndex (Nat.zero_le _) hindex
  obtain ⟨hfits, slack, hleft, hslack⟩ := (readRangeAndBloom_eq_ok hspans.le).1 htail
  refine ⟨by omega, not_not.1 hmagic, not_not.1 hversion, hinside, ⟨slack, ?_, hslack⟩, hcount, hkeys, hfits, rfl,
    rfl⟩
  -- the entries, and what is left after them
  have hregion := hspans.left.drop
  rw [List.drop_zero, hleft.drop] at hregion
  unfold indexRegion
  rw [List.append_assoc, List.append_assoc]
  rw [List.append_assoc] at hregion
  exact hregion

theorem parse_of_tableFile (h : TableFile name f.bytes t) : SsTable.parse name f = .ok t := by
  obtain ⟨slack, hregion, hslack⟩ := h.region
  have hlen := f.length_le
  have hinside := h.inside
  have hread : f.readAt (footerOf f.bytes).indexOffset.toNat (footerOf f.bytes).indexLen.toNat =
      .ok (indexRegion t.index t.minKey t.maxKey t.bloom ++ slack) := readAt_eq_ok_iff.2 ⟨hinside, hregion.symm⟩
  have hstart := Left.start (indexRegion t.index t.minKey t.maxKey t.bloom ++ slack)
  have hleft : Left (indexRegion t.index t.minKey t.maxKey t.bloom ++ slack) 0
      (t.index.flatMap encodeIndexEntry ++ (encodeKeyRange t.minKey t.maxKey ++ encodeBloom t.bloom ++ slack)) := by
    unfold indexRegion at hstart ⊢
    simpa only [List.append_assoc] using hstart
  have hindex := readIndex_left h.keys [] hleft
  have htail := (readRangeAndBloom_eq_ok hleft.skip.le).2 ⟨h.tail, slack, hleft.skip, hslack⟩
  rw [List.nil_append, h.count] at hindex
  unfold ReadableAt at hinside
  unfold SsTable.parse
  rw [if_neg (Nat.not_lt.2 h.footer)]
  dsimp only
  rw [show Footer.parse (f.bytes.drop (f.bytes.length - FOOTER_LEN)) = footerOf f.bytes from rfl,
    if_neg (not_not.2 h.magic), if_neg (not_not.2 h.version), if_neg (by omega), hread]
  dsimp only
  rw [hindex]
  dsimp only
  rw [htail, ← h.path, ← h.cache]

/-- Nothing opens that is not there. -/
theorem file_of_opened (h : Opened name d t) : ∃ f, d.files[name]? = some f := by
  obtain ⟨env, n, x, hrun⟩ := h
  cases hd : d.files[name]? with
  | some f => exact ⟨f, rfl⟩
  | none =>
    have hopen : Does env (SsTable.open name) () d (fun _ _ _ => False) fun _ _ _ => True := by
      unfold SsTable.open
      refine Does.bind (.ioCall_noEffect ?_ fun _ _ => trivial)
      rw [if_neg (by rw [Std.ExtTreeMap.contains_eq_isSome_getElem?, hd]; exact nofun)]
      trivial
    exact (hopen.of_ok hrun).elim

/-- A footer alone whose empty index region lies behind the end of the file: a table without keys. -/
example : SsTable.parse "sstable_1.sst" (.append .empty (footerBytes 100 0 0)) =
    .ok ⟨"sstable_1.sst", [], none, none, none, BlockCache.new BLOCK_CACHE_CAP⟩ := rfl

end FerrumDB
