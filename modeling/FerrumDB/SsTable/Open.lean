import FerrumDB.SsTable.Read

/-!
# Opening and flushing a table

Opening a file is a pure function of its bytes (`SsTable.parse`, `does_open`), which on the file of
a table gives back every part the writer kept in memory (`parse_of_holds`). A flush writes and
fsyncs the whole file (`does_flush`).
-/

namespace FerrumDB

open ByteCodec

variable {σ : Type} {env : Env} {a : σ} {d : Disk} {p : Prost}

/-! ## Opening -/

/-- What opening a file comes to. -/
def SsTable.parse (path : FileName) (f : File) : Except Stop SsTable :=
  if f.bytes.length < FOOTER_LEN then .error (.err (.decodeError "SSTable smaller than footer"))
  else
    let footer := Footer.parse (f.bytes.drop (f.bytes.length - FOOTER_LEN))
    if footer.magic ≠ MAGIC then
      .error (.err (.decodeError "not a FerrumDB SSTable (bad magic)"))
    else if footer.version ≠ VERSION then
      .error (.err (.decodeError s!"unsupported SSTable version {footer.version.toNat}"))
    else if footer.indexOffset.toNat ≤ maxFileLen ∧ footer.indexLen.toNat > maxFileLen then .error .panic
    else
      match f.readAt footer.indexOffset.toNat footer.indexLen.toNat with
      | .error msg => .error (.err (.ioError msg))
      | .ok buf =>
        match readIndex buf footer.entryCount.toNat [] 0 with
        | .error e => .error (.err e)
        | .ok (index, c) =>
          match readRangeAndBloom buf c with
          | .error e => .error (.err e)
          | .ok (minKey, maxKey, bloom) =>
            .ok ⟨path, index, minKey, maxKey, bloom, BlockCache.new BLOCK_CACHE_CAP⟩

/-- `SsTable.open` reads the file and parses it. -/
theorem does_open {name : FileName} {f : File} {Q : SsTable → σ → Disk → Prop}
    {E : Stop → σ → Disk → Prop} (hd : d.files[name]? = some f)
    (hQ : match SsTable.parse name f with
      | .ok t => Q t a d
      | .error e => E e a d)
    (hE : ∀ e, env.Faults (onPath name) e → E e a d) : Does env (SsTable.open name) a d Q E := by
  have hE' : ∀ op e, env.Faults (· = ⟨op, name⟩) e → E e a d := fun op e he =>
    hE e (he.mono fun c hc => by rw [hc]; rfl)
  unfold SsTable.parse at hQ
  unfold SsTable.open
  refine Does.bind (does_openRead hd ?_ (hE' _))
  refine Does.bind (does_fileLen hd ?_ (hE' _))
  by_cases hlen : f.bytes.length < FOOTER_LEN
  · rw [if_pos hlen] at hQ ⊢; exact .throw hQ
  · rw [if_neg hlen] at hQ ⊢
    refine Does.bind (does_readExactAt hd ?_ (hE' _))
    have hfoot : f.readAt (f.bytes.length - FOOTER_LEN) FOOTER_LEN =
        .ok (f.bytes.drop (f.bytes.length - FOOTER_LEN)) := by
      have := f.length_le
      unfold File.readAt
      rw [if_neg (by omega), if_neg (by omega),
        List.take_of_length_le (by rw [List.length_drop]; omega)]
    rw [hfoot]
    dsimp only at hQ ⊢
    generalize Footer.parse (f.bytes.drop (f.bytes.length - FOOTER_LEN)) = footer at hQ ⊢
    by_cases hmagic : footer.magic ≠ MAGIC
    · rw [if_pos hmagic] at hQ ⊢; exact .throw hQ
    rw [if_neg hmagic] at hQ ⊢
    by_cases hversion : footer.version ≠ VERSION
    · rw [if_pos hversion] at hQ ⊢; exact .throw hQ
    rw [if_neg hversion] at hQ ⊢
    by_cases hbig : footer.indexOffset.toNat ≤ maxFileLen ∧ footer.indexLen.toNat > maxFileLen
    · rw [if_pos hbig] at hQ ⊢; exact .throw hQ
    rw [if_neg hbig] at hQ ⊢
    refine Does.bind (does_readExactAt hd ?_ (hE' _))
    cases hr : f.readAt footer.indexOffset.toNat footer.indexLen.toNat with
    | error msg => rw [hr] at hQ; exact hQ
    | ok buf =>
      rw [hr] at hQ
      dsimp only at hQ ⊢
      cases hi : readIndex buf footer.entryCount.toNat [] 0 with
      | error e => rw [hi] at hQ; exact Does.bind (.throw hQ)
      | ok r =>
        obtain ⟨index, c⟩ := r
        rw [hi] at hQ
        dsimp only at hQ
        refine Does.bind (.pure ?_)
        dsimp only
        cases hb : readRangeAndBloom buf c with
        | error e => rw [hb] at hQ; exact Does.bind (.throw hQ)
        | ok r =>
          obtain ⟨minKey, maxKey, bloom⟩ := r
          rw [hb] at hQ
          exact Does.bind (.pure (.pure hQ))

theorem firstKey_lt {entries g : List Record} (hkey : ∀ e ∈ entries, e.1.length < 2 ^ 32)
    (hg : g ∈ groups p entries) : (firstKey g).length < 2 ^ 32 := by
  obtain ⟨e, he, hk⟩ := mem_flatten_firstKey (ne_nil_of_mem_groups hg)
  rw [hk]
  refine hkey e ?_
  rw [← flatten_groups (p := p) entries]
  exact List.mem_flatten.2 ⟨g, hg, he⟩

theorem Footer.parse_footerBytes {i l n : ℕ} (hi : i < 2 ^ 64) (hl : l < 2 ^ 64) (hn : n < 2 ^ 32) :
    (Footer.parse (footerBytes i l n)).indexOffset.toNat = i ∧
      (Footer.parse (footerBytes i l n)).indexLen.toNat = l ∧
      (Footer.parse (footerBytes i l n)).entryCount.toNat = n ∧
      (Footer.parse (footerBytes i l n)).magic = MAGIC ∧
      (Footer.parse (footerBytes i l n)).version = VERSION := by
  have h8 : (u64Bytes (asU64 i)).length = 8 := length_u64Bytes _
  have h8' : (u64Bytes (asU64 l)).length = 8 := length_u64Bytes _
  have h4 : (u32Bytes (asU32 n)).length = 4 := length_u32Bytes _
  have hfoot : footerBytes i l n = u64Bytes (asU64 i) ++ (u64Bytes (asU64 l) ++
      (u32Bytes (asU32 n) ++ (MAGIC ++ u32Bytes VERSION))) := by simp [footerBytes]
  have hd8 : (footerBytes i l n).drop 8 = u64Bytes (asU64 l) ++
      (u32Bytes (asU32 n) ++ (MAGIC ++ u32Bytes VERSION)) := by
    rw [hfoot, List.drop_left' h8]
  have hd16 : (footerBytes i l n).drop 16 = u32Bytes (asU32 n) ++ (MAGIC ++ u32Bytes VERSION) := by
    rw [show (16 : ℕ) = 8 + 8 from rfl, ← List.drop_drop, hd8, List.drop_left' h8']
  have hd20 : (footerBytes i l n).drop 20 = MAGIC ++ u32Bytes VERSION := by
    rw [show (20 : ℕ) = 16 + 4 from rfl, ← List.drop_drop, hd16, List.drop_left' h4]
  have hd24 : (footerBytes i l n).drop 24 = u32Bytes VERSION := by
    rw [show (24 : ℕ) = 20 + 4 from rfl, ← List.drop_drop, hd20]; rfl
  unfold Footer.parse
  dsimp only
  refine ⟨?_, ?_, ?_, ?_, ?_⟩
  · rw [hfoot, List.take_left' h8, ofNat_ofBe_u64Bytes]; exact toNat_asU64 hi
  · rw [hd8, List.take_left' h8', ofNat_ofBe_u64Bytes]; exact toNat_asU64 hl
  · rw [hd16, List.take_left' h4, ofNat_ofBe_u32Bytes]; exact toNat_asU32 hn
  · rw [hd20]; rfl
  · rw [hd24]; rfl

/-- The index region of a table is parsed back. -/
theorem readIndex_tableRegion {entries : List Record} (h : IndexFits p entries) :
    ∃ c, readIndex (tableRegion p entries) (groups p entries).length [] 0 =
        .ok (tableIndex p entries, c) ∧
      readRangeAndBloom (tableRegion p entries) c = .ok ((entries.map Prod.fst).head?,
        (entries.map Prod.fst).getLast?, tableBloom entries) := by
  have hkeys : ∀ e ∈ tableIndex p entries, e.firstKey.length < 2 ^ 32 := by
    intro e he
    obtain ⟨pre, g, post, hg, rfl⟩ := mem_indexFrom he
    exact firstKey_lt h.key (by rw [hg]; simp)
  have hstart := Left.start (tableRegion p entries)
  have hregion : tableRegion p entries = (tableIndex p entries).flatMap encodeIndexEntry ++
      (encodeKeyRange (entries.map Prod.fst).head? (entries.map Prod.fst).getLast? ++
        encodeBloom (tableBloom entries)) := by
    simp only [tableRegion, indexRegion, List.append_assoc]
  have hlen : (tableIndex p entries).length = (groups p entries).length := length_indexFrom 0 _
  have hleft : Left (tableRegion p entries) 0 ((tableIndex p entries).flatMap encodeIndexEntry ++
      (encodeKeyRange (entries.map Prod.fst).head? (entries.map Prod.fst).getLast? ++
        encodeBloom (tableBloom entries))) := ⟨hstart.le, by rw [hstart.drop, ← hregion]⟩
  refine ⟨0 + ((tableIndex p entries).flatMap encodeIndexEntry).length, ?_, ?_⟩
  · have hread := readIndex_left hkeys [] hleft
    rwa [hlen, List.nil_append] at hread
  · have hrest := hleft.skip
    cases hcase : entries with
    | nil =>
      rw [hcase] at hrest
      exact readRangeAndBloom_nil hrest
    | cons e es =>
      rw [← hcase]
      have hne : entries.map Prod.fst ≠ [] := by rw [hcase]; simp
      have hmin : (entries.map Prod.fst).head? = some e.1 := by rw [hcase]; rfl
      have hmax : (entries.map Prod.fst).getLast? = some ((entries.map Prod.fst).getLast hne) :=
        List.getLast?_eq_some_getLast hne
      have hmem := List.getLast_mem hne
      obtain ⟨e', he', hk'⟩ := List.mem_map.1 hmem
      have hbloom : tableBloom entries = some ((entries.map Prod.fst).foldl BloomFilter.add
          (BloomFilter.new (entries.map Prod.fst).length)) := if_neg hne
      rw [hmin, hmax, hbloom] at hrest ⊢
      refine readRangeAndBloom_left ?_ ?_ ?_ hrest
      · exact h.key e (by rw [hcase]; exact List.mem_cons_self ..)
      · rw [← hk']; exact h.key e' he'
      · rw [(BloomFilter.foldl_add_like _ _).1, List.length_map]; exact h.bloom

/-- **Opening a table file.** Everything the writer kept in memory is read back; the data region is
not looked at. -/
theorem parse_tableRegion {f : File} {entries : List Record} {data : Bytes}
    (hdata : data.length = (dataRegion p (groups p entries)).length)
    (hbytes : f.bytes = data ++ (tableRegion p entries ++
      footerBytes (dataRegion p (groups p entries)).length (tableRegion p entries).length
        (groups p entries).length))
    (h : IndexFits p entries) (path : FileName) :
    SsTable.parse path f = .ok ⟨path, tableIndex p entries, (entries.map Prod.fst).head?,
      (entries.map Prod.fst).getLast?, tableBloom entries, BlockCache.new BLOCK_CACHE_CAP⟩ := by
  have hflen := f.length_le
  have hlen := congrArg List.length hbytes
  simp only [List.length_append, length_footerBytes] at hlen
  unfold maxFileLen at hflen
  obtain ⟨hi, hl, hn, hmagic, hversion⟩ := Footer.parse_footerBytes
    (i := (dataRegion p (groups p entries)).length) (l := (tableRegion p entries).length)
    (n := (groups p entries).length) (by omega) (by omega) h.count
  have hdrop : f.bytes.drop (f.bytes.length - FOOTER_LEN) =
      footerBytes (dataRegion p (groups p entries)).length (tableRegion p entries).length
        (groups p entries).length := by
    have hsub : f.bytes.length - FOOTER_LEN = (data ++ tableRegion p entries).length := by
      rw [List.length_append]; omega
    rw [hsub, hbytes, ← List.append_assoc, List.drop_left]
  have hread : f.readAt (dataRegion p (groups p entries)).length (tableRegion p entries).length =
      .ok (tableRegion p entries) := by
    unfold File.readAt maxFileLen
    rw [if_neg (by omega), if_neg (by omega), hbytes, ← hdata, List.drop_left, List.take_left]
  obtain ⟨c, hindex, hrange⟩ := readIndex_tableRegion h
  unfold SsTable.parse maxFileLen
  rw [if_neg (by omega), hdrop]
  dsimp only
  rw [if_neg (by rw [hmagic]; simp), if_neg (by rw [hversion]; simp), hl, if_neg (by omega), hi,
    hread, hn]
  dsimp only
  rw [hindex]
  dsimp only
  rw [hrange]

theorem parse_encodeTable {f : File} {entries : List Record}
    (hbytes : f.bytes = (encodeTable p entries).file) (h : IndexFits p entries) (path : FileName) :
    SsTable.parse path f = .ok ⟨path, tableIndex p entries, (entries.map Prod.fst).head?,
      (entries.map Prod.fst).getLast?, tableBloom entries, BlockCache.new BLOCK_CACHE_CAP⟩ :=
  parse_tableRegion rfl (by rw [hbytes, encodeTable_eq]) h path

theorem parse_of_holds {f : File} {entries : List Record} (h : f.Holds p entries) (path : FileName) :
    SsTable.parse path f = .ok ⟨path, tableIndex p entries, (entries.map Prod.fst).head?,
      (entries.map Prod.fst).getLast?, tableBloom entries, BlockCache.new BLOCK_CACHE_CAP⟩ :=
  parse_encodeTable h.bytes h.fits.indexFits path

/-! ## Flushing -/

/-- The handle of a freshly written or opened table. -/
def freshTable (p : Prost) (path : FileName) (entries : List Record) : SsTable :=
  ⟨path, tableIndex p entries, (entries.map Prod.fst).head?, (entries.map Prod.fst).getLast?,
    tableBloom entries, BlockCache.new BLOCK_CACHE_CAP⟩

theorem serves_freshTable (path : FileName) (entries : List Record) :
    (freshTable p path entries).Serves p entries :=
  ⟨rfl, rfl, rfl, rfl, BlockCache.matches_new _ _⟩

/-- The file of a table that fits. -/
def tableFile (p : Prost) (entries : List Record)
    (h : (encodeTable p entries).file.length ≤ maxFileLen) : File where
  bytes := (encodeTable p entries).file
  synced := (encodeTable p entries).file.length
  synced_le := Nat.le_refl _
  length_le := h

theorem holds_tableFile {entries : List Record} (hfits : TableFits p entries)
    (hasc : Ascending entries) : (tableFile p entries hfits.file).Holds p entries :=
  ⟨rfl, rfl, hfits, hasc⟩

/-- The calls a flush to `name` makes. -/
def flushCalls (name : FileName) (c : IoCall) : Prop :=
  c = ⟨.createDirAll, ""⟩ ∨ (onPath name c ∧ (c.op = .openTruncate ∨ c.op = .write ∨ c.op = .sync))

/-- **Flushing.** The file is written and fsynced as a whole; a fault leaves the old file, no
bytes, or a prefix of the new ones. -/
theorem does_flush {path : FileName} {entries : List Record} {Q : SsTable → σ → Disk → Prop}
    {E : Stop → σ → Disk → Prop} (hlen : (encodeTable p entries).file.length ≤ maxFileLen)
    (hQ : Q (freshTable p path entries) a (d.put path (tableFile p entries hlen)))
    (hE : ∀ e, env.Faults (flushCalls path) e → E e a d ∧
      ∀ f : File, f.bytes <+: (encodeTable p entries).file → E e a (d.put path f)) :
    Does env (SsTable.flush p path entries) a d Q E := by
  unfold SsTable.flush
  refine Does.bind (does_createDirAll ?_ fun e he => (hE e (he.mono fun c hc => Or.inl hc)).1)
  refine Does.bind (does_openTruncate ?_ fun e he =>
    (hE e (he.mono fun c hc => Or.inr (by rw [hc]; exact ⟨rfl, Or.inl rfl⟩))).1)
  have hempty : (d.put path File.empty).files[path]? = some File.empty := by simp
  have hput : ∀ f f' : File, (d.put path f).put path f' = d.put path f' := by
    intro f f'
    unfold Disk.put
    rw [Disk.mk.injEq]
    refine ⟨?_, rfl⟩
    apply Std.ExtTreeMap.ext_getElem?
    intro k
    simp only [Std.ExtTreeMap.getElem?_insert]
    split <;> rfl
  have happ : ∀ bs, (d.put path File.empty).append path bs = d.put path (File.empty.append bs) :=
    fun bs => by rw [Disk.append_of_some hempty, hput]
  have hpart : ∀ bs, bs <+: (encodeTable p entries).file →
      (File.empty.append bs).bytes <+: (encodeTable p entries).file := fun bs hbs => by
    have hbytes : (File.empty.append bs).bytes = bs.take maxFileLen := List.nil_append _
    rw [hbytes]
    exact (List.take_prefix _ _).trans hbs
  have hfull : (File.empty.append (encodeTable p entries).file).bytes = (encodeTable p entries).file :=
    File.append_bytes (by simpa [File.empty] using hlen)
  refine Does.bind (does_writeAll hempty (fun _ => ?_) (fun hbig => ?_) fun n f hf => ?_)
  · rw [happ]
    refine Does.bind (does_syncAll (f := File.empty.append (encodeTable p entries).file) (by simp)
      (.pure ?_) fun e he => ?_)
    · rw [hput]
      have hfile : (File.empty.append (encodeTable p entries).file).sync = tableFile p entries hlen := by
        unfold File.sync tableFile
        rw [File.mk.injEq]
        exact ⟨hfull, congrArg List.length hfull⟩
      rw [hfile]
      have himg := encodeTable_eq p entries
      rw [himg]
      exact hQ
    · refine (hE e (he.mono fun c hc => Or.inr (by rw [hc]; exact ⟨rfl, by simp⟩))).2 _ ?_
      simp only [hfull, List.prefix_rfl]
  · exact absurd (by simpa [File.empty] using hlen) hbig
  · have hfault : env.Faults (flushCalls path) f.stop := ⟨n, ⟨.write, path⟩, f, Or.inr ⟨rfl, by simp⟩, hf, rfl⟩
    cases f with
    | error msg m =>
      show E _ a ((d.put path File.empty).append path _)
      rw [happ]
      exact (hE _ hfault).2 _ (hpart _ ((List.take_prefix _ _).trans (List.dropLast_prefix _)))
    | crash m =>
      show E _ a ((d.put path File.empty).append path _)
      rw [happ]
      exact (hE _ hfault).2 _ (hpart _ (List.take_prefix _ _))

/-- A flush that returns found room for the whole file. -/
theorem does_flush_room {path : FileName} {entries : List Record} : Does env (SsTable.flush p path entries) a d
    (fun t a' d' => ∃ hlen : (encodeTable p entries).file.length ≤ maxFileLen, t = freshTable p path entries ∧
      a' = a ∧ d' = d.put path (tableFile p entries hlen)) fun _ _ _ => True := by
  by_cases hlen : (encodeTable p entries).file.length ≤ maxFileLen
  · exact does_flush hlen ⟨hlen, rfl, rfl, rfl⟩ fun _ _ => ⟨trivial, fun _ _ => trivial⟩
  · unfold SsTable.flush
    refine Does.bind (does_createDirAll ?_ fun _ _ => trivial)
    refine Does.bind (does_openTruncate ?_ fun _ _ => trivial)
    have hempty : (d.put path File.empty).files[path]? = some File.empty := by simp
    refine Does.bind (does_writeAll hempty (fun hfits => ?_) (fun _ => trivial) fun _ _ _ => trivial)
    exact absurd (by simpa [File.empty] using hfits) hlen

theorem flush_returns {path : FileName} {entries : List Record} {x y : Mem σ} {t : SsTable}
    (run : SsTable.flush p path entries x = .ok t y) :
    ∃ hlen : (encodeTable p entries).file.length ≤ maxFileLen, t = freshTable p path entries ∧
      y.disk = x.disk.put path (tableFile p entries hlen) := by
  have hdoes : Does x.env (SsTable.flush p path entries) x.self x.disk _ _ := does_flush_room
  obtain ⟨hlen, ht, -, hdisk⟩ := hdoes.of_ok run
  exact ⟨hlen, ht, hdisk⟩

end FerrumDB
