import FerrumDB.SsTable.Locate
import FerrumDB.Calls

/-!
# Reading a table

A file holds a table (`File.Holds`) when its bytes are those the writer lays out for entries that
fit, and a handle serves it (`SsTable.Serves`) when its parts in memory are those of the same
entries. Then every reader answers from these entries, in every environment: `does_get` and
`does_readAllEntries` say what a call returns, and that a fault changes neither the file nor what
the handle answers.
-/

namespace FerrumDB

open ByteCodec

variable {σ : Type} {env : Env} {a : σ} {d : Disk} {p : Prost}

/-! ## Tables on disk and in memory -/

/-- The file `f` is the table of `entries`, all of it fsynced. -/
structure File.Holds (p : Prost) (f : File) (entries : List Record) : Prop where
  bytes : f.bytes = (encodeTable p entries).file
  synced : f.synced = f.bytes.length
  fits : TableFits p entries
  ascending : Ascending entries

/-- Every cached block holds the record bytes of the block at its offset. -/
def BlockCache.Matches (p : Prost) (gs : List (List Record)) (c : BlockCache) : Prop :=
  ∀ pre g post bytes, gs = pre ++ g :: post →
    c.blocks[asU64 (dataRegion p pre).length]? = some bytes → bytes = blockBytes p g

/-- The handle `t` is one of the table of `entries`. -/
structure SsTable.Serves (p : Prost) (t : SsTable) (entries : List Record) : Prop where
  index : t.index = tableIndex p entries
  minKey : t.minKey = (entries.map Prod.fst).head?
  maxKey : t.maxKey = (entries.map Prod.fst).getLast?
  bloom : t.bloom = tableBloom entries
  cache : t.cache.Matches p (groups p entries)

theorem SsTable.Serves.withCache {t : SsTable} {entries : List Record} (h : t.Serves p entries)
    {c : BlockCache} (hc : c.Matches p (groups p entries)) :
    SsTable.Serves p { t with cache := c } entries :=
  ⟨h.index, h.minKey, h.maxKey, h.bloom, hc⟩

theorem BlockCache.matches_new (gs : List (List Record)) (cap : ℕ) :
    (BlockCache.new cap).Matches p gs := by
  intro pre g post bytes _ hb
  simp [BlockCache.new] at hb

section Blocks

variable {f : File} {entries : List Record} {pre post : List (List Record)} {g : List Record}

theorem File.Holds.recordFits (h : f.Holds p entries) (hg : g ∈ groups p entries) :
    ∀ e ∈ g, RecordFits p e := by
  intro e he
  have hmem : e ∈ entries := by
    rw [← flatten_groups (p := p) entries]; exact List.mem_flatten.2 ⟨g, hg, he⟩
  exact ⟨h.fits.key e hmem, h.fits.value e hmem⟩

theorem File.Holds.dataRegion_le (h : f.Holds p entries) :
    (dataRegion p (groups p entries)).length ≤ f.bytes.length := by
  rw [h.bytes, encodeTable_eq]
  simp only [List.length_append]; omega

/-- The index entry of a block gives its place in the data region. -/
theorem File.Holds.place (h : f.Holds p entries) (hg : groups p entries = pre ++ g :: post) :
    (blockEntry p pre g).blockOffset.toNat = (dataRegion p pre).length ∧
      (blockEntry p pre g).blockLen.toNat = (sealedBlock p g).length ∧
      (dataRegion p pre).length + (sealedBlock p g).length ≤ (dataRegion p (groups p entries)).length := by
  have hle := h.dataRegion_le
  have hflen := f.length_le
  have hlen : (dataRegion p (groups p entries)).length =
      (dataRegion p pre).length + ((sealedBlock p g).length + (dataRegion p post).length) := by
    rw [hg]; simp [dataRegion]
  unfold maxFileLen at hflen
  refine ⟨toNat_asU64 (by omega), ?_, by omega⟩
  rw [length_sealedBlock]
  exact toNat_asU32 (h.fits.block g (by rw [hg]; simp))

/-- The bytes of a block lie in the file where its index entry says. -/
theorem File.Holds.readAt_block (h : f.Holds p entries) (hg : groups p entries = pre ++ g :: post) :
    f.readAt (blockEntry p pre g).blockOffset.toNat (blockEntry p pre g).blockLen.toNat =
      .ok (sealedBlock p g) := by
  have hle := h.dataRegion_le
  have hflen := f.length_le
  obtain ⟨hoff, hblen, hregion⟩ := h.place hg
  have hsplit : dataRegion p (groups p entries) =
      dataRegion p pre ++ (sealedBlock p g ++ dataRegion p post) := by
    rw [hg]; simp [dataRegion]
  unfold maxFileLen at hflen
  rw [hoff, hblen]
  unfold File.readAt maxFileLen
  rw [if_neg (by omega), if_neg (by omega), h.bytes, encodeTable_eq]
  dsimp only
  rw [hsplit, List.append_assoc, List.append_assoc, List.drop_left, List.take_left]

/-- Two blocks of a table are one block, or lie apart. -/
theorem blocks_apart {gs pre' post' : List (List Record)} {g' : List Record}
    (hg : gs = pre ++ g :: post) (hg' : gs = pre' ++ g' :: post') :
    (pre = pre' ∧ g = g') ∨
      (dataRegion p pre).length + (sealedBlock p g).length ≤ (dataRegion p pre').length ∨
      (dataRegion p pre').length + (sealedBlock p g').length ≤ (dataRegion p pre).length := by
  have hafter : ∀ (xs mid : List (List Record)) (x : List Record),
      (dataRegion p xs).length + (sealedBlock p x).length ≤ (dataRegion p (xs ++ x :: mid)).length := by
    intro xs mid x
    simp only [dataRegion, List.flatMap_append, List.flatMap_cons, List.length_append]
    omega
  rw [hg] at hg'
  rcases List.append_eq_append_iff.1 hg' with ⟨mid, hpre, hrest⟩ | ⟨mid, hpre, hrest⟩
  · cases mid with
    | nil =>
      rw [List.nil_append, List.cons.injEq] at hrest
      exact Or.inl ⟨by rw [hpre, List.append_nil], hrest.1⟩
    | cons x mid =>
      rw [List.cons_append, List.cons.injEq] at hrest
      rw [hpre, hrest.1]
      exact Or.inr (Or.inl (hafter pre mid x))
  · cases mid with
    | nil =>
      rw [List.nil_append, List.cons.injEq] at hrest
      exact Or.inl ⟨by rw [hpre, List.append_nil], hrest.1.symm⟩
    | cons x mid =>
      rw [List.cons_append, List.cons.injEq] at hrest
      rw [hpre, hrest.1]
      exact Or.inr (Or.inr (hafter pre' mid x))

/-- Distinct blocks have distinct offsets. -/
theorem File.Holds.matches_insert (h : f.Holds p entries) (hg : groups p entries = pre ++ g :: post)
    {c : BlockCache} (hc : c.Matches p (groups p entries)) :
    (c.put (asU64 (dataRegion p pre).length) (blockBytes p g)).Matches p (groups p entries) := by
  have hle := h.dataRegion_le
  have hflen := f.length_le
  unfold maxFileLen at hflen
  have hevict : ∀ k : UInt64, (c.evict (asU64 (dataRegion p pre).length)).blocks[k]? = none ∨
      (c.evict (asU64 (dataRegion p pre).length)).blocks[k]? = c.blocks[k]? := by
    intro k
    unfold BlockCache.evict
    split
    · split
      · exact Or.inr rfl
      · rw [Std.ExtTreeMap.getElem?_erase]
        split
        · exact Or.inl rfl
        · exact Or.inr rfl
    · exact Or.inr rfl
  unfold BlockCache.put
  split
  · exact hc
  · intro pre' g' post' bytes hg' hb
    simp only [BlockCache.touch, Std.ExtTreeMap.getElem?_insert] at hb
    split at hb
    · next heq =>
      -- the same offset is the same block
      have heq : asU64 (dataRegion p pre).length = asU64 (dataRegion p pre').length :=
        Std.compare_eq_iff_eq.1 heq
      have heqn := congrArg UInt64.toNat heq
      obtain ⟨-, -, hend⟩ := h.place hg
      obtain ⟨-, -, hend'⟩ := h.place hg'
      rw [length_sealedBlock] at hend hend'
      rw [toNat_asU64 (by omega), toNat_asU64 (by omega)] at heqn
      rcases blocks_apart (p := p) hg hg' with ⟨-, hsame⟩ | hbefore | hafter
      · rw [← Option.some.inj hb, hsame]
      · rw [length_sealedBlock] at hbefore; omega
      · rw [length_sealedBlock] at hafter; omega
    · rcases hevict (asU64 (dataRegion p pre').length) with hnone | hsame
      · rw [hnone] at hb; cases hb
      · rw [hsame] at hb; exact hc pre' g' post' bytes hg' hb

theorem matches_touch {gs : List (List Record)} {c : BlockCache} (hc : c.Matches p gs)
    (offset : UInt64) : (c.touch offset).Matches p gs := hc

/-! ## Blocks -/

/-- The calls that read a table file. -/
def readCalls (name : FileName) (c : IoCall) : Prop := onPath name c ∧ (c.op = .openRead ∨ c.op = .read)

/-- Reading a block comes to checking the bytes at its place. -/
theorem does_readBlockFromDisk {name : FileName} {e : IndexEntry} {block : Bytes}
    {Q : Bytes → σ → Disk → Prop} {E : Stop → σ → Disk → Prop} (hd : d.files[name]? = some f)
    (hread : f.readAt e.blockOffset.toNat e.blockLen.toNat = .ok block)
    (hok : ∀ records, checkBlock e block = .ok records → Q records a d)
    (herr : ∀ stop, checkBlock e block = .error stop → E stop a d)
    (hE : ∀ e, env.Faults (readCalls name) e → E e a d) :
    Does env (readBlockFromDisk name e) a d Q E := by
  unfold readBlockFromDisk
  refine Does.bind (does_readExactAt hd ?_ fun e he =>
    hE e (he.mono fun c hc => by rw [hc]; exact ⟨rfl, Or.inr rfl⟩))
  rw [hread]
  exact .ofStop hok herr

/-- The bytes of the block `g` in the file `f` pass its check as the records they are, or stop the
read with `S`. -/
def File.Checks (p : Prost) (f : File) (S : Stop → Prop) (pre : List (List Record)) (g : List Record) :
    Prop :=
  ∃ block, f.readAt (blockEntry p pre g).blockOffset.toNat (blockEntry p pre g).blockLen.toNat = .ok block ∧
    (∀ records, checkBlock (blockEntry p pre g) block = .ok records → records = blockBytes p g) ∧
    ∀ stop, checkBlock (blockEntry p pre g) block = .error stop → S stop

theorem File.checks_of_readAt {S : Stop → Prop} (hread : f.readAt (blockEntry p pre g).blockOffset.toNat
    (blockEntry p pre g).blockLen.toNat = .ok (sealedBlock p g)) : f.Checks p S pre g := by
  refine ⟨sealedBlock p g, hread, fun records hr => ?_, fun stop hs => ?_⟩
  · rw [checkBlock_sealedBlock] at hr; cases hr; rfl
  · rw [checkBlock_sealedBlock] at hs; cases hs

theorem File.Holds.checks (h : f.Holds p entries) (hg : groups p entries = pre ++ g :: post) :
    f.Checks p (fun _ => False) pre g := File.checks_of_readAt (h.readAt_block hg)

/-- A block from the cache or from the file `f'` on disk; `f` is the file as it was written. -/
theorem does_cachedBlock {t : SsTable} {f' : File} {S : Stop → Prop} {Q : Bytes → SsTable → Disk → Prop}
    {E : Stop → SsTable → Disk → Prop} (hd : d.files[t.path]? = some f') (h : f.Holds p entries)
    (hcheck : f'.Checks p S pre g) (ht : t.Serves p entries) (hg : groups p entries = pre ++ g :: post)
    (hQ : ∀ c : BlockCache, c.Matches p (groups p entries) →
      Q (blockBytes p g) { t with cache := c } d)
    (hS : ∀ e, S e → E e t d) (hE : ∀ e, env.Faults (readCalls t.path) e → E e t d) :
    Does env (SsTable.cachedBlock (blockEntry p pre g)) t d Q E := by
  unfold SsTable.cachedBlock
  refine .withSelf ?_
  cases hb : t.cache.blocks[(blockEntry p pre g).blockOffset]? with
  | some bytes =>
    have hget : t.cache.get (blockEntry p pre g).blockOffset =
        (some bytes, t.cache.touch (blockEntry p pre g).blockOffset) := by
      unfold BlockCache.get; rw [hb]
    rw [hget]
    refine Does.bind (.setSelf (.pure ?_))
    rw [ht.cache pre g post bytes hg hb]
    exact hQ _ (matches_touch ht.cache _)
  | none =>
    have hget : t.cache.get (blockEntry p pre g).blockOffset = (none, t.cache) := by
      unfold BlockCache.get; rw [hb]
    rw [hget]
    refine Does.bind (does_openRead hd ?_ fun e he =>
      hE e (he.mono fun c hc => by rw [hc]; exact ⟨rfl, Or.inl rfl⟩))
    obtain ⟨block, hread, hok, herr⟩ := hcheck
    refine Does.bind (does_readBlockFromDisk hd hread (fun records hr => ?_) (fun stop hs => ?_) hE)
    · rw [hok records hr]
      exact Does.bind (.modifySelf (.pure (hQ _ (h.matches_insert hg ht.cache))))
    · exact hS stop (herr stop hs)

/-! ## Lookups and listings -/

/-- A lookup reads at most one block, and that block decides it. -/
theorem does_get_block {t : SsTable} {key : Bytes} {Q : Option Entry → SsTable → Disk → Prop}
    {E : Stop → SsTable → Disk → Prop} (hasc : Ascending entries)
    (hsize : (BloomFilter.new entries.length).bits.length < 2 ^ 32) (ht : t.Serves p entries)
    (hnone : entries.lookup key = none → Q none t d)
    (hblock : ∀ pre g post, groups p entries = pre ++ g :: post → entries.lookup key = g.lookup key →
      Does env (SsTable.cachedBlock (blockEntry p pre g) >>= fun records =>
        ofExcept (findInBlock p records key)) t d Q E) :
    Does env (SsTable.get p key) t d Q E := by
  unfold SsTable.get
  refine .withSelf ?_
  by_cases hnil : t.index = []
  · have hempty : entries = [] := by
      rw [ht.index, tableIndex, ← List.length_eq_zero_iff, length_indexFrom] at hnil
      exact groups_eq_nil.1 (List.length_eq_zero_iff.1 hnil)
    rw [if_pos hnil]
    exact .pure (hnone (by rw [hempty]; rfl))
  · rw [if_neg hnil]
    by_cases hout : t.outOfRange key = true
    · rw [if_pos hout]
      exact .pure (hnone (outOfRange_lookup hasc ht.minKey ht.maxKey hout))
    · rw [if_neg hout]
      obtain ⟨b, hb, hfalse⟩ := passesBloom_lookup key ht.bloom hsize
      refine Does.bind (.ofStop (fun r hr => ?_) fun e he => by rw [hb] at he; cases he)
      rw [hb] at hr
      cases hr
      cases b with
      | false => exact .pure (hnone (hfalse rfl))
      | true =>
        rw [if_neg (by simp)]
        rcases locate_spec key (blocks_groups (p := p) hasc) ht.index with
          ⟨hl, hlook⟩ | ⟨pre, g, post, hg, hl, hlook⟩
        · rw [flatten_groups] at hlook
          rw [hl]
          exact .pure (hnone hlook)
        · rw [flatten_groups] at hlook
          rw [hl]
          exact hblock pre g post hg hlook

/-- **Point lookup** in a file whose blocks each check or stop with `S`. -/
theorem does_get_checks (hp : p.Lawful) {t : SsTable} {key : Bytes} {f' : File} {S : Stop → Prop}
    {Q : Option Entry → SsTable → Disk → Prop} {E : Stop → SsTable → Disk → Prop}
    (hd : d.files[t.path]? = some f') (h : f.Holds p entries) (ht : t.Serves p entries)
    (hcheck : ∀ pre g post, groups p entries = pre ++ g :: post → f'.Checks p S pre g)
    (hQ : ∀ c : BlockCache, c.Matches p (groups p entries) →
      Q (entries.lookup key) { t with cache := c } d)
    (hS : ∀ e, S e → E e t d)
    (hE : ∀ e, env.Faults (readCalls t.path) e → E e t d) :
    Does env (SsTable.get p key) t d Q E := by
  have hsame : Q (entries.lookup key) t d := hQ t.cache ht.cache
  refine does_get_block h.ascending h.fits.bloom ht (fun hnone => ?_) fun pre g post hg hlook => ?_
  · rwa [hnone] at hsame
  · refine Does.bind (does_cachedBlock hd h (hcheck pre g post hg) ht hg (fun c hc => ?_) hS hE)
    have hmem : g ∈ groups p entries := by rw [hg]; simp
    have hfind := findInBlock_block hp (h.recordFits hmem)
      ((blocks_groups h.ascending).ascending_of_mem hmem) key
    refine Does.ofExcept (fun r hr => ?_) fun e he => by rw [hfind] at he; cases he
    rw [hfind] at hr
    cases hr
    rw [← hlook]
    exact hQ c hc

/-- **Point lookup.** A table answers from its entries. -/
theorem does_get (hp : p.Lawful) {t : SsTable} {key : Bytes} {Q : Option Entry → SsTable → Disk → Prop}
    {E : Stop → SsTable → Disk → Prop} (hd : d.files[t.path]? = some f) (h : f.Holds p entries)
    (ht : t.Serves p entries)
    (hQ : ∀ c : BlockCache, c.Matches p (groups p entries) →
      Q (entries.lookup key) { t with cache := c } d)
    (hE : ∀ e, env.Faults (readCalls t.path) e → ∀ c : BlockCache, c.Matches p (groups p entries) →
      E e { t with cache := c } d) :
    Does env (SsTable.get p key) t d Q E :=
  does_get_checks hp hd h ht (fun _ _ _ hg => h.checks hg) hQ (fun _ hfalse => hfalse.elim)
    fun e he => hE e he t.cache ht.cache

theorem indexFrom_cons (gs : List (List Record)) :
    indexFrom p (dataRegion p pre).length (g :: gs) =
      blockEntry p pre g :: indexFrom p (dataRegion p (pre ++ [g])).length gs := by
  rw [dataRegion_concat, List.length_append]
  rfl

/-- One round of the listing, over a block of the file `f'` on disk. -/
theorem does_readBlocks_cons (hp : p.Lawful) {name : FileName} {f' : File} {S : Stop → Prop}
    {gs : List (List Record)} {out : List Record} {Q : List Record → σ → Disk → Prop}
    {E : Stop → σ → Disk → Prop} (hd : d.files[name]? = some f') (h : f.Holds p entries)
    (hcheck : f'.Checks p S pre g) (hg : groups p entries = pre ++ g :: post)
    (hrest : Does env (readBlocks p name (indexFrom p (dataRegion p (pre ++ [g])).length gs) (out ++ g))
      a d Q E)
    (hS : ∀ e, S e → E e a d) (hE : ∀ e, env.Faults (readCalls name) e → E e a d) :
    Does env (readBlocks p name (indexFrom p (dataRegion p pre).length (g :: gs)) out) a d Q E := by
  have hmem : g ∈ groups p entries := by rw [hg]; simp
  rw [indexFrom_cons]
  unfold readBlocks
  obtain ⟨block, hread, hok, herr⟩ := hcheck
  refine Does.bind (does_readBlockFromDisk hd hread (fun records hr => ?_)
    (fun stop hs => hS stop (herr stop hs)) hE)
  rw [hok records hr]
  have hdec := decodeRecords_block hp (h.recordFits hmem) out
  refine Does.bind (.ofExcept (fun r hr => ?_) fun e he => by rw [hdec] at he; cases he)
  rw [hdec] at hr
  cases hr
  exact hrest

theorem does_readBlocks (hp : p.Lawful) {name : FileName} {Q : List Record → σ → Disk → Prop}
    {E : Stop → σ → Disk → Prop} (hd : d.files[name]? = some f) (h : f.Holds p entries)
    (pre gs : List (List Record)) (hpre : groups p entries = pre ++ gs) (out : List Record)
    (hQ : Q (out ++ gs.flatten) a d) (hE : ∀ e, env.Faults (readCalls name) e → E e a d) :
    Does env (readBlocks p name (indexFrom p (dataRegion p pre).length gs) out) a d Q E := by
  induction gs generalizing pre out with
  | nil =>
    rw [List.flatten_nil, List.append_nil] at hQ
    exact .pure hQ
  | cons g gs ih =>
    refine does_readBlocks_cons hp hd h (h.checks hpre) hpre ?_ (fun _ hfalse => hfalse.elim) hE
    refine ih (pre ++ [g]) (by rw [hpre]; simp) (out ++ g) ?_
    rwa [List.flatten_cons, ← List.append_assoc] at hQ

/-- **Full listing.** -/
theorem does_readAllEntries (hp : p.Lawful) {t : SsTable} {Q : List Record → σ → Disk → Prop}
    {E : Stop → σ → Disk → Prop} (hd : d.files[t.path]? = some f) (h : f.Holds p entries)
    (ht : t.index = tableIndex p entries) (hQ : Q entries a d)
    (hE : ∀ e, env.Faults (readCalls t.path) e → E e a d) :
    Does env (SsTable.readAllEntries p t) a d Q E := by
  unfold SsTable.readAllEntries
  by_cases hnil : t.index = []
  · have hempty : entries = [] := by
      rw [ht, tableIndex, ← List.length_eq_zero_iff, length_indexFrom] at hnil
      exact groups_eq_nil.1 (List.length_eq_zero_iff.1 hnil)
    rw [if_pos hnil]
    rw [hempty] at hQ
    exact .pure hQ
  · rw [if_neg hnil, ht]
    refine Does.bind (does_openRead hd ?_ fun e he =>
      hE e (he.mono fun c hc => by rw [hc]; exact ⟨rfl, Or.inl rfl⟩))
    refine does_readBlocks hp hd h [] _ rfl [] ?_ hE
    rw [List.nil_append, ← groups, flatten_groups]
    exact hQ

end Blocks

end FerrumDB
