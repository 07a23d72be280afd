import FerrumDB.SsTable.Open
import FerrumDB.Panics
import FerrumDB.Wire

/-!
# Reading a malformed table

Neither the footer nor the index nor the filter of a table is checksummed, so a file can put any value
into their fields. Three of them make a reader panic: an index length above the largest allocation
(`FarIndex`), a filter of no bits that is to be probed, and the length of a block that has no room for
its checksum, once a lookup or the listing comes to that block (`SsTable.Reaches`). On every other file
all readers return normally (`reads_safely_iff`).
-/

namespace FerrumDB

open ByteCodec

variable {σ : Type} {p : Prost} {buf : Bytes} {fuel fuel' n n' : ℕ}

/-! ## The record loops -/

theorem readU32_advances {v : UInt32} (h : readU32 buf n = .ok (v, n')) : n' = n + 4 ∧ n' ≤ buf.length := by
  obtain ⟨⟨bs, m⟩, hread, h⟩ := bind_eq_ok h
  cases h
  exact takeBytes_advances hread

theorem readU8_advances {b : UInt8} (h : readU8 buf n = .ok (b, n')) : n' = n + 1 ∧ n' ≤ buf.length := by
  obtain ⟨⟨bs, m⟩, hread, h⟩ := bind_eq_ok h
  cases h
  exact takeBytes_advances hread

theorem readBytes_advances {len : ℕ} {bs : Bytes} (h : readBytes buf len n = .ok (bs, n')) :
    n' = n + len ∧ n' ≤ buf.length :=
  takeBytes_advances h

/-- A record takes at least nine bytes. -/
theorem decodeRecord_advances {r : Record} (h : decodeRecord p buf n = .ok (r, n')) :
    n + 9 ≤ n' ∧ n' ≤ buf.length := by
  obtain ⟨⟨keyLen, n₁⟩, hlen, h⟩ := bind_eq_ok h
  obtain ⟨⟨key, n₂⟩, hkey, h⟩ := bind_eq_ok h
  obtain ⟨⟨recType, n₃⟩, htype, h⟩ := bind_eq_ok h
  obtain ⟨⟨valLen, n₄⟩, hval, h⟩ := bind_eq_ok h
  obtain ⟨h₁, -⟩ := readU32_advances hlen
  obtain ⟨h₂, -⟩ := readBytes_advances hkey
  obtain ⟨h₃, -⟩ := readU8_advances htype
  obtain ⟨h₄, hle⟩ := readU32_advances hval
  dsimp only at h
  split at h
  · obtain ⟨⟨valBytes, n₅⟩, hbytes, h⟩ := bind_eq_ok h
    obtain ⟨entry, -, h⟩ := bind_eq_ok h
    obtain ⟨h₅, hle'⟩ := readBytes_advances hbytes
    cases h
    exact ⟨by omega, hle'⟩
  · cases h
    exact ⟨by omega, hle⟩

/-- The loop over the records of a block ends within the block. -/
theorem decodeRecords_fuel {out : List Record} (h : buf.length ≤ n + fuel) (h' : buf.length ≤ n + fuel') :
    decodeRecords p buf fuel n out = decodeRecords p buf fuel' n out := by
  induction fuel generalizing n fuel' out with
  | zero =>
    cases fuel' with
    | zero => rfl
    | succ fuel' =>
      unfold decodeRecords
      rw [if_neg (by omega)]
  | succ fuel ih =>
    cases fuel' with
    | zero =>
      unfold decodeRecords
      rw [if_neg (by omega)]
    | succ fuel' =>
      unfold decodeRecords
      split
      · cases hrecord : decodeRecord p buf n with
        | error e => rfl
        | ok r =>
          obtain ⟨r, n'⟩ := r
          obtain ⟨hstep, -⟩ := decodeRecord_advances hrecord
          exact ih (by omega) (by omega)
      · rfl

/-- The records already there do not matter to the loop. -/
theorem decodeRecords_out (out : List Record) :
    decodeRecords p buf fuel n out = (decodeRecords p buf fuel n []).map (out ++ ·) := by
  induction fuel generalizing n out with
  | zero => simp [decodeRecords, Except.map]
  | succ fuel ih =>
    unfold decodeRecords
    split
    · cases hrecord : decodeRecord p buf n with
      | error e => rfl
      | ok r =>
        obtain ⟨r, n'⟩ := r
        show decodeRecords p buf fuel n' (out ++ [r]) = Except.map _ (decodeRecords p buf fuel n' ([] ++ [r]))
        rw [ih (out ++ [r]), ih ([] ++ [r])]
        cases decodeRecords p buf fuel n' [] <;> simp [Except.map]
    · simp [Except.map]

/-- The scan of a block ends within the block. -/
theorem findLoop_fuel {key : Bytes} (h : buf.length ≤ n + fuel) (h' : buf.length ≤ n + fuel') :
    findLoop p buf key fuel n = findLoop p buf key fuel' n := by
  induction fuel generalizing n fuel' with
  | zero =>
    cases fuel' with
    | zero => rfl
    | succ fuel' =>
      unfold findLoop
      rw [if_neg (by omega)]
  | succ fuel ih =>
    cases fuel' with
    | zero =>
      unfold findLoop
      rw [if_neg (by omega)]
    | succ fuel' =>
      unfold findLoop
      split
      · refine bind_congr_ok ?_
        rintro ⟨keyLen, n₁⟩ h₁
        refine bind_congr_ok ?_
        rintro ⟨recKey, n₂⟩ h₂
        refine bind_congr_ok ?_
        rintro ⟨recType, n₃⟩ h₃
        refine bind_congr_ok ?_
        rintro ⟨valLen, n₄⟩ h₄
        refine bind_congr_ok ?_
        rintro ⟨valBytes, n₅⟩ h₅
        obtain ⟨hstep₁, -⟩ := readU32_advances h₁
        obtain ⟨hstep₂, -⟩ := readBytes_advances h₂
        obtain ⟨hstep₃, -⟩ := readU8_advances h₃
        obtain ⟨hstep₄, -⟩ := readU32_advances h₄
        obtain ⟨hstep₅, -⟩ := readBytes_advances h₅
        dsimp only
        cases compare recKey key with
        | eq => rfl
        | gt => rfl
        | lt => exact ih (by omega) (by omega)
      · rfl

/-! ## What a file can hold -/

/-- The last bytes of a file, as a footer. -/
def footerOf (bytes : Bytes) : Footer := Footer.parse (bytes.drop (bytes.length - FOOTER_LEN))

/-- The footer is good but for an index length above the largest allocation. -/
structure FarIndex (bytes : Bytes) : Prop where
  footer : FOOTER_LEN ≤ bytes.length
  magic : (footerOf bytes).magic = MAGIC
  version : (footerOf bytes).version = VERSION
  offset : (footerOf bytes).indexOffset.toNat ≤ maxFileLen
  far : maxFileLen < (footerOf bytes).indexLen.toNat

/-- There are `len` bytes at `off`, or `len` is zero and a seek accepts `off`. -/
def ReadableAt (bytes : Bytes) (off len : ℕ) : Prop := off + len ≤ bytes.length ∨ len = 0 ∧ off ≤ maxFileLen

instance (bytes : Bytes) (off len : ℕ) : Decidable (ReadableAt bytes off len) :=
  inferInstanceAs (Decidable (_ ∨ _))

/-- The block of `e` can be read and has no room for its checksum. -/
def ShortBlock (bytes : Bytes) (e : IndexEntry) : Prop :=
  ReadableAt bytes e.blockOffset.toNat e.blockLen.toNat ∧ e.blockLen.toNat < 4

instance (bytes : Bytes) (e : IndexEntry) : Decidable (ShortBlock bytes e) :=
  inferInstanceAs (Decidable (_ ∧ _))

/-- The block of `e` is read, and its records are decoded. -/
def File.Decodes (p : Prost) (f : File) (e : IndexEntry) : Prop :=
  ∃ block records es, f.readAt e.blockOffset.toNat e.blockLen.toNat = .ok block ∧
    checkBlock e block = .ok records ∧ decodeRecords p records records.length 0 [] = .ok es

/-- A lookup comes to the block of `e`, or the listing does, past the blocks before it. -/
def SsTable.Reaches (p : Prost) (f : File) (t : SsTable) (e : IndexEntry) : Prop :=
  (∃ key, t.outOfRange key = false ∧ t.passesBloom key = .ok true ∧ t.locate key = some e) ∨
    ∃ pre post, t.index = pre ++ e :: post ∧ ∀ e' ∈ pre, f.Decodes p e'

/-- A filter without bits is not probed, and no reader comes to a block without its checksum. -/
structure SsTable.Sound (p : Prost) (f : File) (t : SsTable) : Prop where
  bloom : ∀ b ∈ t.bloom, b.bits = [] → b.k = 0
  block : ∀ e, t.Reaches p f e → ¬ ShortBlock f.bytes e

/-! ## Opening -/

variable {name : FileName} {f : File} {t : SsTable} {a : σ} {d : Disk} {env : Env} {e : IndexEntry}

theorem parse_panics_iff : SsTable.parse name f = .error .panic ↔ FarIndex f.bytes := by
  unfold SsTable.parse
  constructor
  · intro h
    split at h
    · cases h
    · next hlen =>
      dsimp only at h
      split_ifs at h with hmagic hversion hfar
      · cases h
      · cases h
      · exact ⟨by omega, not_not.1 hmagic, not_not.1 hversion, hfar.1, hfar.2⟩
      · split at h
        · cases h
        · split at h
          · cases h
          · split at h <;> cases h
  · intro h
    have hlen := h.footer
    rw [if_neg (by omega)]
    exact (if_neg (not_not.2 h.magic)).trans ((if_neg (not_not.2 h.version)).trans (if_pos ⟨h.offset, h.far⟩))

theorem readRangeAndBloom_bits {min max : Option Bytes} {bloom : Option BloomFilter}
    (h : readRangeAndBloom buf n = .ok (min, max, bloom)) : ∀ b ∈ bloom, b.bits.length < 2 ^ 32 := by
  unfold readRangeAndBloom at h
  split at h
  · obtain ⟨⟨minLen, n₁⟩, -, h⟩ := bind_eq_ok h
    obtain ⟨⟨min', n₂⟩, -, h⟩ := bind_eq_ok h
    obtain ⟨⟨maxLen, n₃⟩, -, h⟩ := bind_eq_ok h
    obtain ⟨⟨max', n₄⟩, -, h⟩ := bind_eq_ok h
    obtain ⟨⟨k, n₅⟩, -, h⟩ := bind_eq_ok h
    obtain ⟨⟨bitsLen, n₆⟩, -, h⟩ := bind_eq_ok h
    obtain ⟨⟨bits, n₇⟩, hbits, h⟩ := bind_eq_ok h
    cases h
    intro b hb
    cases hb
    have hlen : bits.length ≤ bitsLen.toNat := by
      unfold readBytes takeBytes at hbits
      split at hbits
      · cases hbits
      · cases hbits
        exact List.length_take_le ..
    exact Nat.lt_of_le_of_lt hlen bitsLen.toNat_lt
  · cases h
    nofun

/-- What the parts of an opened table come from. -/
theorem of_parse (h : SsTable.parse name f = .ok t) :
    t.path = name ∧ t.cache = BlockCache.new BLOCK_CACHE_CAP ∧ ∀ b ∈ t.bloom, b.bits.length < 2 ^ 32 := by
  unfold SsTable.parse at h
  split at h
  · cases h
  · dsimp only at h
    split_ifs at h
    split at h
    · cases h
    · split at h
      · cases h
      · split at h
        · cases h
        · next hrange =>
          cases h
          exact ⟨rfl, rfl, readRangeAndBloom_bits hrange⟩

/-- A handle that some call of `SsTable.open` gave. -/
def Opened (name : FileName) (d : Disk) (t : SsTable) : Prop :=
  ∃ env n x, SsTable.open name (⟨(), d, env, n⟩ : Mem Unit) = .ok t x

theorem opened_iff (hd : d.files[name]? = some f) : Opened name d t ↔ SsTable.parse name f = .ok t := by
  constructor
  · rintro ⟨env, n, x, hrun⟩
    have hopen : Does env (SsTable.open name) () d (fun t _ _ => SsTable.parse name f = .ok t)
        fun _ _ _ => True := by
      refine does_open hd ?_ fun _ _ => trivial
      cases SsTable.parse name f with
      | ok t => rfl
      | error e => trivial
    exact hopen.of_ok hrun
  · intro h
    have hopen : Returns (SsTable.open name) () d fun t' _ _ => t' = t :=
      does_open hd (by rw [h]) fun _ he => absurd he Env.not_faults_quiet
    obtain ⟨t', x, hrun, rfl⟩ := hopen.run 0
    exact ⟨Env.quiet, 0, x, hrun⟩

theorem neverPanics_open (hd : d.files[name]? = some f) (h : ¬ FarIndex f.bytes) :
    NeverPanics (SsTable.open name) a d := by
  intro env
  refine does_open hd ?_ fun e he => ?_
  · cases hparse : SsTable.parse name f with
    | ok t => trivial
    | error e =>
      rintro rfl
      exact h (parse_panics_iff.1 hparse)
  · exact not_faults_panic he

/-! ## Blocks -/

theorem readAt_eq_ok_iff {off len : ℕ} {bs : Bytes} :
    f.readAt off len = .ok bs ↔ ReadableAt f.bytes off len ∧ bs = (f.bytes.drop off).take len := by
  have hlen := f.length_le
  unfold File.readAt ReadableAt
  split_ifs with hbig hshort
  · exact iff_of_false nofun fun h => by omega
  · exact iff_of_false nofun fun h => by omega
  · rw [Except.ok.injEq]
    exact ⟨fun h => ⟨by omega, h.symm⟩, fun h => h.2.symm⟩

theorem ReadableAt.length_slice {off len : ℕ} {bytes : Bytes} (h : ReadableAt bytes off len) :
    ((bytes.drop off).take len).length = len := by
  rw [List.length_take, List.length_drop]
  unfold ReadableAt at h
  omega

/-- Reading a block that has room for its checksum. -/
theorem does_readBlock_calm (hd : d.files[name]? = some f) (hshort : ¬ ShortBlock f.bytes e) :
    Does env (readBlockFromDisk name e) a d
      (fun records a' d' => (a' = a ∧ d' = d) ∧ ∃ block,
        f.readAt e.blockOffset.toNat e.blockLen.toNat = .ok block ∧ checkBlock e block = .ok records)
      fun stop a' d' => stop ≠ .panic ∧ a' = a ∧ d' = d := by
  unfold readBlockFromDisk
  refine Does.bind (does_readExactAt hd ?_ fun stop hs => ⟨not_faults_panic hs, rfl, rfl⟩)
  cases hread : f.readAt e.blockOffset.toNat e.blockLen.toNat with
  | error msg => exact ⟨nofun, rfl, rfl⟩
  | ok block =>
    obtain ⟨hin, rfl⟩ := readAt_eq_ok_iff.1 hread
    have hlen := hin.length_slice
    refine .ofStop (fun records hr => ⟨⟨rfl, rfl⟩, _, rfl, hr⟩) fun stop hs => ⟨?_, rfl, rfl⟩
    rintro rfl
    unfold checkBlock at hs
    split at hs
    · next hfour => exact hshort ⟨hin, by omega⟩
    · dsimp only at hs
      split at hs <;> cases hs

/-- Reading a block that has no room for its checksum. -/
theorem panics_readBlock (hd : d.files[name]? = some f) (hshort : ShortBlock f.bytes e) :
    Does Env.quiet (readBlockFromDisk name e) a d (fun _ _ _ => False) fun stop _ _ => stop = .panic := by
  obtain ⟨hin, hfour⟩ := hshort
  have hread : f.readAt e.blockOffset.toNat e.blockLen.toNat =
      .ok ((f.bytes.drop e.blockOffset.toNat).take e.blockLen.toNat) := readAt_eq_ok_iff.2 ⟨hin, rfl⟩
  have hcheck : checkBlock e ((f.bytes.drop e.blockOffset.toNat).take e.blockLen.toNat) = .error .panic := by
    unfold checkBlock
    exact if_pos (by rw [hin.length_slice]; exact hfour)
  refine does_readBlockFromDisk hd hread (fun records hr => ?_) (fun stop hs => ?_)
    fun _ he => absurd he Env.not_faults_quiet
  · rw [hcheck] at hr
    cases hr
  · rw [hcheck] at hs
    cases hs
    rfl

/-! ## Lookups -/

/-- Lookups change the cache of a handle only. -/
def SsTable.After (t t' : SsTable) : Prop := ∃ cache, t' = { t with cache }

theorem SsTable.After.refl (t : SsTable) : t.After t := ⟨t.cache, rfl⟩

theorem SsTable.After.sound {t' : SsTable} (h : t.After t') (hs : t.Sound p f) : t'.Sound p f := by
  obtain ⟨cache, rfl⟩ := h
  exact ⟨hs.bloom, hs.block⟩

theorem SsTable.After.trans {t' t'' : SsTable} (h : t.After t') (h' : t'.After t'') : t.After t'' := by
  obtain ⟨cache, rfl⟩ := h
  obtain ⟨cache', rfl⟩ := h'
  exact ⟨cache', rfl⟩

theorem passesBloom_ne_panic (hs : t.Sound p f) (key : Bytes) : t.passesBloom key ≠ .error .panic := by
  unfold SsTable.passesBloom
  split
  · next b hb =>
    unfold BloomFilter.maybeContains
    rw [if_neg fun h => h.2 (hs.bloom b hb h.1)]
    nofun
  · nofun

theorem does_cachedBlock_calm (hd : d.files[t.path]? = some f) (hshort : ¬ ShortBlock f.bytes e) :
    Does env (SsTable.cachedBlock e) t d (fun _ t' d' => t.After t' ∧ d' = d)
      fun stop t' d' => stop ≠ .panic ∧ t.After t' ∧ d' = d := by
  unfold SsTable.cachedBlock
  refine .withSelf ?_
  split
  · exact Does.bind (.setSelf (.pure ⟨⟨_, rfl⟩, rfl⟩))
  · refine Does.bind (does_openRead hd ?_ fun stop hs => ⟨not_faults_panic hs, .refl t, rfl⟩)
    refine Does.bind ((does_readBlock_calm hd hshort).mono ?_ fun stop t' d' hs => ?_)
    · rintro records t' d' ⟨⟨rfl, rfl⟩, -⟩
      exact Does.bind (.modifySelf (.pure ⟨⟨_, rfl⟩, rfl⟩))
    · obtain ⟨hne, rfl, rfl⟩ := hs
      exact ⟨hne, .refl t', rfl⟩

theorem does_get_calm (hd : d.files[t.path]? = some f) (hs : t.Sound p f) (key : Bytes) :
    Does env (SsTable.get p key) t d (fun _ t' d' => t.After t' ∧ d' = d)
      fun stop t' d' => stop ≠ .panic ∧ t.After t' ∧ d' = d := by
  unfold SsTable.get
  refine .withSelf ?_
  by_cases hnil : t.index = []
  · rw [if_pos hnil]
    exact .pure ⟨.refl t, rfl⟩
  rw [if_neg hnil]
  by_cases hout : t.outOfRange key = true
  · rw [if_pos hout]
    exact .pure ⟨.refl t, rfl⟩
  rw [if_neg hout]
  refine Does.bind (.ofStop (fun b hb => ?_) fun stop he => ⟨?_, .refl t, rfl⟩)
  · cases b with
    | false => exact .pure ⟨.refl t, rfl⟩
    | true =>
      rw [if_neg (by simp)]
      cases hloc : t.locate key with
      | none => exact .pure ⟨.refl t, rfl⟩
      | some e =>
        have hshort := hs.block e (Or.inl ⟨key, Bool.not_eq_true _ ▸ hout, hb, hloc⟩)
        refine Does.bind ((does_cachedBlock_calm hd hshort).mono (fun records t' d' h => ?_) fun _ _ _ h => h)
        exact .ofExcept (fun _ _ => h) fun _ _ => ⟨nofun, h⟩
  · rintro rfl
    exact passesBloom_ne_panic hs key he

/-- Look up the keys of `ks`, whatever becomes of each lookup. -/
def lookups (p : Prost) (ks : List Bytes) : Prog SsTable Unit := forM ks fun k => ignoreErr (SsTable.get p k)

theorem neverPanics_get (hd : d.files[t.path]? = some f) (hs : t.Sound p f) (ks : List Bytes) (key : Bytes) :
    NeverPanics (lookups p ks >>= fun _ => SsTable.get p key) t d := by
  have hstep : ∀ k (t' : SsTable) d', t.After t' ∧ d' = d →
      ∀ env, Does env (SsTable.get p k) t' d' (fun _ t'' d'' => t.After t'' ∧ d'' = d)
        fun stop t'' d'' => stop ≠ .panic ∧ t.After t'' ∧ d'' = d := by
    rintro k t' d' ⟨hafter, rfl⟩ env
    have hpath : t'.path = t.path := by
      obtain ⟨cache, rfl⟩ := hafter
      rfl
    rw [← hpath] at hd
    exact (does_get_calm hd (hafter.sound hs) k).mono (fun _ _ _ h => ⟨hafter.trans h.1, h.2⟩)
      fun _ _ _ h => ⟨h.1, hafter.trans h.2.1, h.2.2⟩
  have hloop : Calm (lookups p ks) t d fun _ t' d' => t.After t' ∧ d' = d :=
    Calm.loop (fun t' d' => t.After t' ∧ d' = d) ks
      (fun k _ t' d' h => Calm.ignoreErr (hstep k t' d' h) fun _ _ h => h) ⟨.refl t, rfl⟩
  exact Calm.bind (hloop.mono fun _ t' d' h env => (hstep key t' d' h env).mono (fun _ _ _ _ => trivial)
    fun _ _ _ h => h.1)

theorem locate_ne_nil {key : Bytes} (h : t.locate key = some e) : t.index ≠ [] := by
  intro hnil
  unfold SsTable.locate at h
  rw [hnil] at h
  split at h
  · cases h
  · cases h
  · cases h

theorem panics_get (hd : d.files[t.path]? = some f) (hcache : t.cache = BlockCache.new BLOCK_CACHE_CAP)
    {key : Bytes} (hout : t.outOfRange key = false) (hbloom : t.passesBloom key = .ok true)
    (hloc : t.locate key = some e) (hshort : ShortBlock f.bytes e) :
    Does Env.quiet (SsTable.get p key) t d (fun _ _ _ => False) fun stop _ _ => stop = .panic := by
  have hmiss : t.cache.get e.blockOffset = (none, t.cache) := by
    rw [hcache]
    simp [BlockCache.get, BlockCache.new]
  have hblock : Does Env.quiet (SsTable.cachedBlock e) t d (fun _ _ _ => False) fun stop _ _ => stop = .panic := by
    unfold SsTable.cachedBlock
    refine .withSelf ?_
    rw [hmiss]
    refine Does.bind (does_openRead hd ?_ fun _ he => absurd he Env.not_faults_quiet)
    exact (panics_readBlock hd hshort).seq fun _ _ _ hfalse => hfalse.elim
  unfold SsTable.get
  refine .withSelf ?_
  rw [if_neg (locate_ne_nil hloc), if_neg (by rw [hout]; simp)]
  refine Does.bind (.ofStop (fun b hb => ?_) fun stop he => by rw [hbloom] at he; cases he)
  rw [hbloom] at hb
  cases hb
  rw [if_neg (by simp), hloc]
  exact hblock.seq fun _ _ _ hfalse => hfalse.elim

/-! ## The listing -/

theorem neverPanics_readBlocks (hd : d.files[name]? = some f) (done index : List IndexEntry)
    (hdone : ∀ e ∈ done, f.Decodes p e)
    (hshort : ∀ pre e post, done ++ index = pre ++ e :: post → (∀ e' ∈ pre, f.Decodes p e') →
      ¬ ShortBlock f.bytes e) (out : List Record) :
    NeverPanics (readBlocks p name index out) a d := by
  induction index generalizing done out with
  | nil => exact .pure trivial
  | cons e index ih =>
    unfold readBlocks
    have hblock : Calm (readBlockFromDisk name e) a d fun records a' d' => (a' = a ∧ d' = d) ∧ ∃ block,
        f.readAt e.blockOffset.toNat e.blockLen.toNat = .ok block ∧ checkBlock e block = .ok records :=
      fun env => (does_readBlock_calm hd (hshort done e index rfl hdone)).mono (fun _ _ _ h => h)
        fun _ _ _ h => h.1
    refine .bind (hblock.mono ?_)
    rintro records a' d' ⟨⟨rfl, rfl⟩, block, hread, hcheck⟩
    refine .bind (.ofExcept fun out' hout => ?_)
    refine ih (done ++ [e]) (fun e' he' => ?_) (by rwa [List.append_assoc]) out'
    rcases List.mem_append.1 he' with he' | he'
    · exact hdone e' he'
    · rw [List.mem_singleton.1 he']
      rw [decodeRecords_out] at hout
      cases hdec : decodeRecords p records records.length 0 [] with
      | error e => rw [hdec] at hout; cases hout
      | ok es => exact ⟨block, records, es, hread, hcheck, hdec⟩

theorem neverPanics_readAllEntries (hd : d.files[t.path]? = some f) (hs : t.Sound p f) :
    NeverPanics (t.readAllEntries p) a d := by
  unfold SsTable.readAllEntries
  split
  · exact .pure trivial
  · refine .bind (calm_openRead ?_)
    exact neverPanics_readBlocks hd [] t.index nofun
      (fun pre e post hsplit hpre => hs.block e (Or.inr ⟨pre, post, hsplit, hpre⟩)) []

theorem panics_readBlocks (hd : d.files[name]? = some f) (pre post : List IndexEntry)
    (hpre : ∀ e' ∈ pre, f.Decodes p e') (hshort : ShortBlock f.bytes e) (out : List Record) :
    Does Env.quiet (readBlocks p name (pre ++ e :: post) out) a d (fun _ _ _ => False)
      fun stop _ _ => stop = .panic := by
  induction pre generalizing out with
  | nil => exact (panics_readBlock hd hshort).seq fun _ _ _ hfalse => hfalse.elim
  | cons e' pre ih =>
    obtain ⟨block, records, es, hread, hcheck, hdec⟩ := hpre e' (List.mem_cons_self ..)
    rw [List.cons_append]
    unfold readBlocks
    refine Does.bind (does_readBlockFromDisk hd hread (fun records' hr => ?_) (fun stop hs => ?_)
      fun _ he => absurd he Env.not_faults_quiet)
    · rw [hcheck] at hr
      cases hr
      have hout : decodeRecords p records records.length 0 out = .ok (out ++ es) := by
        rw [decodeRecords_out, hdec]
        rfl
      rw [hout]
      exact Does.bind (.pure (ih (fun e'' he'' => hpre e'' (List.mem_cons_of_mem _ he'')) _))
    · rw [hcheck] at hs
      cases hs

theorem panics_readAllEntries (hd : d.files[t.path]? = some f) {pre post : List IndexEntry}
    (hindex : t.index = pre ++ e :: post) (hpre : ∀ e' ∈ pre, f.Decodes p e') (hshort : ShortBlock f.bytes e) :
    Does Env.quiet (t.readAllEntries p) a d (fun _ _ _ => False) fun stop _ _ => stop = .panic := by
  unfold SsTable.readAllEntries
  rw [if_neg (by rw [hindex]; simp), hindex]
  refine Does.bind (does_openRead hd ?_ fun _ he => absurd he Env.not_faults_quiet)
  exact panics_readBlocks hd pre post hpre hshort []

/-! ## All readers -/

/-- What is asked of the readers on a file: no call panics in any environment, the probes of a filter are
within its bits, and the loops over the records of a block end within the block. -/
structure ReadsSafely (p : Prost) (name : FileName) (f : File) : Prop where
  opens : ∀ d, d.files[name]? = some f → NeverPanics (SsTable.open name) () d
  get : ∀ d t, d.files[name]? = some f → Opened name d t → ∀ ks key,
    NeverPanics (lookups p ks >>= fun _ => SsTable.get p key) t d
  mightContain : ∀ d t, d.files[name]? = some f → Opened name d t → ∀ key,
    t.mightContain key ≠ .error .panic
  readAllEntries : ∀ d t, d.files[name]? = some f → Opened name d t → NeverPanics (t.readAllEntries p) () d
  probes : ∀ d t, d.files[name]? = some f → Opened name d t → ∀ b ∈ t.bloom, b.bits ≠ [] →
    ∀ key, ∀ bit ∈ b.positions key, bit / 8 < b.bits.length
  terminates : ∀ records key fuel, records.length ≤ fuel →
    decodeRecords p records fuel 0 [] = decodeRecords p records records.length 0 [] ∧
      findLoop p records key fuel 0 = findInBlock p records key

theorem ReadsSafely.sound (h : ReadsSafely p name f) :
    ¬ FarIndex f.bytes ∧ ∀ t, SsTable.parse name f = .ok t → t.Sound p f := by
  have hd : (Disk.empty.put name f).files[name]? = some f := by simp
  refine ⟨fun hfar => ?_, fun t ht => ⟨fun b hb hbits => ?_, fun e hreach hshort => ?_⟩⟩
  · refine (h.opens _ hd).not_panics (does_open hd ?_ fun _ he => absurd he Env.not_faults_quiet)
    rw [parse_panics_iff.2 hfar]
  · by_contra hk
    refine h.mightContain _ t hd ((opened_iff hd).2 ht) [] ?_
    unfold SsTable.mightContain
    rw [hb]
    exact if_pos ⟨hbits, hk⟩
  · obtain ⟨hpath, hcache, -⟩ := of_parse ht
    have hopened := (opened_iff hd).2 ht
    have hdt : (Disk.empty.put name f).files[t.path]? = some f := by rw [hpath]; exact hd
    rcases hreach with ⟨key, hout, hbloom, hloc⟩ | ⟨pre, post, hindex, hpre⟩
    · exact (h.get _ t hd hopened [] key).not_panics (panics_get hdt hcache hout hbloom hloc hshort)
    · exact (h.readAllEntries _ t hd hopened).not_panics (panics_readAllEntries hdt hindex hpre hshort)

/-- **Malformed tables.** Whatever the bytes of the file, its readers return normally, if and only if the
footer gives no index length above the largest allocation, no filter without bits is probed, and no reader
comes to a block without room for its checksum. -/
theorem reads_safely_iff (p : Prost) (name : FileName) (f : File) : ReadsSafely p name f ↔
    ¬ FarIndex f.bytes ∧ ∀ t, SsTable.parse name f = .ok t → t.Sound p f := by
  refine ⟨ReadsSafely.sound, fun ⟨hfar, hsound⟩ => ?_⟩
  have hparsed : ∀ {d t}, d.files[name]? = some f → Opened name d t →
      d.files[t.path]? = some f ∧ t.Sound p f := by
    intro d t hd hopened
    have ht := (opened_iff hd).1 hopened
    exact ⟨by rw [(of_parse ht).1]; exact hd, hsound t ht⟩
  refine ⟨fun d hd => neverPanics_open hd hfar, fun d t hd ht ks key => ?_, fun d t hd ht key => ?_,
    fun d t hd ht => ?_, fun d t hd ht b hb hbits key bit hbit => ?_, fun records key fuel hfuel => ?_⟩
  · exact neverPanics_get (hparsed hd ht).1 (hparsed hd ht).2 ks key
  · unfold SsTable.mightContain
    split
    · next b hb =>
      unfold BloomFilter.maybeContains
      rw [if_neg fun h => h.2 ((hparsed hd ht).2.bloom b hb h.1)]
      nofun
    · nofun
  · exact neverPanics_readAllEntries (hparsed hd ht).1 (hparsed hd ht).2
  · have hlen := (of_parse ((opened_iff hd).1 ht)).2.2 b hb
    obtain ⟨i, -, rfl⟩ := List.mem_map.1 hbit
    have hlt := BloomFilter.position_lt ⟨hbits, by omega⟩ key i
    omega
  · exact ⟨decodeRecords_fuel (by omega) (by omega), findLoop_fuel (by omega) (by omega)⟩

/-- A footer alone, with the largest index length. -/
def farIndexFile : File :=
  .append .empty (u64Bytes 0 ++ u64Bytes 0xFFFFFFFFFFFFFFFF ++ u32Bytes 0 ++ MAGIC ++ u32Bytes VERSION)

/-- No index entries, and a filter of no bits with seven hash functions. -/
def noBitsFile : File :=
  .append .empty (indexRegion [] (some []) (some []) (some ⟨[], 7⟩) ++ footerBytes 0 16 0)

/-- One index entry, for a block of no bytes. -/
def noBlockFile : File :=
  .append .empty (indexRegion [⟨[], 0, 0⟩] none none none ++ footerBytes 0 16 1)

/-- One index entry, for a block of no bytes behind the end of the file. -/
def noBlockPastEnd : File :=
  .append .empty (indexRegion [⟨[], 200, 0⟩] none none none ++ footerBytes 0 16 1)

theorem malformed_tables_panic : ¬ ReadsSafely Prost.wire "sstable_1.sst" farIndexFile ∧
    ¬ ReadsSafely Prost.wire "sstable_1.sst" noBitsFile ∧
    ¬ ReadsSafely Prost.wire "sstable_1.sst" noBlockFile ∧
    ¬ ReadsSafely Prost.wire "sstable_1.sst" noBlockPastEnd := by
  refine ⟨fun h => ?_, fun h => ?_, fun h => ?_, fun h => ?_⟩
  · exact h.sound.1 ⟨by decide, by decide, by decide, by decide, by decide⟩
  · have hparse : SsTable.parse "sstable_1.sst" noBitsFile =
        .ok ⟨"sstable_1.sst", [], some [], some [], some ⟨[], 7⟩, BlockCache.new BLOCK_CACHE_CAP⟩ := rfl
    have hk : (7 : UInt32) = 0 := (h.sound.2 _ hparse).bloom _ rfl rfl
    cases hk
  · have hparse : SsTable.parse "sstable_1.sst" noBlockFile =
        .ok ⟨"sstable_1.sst", [⟨[], 0, 0⟩], none, none, none, BlockCache.new BLOCK_CACHE_CAP⟩ := rfl
    exact (h.sound.2 _ hparse).block ⟨[], 0, 0⟩ (Or.inr ⟨[], [], rfl, nofun⟩) (by decide)
  · have hparse : SsTable.parse "sstable_1.sst" noBlockPastEnd =
        .ok ⟨"sstable_1.sst", [⟨[], 200, 0⟩], none, none, none, BlockCache.new BLOCK_CACHE_CAP⟩ := rfl
    exact (h.sound.2 _ hparse).block ⟨[], 200, 0⟩ (Or.inr ⟨[], [], rfl, nofun⟩) (by decide)

end FerrumDB
