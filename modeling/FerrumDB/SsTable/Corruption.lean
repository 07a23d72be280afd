import FerrumDB.Lib.ShiftRegister
import FerrumDB.SsTable.RoundTrip

/-!
# Corrupted blocks

A change of a table file that touches one block, in at most four consecutive record bytes or in the
stored checksum (`HitsBlock`), leaves the index region alone, so the file still opens; every read of
the block then stops with a decode error, because the checksum separates byte strings that differ
only within four consecutive bytes (`crc32_separates`), and the other blocks read as before.
-/

namespace FerrumDB

open ByteCodec ShiftRegister

variable {σ : Type} {a : σ} {d : Disk} {p : Prost}

/-! ## The checksum -/

/-- The polynomial of the checksum. -/
def crcPoly : BitVec 32 := 0xEDB88320#32

theorem lsb_eq_one (crc : UInt32) : crc &&& 1 = 1 ↔ crc.toBitVec.getLsbD 0 = true := by
  have hand : (crc &&& 1).toBitVec = BitVec.setWidth 32 (BitVec.ofBool (crc.toBitVec.getLsbD 0)) := by
    rw [UInt32.toBitVec_and]
    exact BitVec.and_one_eq_setWidth_ofBool_getLsbD
  rw [← UInt32.toBitVec_inj, hand]
  cases crc.toBitVec.getLsbD 0 <;> decide

theorem toBitVec_crcBit (crc : UInt32) : (crcBit crc).toBitVec = step crcPoly crc.toBitVec := by
  unfold crcBit step
  dsimp only
  by_cases h : crc &&& 1 = 1
  · rw [if_pos h, if_pos ((lsb_eq_one crc).1 h), UInt32.toBitVec_xor, UInt32.toBitVec_shiftRight]
    rfl
  · rw [if_neg h, if_neg fun hbit => h ((lsb_eq_one crc).2 hbit), UInt32.toBitVec_shiftRight]
    rfl

theorem toBitVec_crcByte (crc : UInt32) (byte : UInt8) :
    (crcByte crc byte).toBitVec = feed crcPoly crc.toBitVec byte.toBitVec := by
  have hiter : ∀ (n : ℕ) (x : UInt32), (crcBit^[n] x).toBitVec = (step crcPoly)^[n] x.toBitVec := by
    intro n
    induction n with
    | zero => intro x; rfl
    | succ n ih => intro x; rw [Function.iterate_succ_apply, ih, toBitVec_crcBit]; rfl
  unfold crcByte feed
  rw [hiter, UInt32.toBitVec_xor]
  rfl

theorem toBitVec_foldl_crcByte (data : Bytes) (crc : UInt32) :
    (data.foldl crcByte crc).toBitVec = (data.map UInt8.toBitVec).foldl (feed crcPoly) crc.toBitVec := by
  induction data generalizing crc with
  | nil => rfl
  | cons byte data ih => rw [List.foldl_cons, ih, toBitVec_crcByte, List.map_cons, List.foldl_cons]

/-! ## Changes within a range -/

section Confined

variable {α : Type} {lo hi off n : ℕ} {old new : List α}

/-- `old` and `new` have one length and agree at every position before `lo` and from `hi` on. -/
structure ConfinedTo (lo hi : ℕ) (old new : List α) : Prop where
  length_eq : old.length = new.length
  agree : ∀ i, i < lo ∨ hi ≤ i → old[i]? = new[i]?

theorem ConfinedTo.take_eq (h : ConfinedTo lo hi old new) (hn : n ≤ lo) : old.take n = new.take n := by
  apply List.ext_getElem?
  intro i
  by_cases hi : i < n
  · rw [List.getElem?_take_of_lt hi, List.getElem?_take_of_lt hi]
    exact h.agree i (Or.inl (by omega))
  · rw [List.getElem?_take_eq_none (by omega), List.getElem?_take_eq_none (by omega)]

theorem ConfinedTo.drop_eq (h : ConfinedTo lo hi old new) (hn : hi ≤ n) : old.drop n = new.drop n := by
  apply List.ext_getElem?
  intro i
  rw [List.getElem?_drop, List.getElem?_drop]
  exact h.agree _ (Or.inr (by omega))

theorem ConfinedTo.drop (h : ConfinedTo lo hi old new) (n : ℕ) :
    ConfinedTo (lo - n) (hi - n) (old.drop n) (new.drop n) := by
  constructor
  · rw [List.length_drop, List.length_drop, h.length_eq]
  · intro i hi
    rw [List.getElem?_drop, List.getElem?_drop]
    exact h.agree _ (by omega)

theorem ConfinedTo.take (h : ConfinedTo lo hi old new) (n : ℕ) :
    ConfinedTo lo hi (old.take n) (new.take n) := by
  constructor
  · rw [List.length_take, List.length_take, h.length_eq]
  · intro i hi
    by_cases hin : i < n
    · rw [List.getElem?_take_of_lt hin, List.getElem?_take_of_lt hin]
      exact h.agree i hi
    · rw [List.getElem?_take_eq_none (by omega), List.getElem?_take_eq_none (by omega)]

/-- Bytes that the range does not meet. -/
theorem ConfinedTo.slice_eq (h : ConfinedTo lo hi old new) (hout : off + n ≤ lo ∨ hi ≤ off) :
    (old.drop off).take n = (new.drop off).take n := by
  rcases hout with hbefore | hafter
  · exact (h.drop off).take_eq (by omega)
  · rw [h.drop_eq hafter]

/-- A change shows in any bytes around the range. -/
theorem ConfinedTo.slice_ne (h : ConfinedTo lo hi old new) (hlo : off ≤ lo) (hhi : hi ≤ off + n)
    (hne : old ≠ new) : (old.drop off).take n ≠ (new.drop off).take n := by
  intro hslice
  refine hne ?_
  have hdrop : old.drop off = new.drop off := by
    rw [← List.take_append_drop n (old.drop off), hslice, (h.drop off).drop_eq (by omega),
      List.take_append_drop]
  rw [← List.take_append_drop off old, h.take_eq hlo, hdrop, List.take_append_drop]

end Confined

/-- **Separation.** Byte strings of one length that differ only within four consecutive bytes have
different checksums. -/
theorem crc32_separates {lo hi : ℕ} {old new : Bytes} (h : ConfinedTo lo hi old new) (hhi : hi ≤ lo + 4)
    (hne : old ≠ new) : crc32 old ≠ crc32 new := by
  intro hcrc
  have hfold : old.foldl crcByte 0xFFFFFFFF = new.foldl crcByte 0xFFFFFFFF := by
    have hnot := congrArg (~~~ ·) hcrc
    simpa [crc32] using hnot
  have hbits := congrArg UInt32.toBitVec hfold
  rw [toBitVec_foldl_crcByte, toBitVec_foldl_crcByte] at hbits
  have hsplit : ∀ bs : Bytes, bs = bs.take lo ++ (bs.drop lo).take (hi - lo) ++
      (bs.drop lo).drop (hi - lo) := by
    intro bs
    rw [List.append_assoc, List.take_append_drop, List.take_append_drop]
  have hwindow : (old.drop lo).take (hi - lo) ≠ (new.drop lo).take (hi - lo) :=
    h.slice_ne (le_refl lo) (by omega) hne
  have hlen : ((old.drop lo).take (hi - lo)).length = ((new.drop lo).take (hi - lo)).length := by
    rw [List.length_take, List.length_take, List.length_drop, List.length_drop, h.length_eq]
  have hshort : ((old.drop lo).take (hi - lo)).length ≤ 4 := by
    rw [List.length_take]
    omega
  rw [hsplit old, hsplit new, h.take_eq (le_refl lo), (h.drop lo).drop_eq (n := hi - lo) (by omega)] at hbits
  simp only [List.map_append] at hbits
  have hpoly : crcPoly.msb = true := by decide
  refine foldl_feed_separates hpoly ?_ ?_ ?_ _ _ _ hbits
  · rw [List.length_map, List.length_map, hlen]
  · rw [List.length_map]
    omega
  · intro hmap
    exact hwindow (List.map_injective_iff.2 (fun _ _ => UInt8.toBitVec_inj.1) hmap)

/-! ## Changed files -/

/-- A change of a table file that touches the block of `e` only: at most four consecutive record
bytes, or the checksum behind them. -/
inductive HitsBlock (e : IndexEntry) (old new : Bytes) : Prop
  | records (lo hi : ℕ) (hlo : e.blockOffset.toNat ≤ lo)
      (hhi : hi + 4 ≤ e.blockOffset.toNat + e.blockLen.toNat) (hshort : hi ≤ lo + 4)
      (h : ConfinedTo lo hi old new)
  | checksum (h : ConfinedTo (e.blockOffset.toNat + e.blockLen.toNat - 4)
      (e.blockOffset.toNat + e.blockLen.toNat) old new)

def IsDecodeError (stop : Stop) : Prop := ∃ msg, stop = .err (.decodeError msg)

section Changed

variable {f f' : File} {entries g : List Record} {pre post : List (List Record)}

/-- A changed file of the same length is read at the same places. -/
theorem File.readAt_of_length_eq {off n : ℕ} {bs : Bytes} (hlen : f.bytes.length = f'.bytes.length)
    (h : f.readAt off n = .ok bs) :
    bs = (f.bytes.drop off).take n ∧ f'.readAt off n = .ok ((f'.bytes.drop off).take n) := by
  unfold File.readAt at h ⊢
  rw [← hlen]
  split at h
  · cases h
  · next hoff =>
    split at h
    · cases h
    · next hend =>
      cases h
      exact ⟨rfl, by rw [if_neg hoff, if_neg hend]⟩

theorem HitsBlock.length_eq {e : IndexEntry} {old new : Bytes} (h : HitsBlock e old new) :
    old.length = new.length := by
  cases h with
  | records _ _ _ _ _ h => exact h.length_eq
  | checksum h => exact h.length_eq

/-- The change lies within the block. -/
theorem HitsBlock.confined {e : IndexEntry} {old new : Bytes} (h : HitsBlock e old new)
    (hlen : 4 ≤ e.blockLen.toNat) :
    ConfinedTo e.blockOffset.toNat (e.blockOffset.toNat + e.blockLen.toNat) old new := by
  cases h with
  | records lo hi hlo hhi _ h => exact ⟨h.length_eq, fun i hi => h.agree i (by omega)⟩
  | checksum h => exact ⟨h.length_eq, fun i hi => h.agree i (by omega)⟩

/-- A block whose stored checksum is not that of its records. -/
theorem checkBlock_of_ne (e : IndexEntry) {records stored : Bytes} (hlen : stored.length = 4)
    (hne : crc32 records ≠ UInt32.ofNat (ofBe stored)) :
    checkBlock e (records ++ stored) = .error (.err (crcMismatch e.blockOffset)) := by
  have hsplit : (records ++ stored).length - 4 = records.length := by rw [List.length_append]; omega
  unfold checkBlock
  rw [if_neg (by rw [List.length_append]; omega)]
  dsimp only
  rw [hsplit, List.take_left, List.drop_left, if_pos hne]

/-- Four bytes are the checksum they store. -/
theorem u32Bytes_ofBe {stored : Bytes} (hlen : stored.length = 4) :
    u32Bytes (UInt32.ofNat (ofBe stored)) = stored := by
  have hlt := ofBe_lt stored
  rw [hlen] at hlt
  unfold u32Bytes
  rw [UInt32.toNat_ofNat_of_lt' (by simpa using hlt), ← hlen, beBytes_ofBe]

/-- **Detection.** A block that was hit fails its check. -/
theorem checkBlock_hit (h : f.Holds p entries) (hg : groups p entries = pre ++ g :: post)
    (hhit : HitsBlock (blockEntry p pre g) f.bytes f'.bytes) (hne : f.bytes ≠ f'.bytes) :
    ∃ block, f'.readAt (blockEntry p pre g).blockOffset.toNat (blockEntry p pre g).blockLen.toNat =
        .ok block ∧
      checkBlock (blockEntry p pre g) block = .error (.err (crcMismatch (blockEntry p pre g).blockOffset)) := by
  obtain ⟨hsealed, hread⟩ := File.readAt_of_length_eq hhit.length_eq (h.readAt_block hg)
  obtain ⟨-, hlen, -⟩ := h.place hg
  refine ⟨_, hread, ?_⟩
  rw [hlen, length_sealedBlock] at hsealed hread ⊢
  set off := (blockEntry p pre g).blockOffset.toNat with hoff
  set n := (blockBytes p g).length with hn
  -- both files hold `n` record bytes and then four of the checksum
  have hsplit : ∀ bs : Bytes, (bs.drop off).take (n + 4) = (bs.drop off).take n ++ (bs.drop (off + n)).take 4 := by
    intro bs
    rw [List.take_add, List.drop_drop]
  have hold : (f.bytes.drop off).take n ++ (f.bytes.drop (off + n)).take 4 =
      blockBytes p g ++ u32Bytes (crc32 (blockBytes p g)) := by
    rw [← hsplit, ← hsealed]
    rfl
  have hbound : off + (n + 4) ≤ f'.bytes.length := by
    by_contra hlt
    unfold File.readAt at hread
    split at hread
    · cases hread
    · rw [if_pos (by omega)] at hread
      cases hread
  have hbound' : off + (n + 4) ≤ f.bytes.length := by rw [hhit.length_eq]; exact hbound
  obtain ⟨hrecords, hstored⟩ := List.append_inj hold (by
    rw [List.length_take, List.length_drop]; omega)
  have hfour : ((f'.bytes.drop (off + n)).take 4).length = 4 := by
    rw [List.length_take, List.length_drop]; omega
  rw [hsplit f'.bytes]
  refine checkBlock_of_ne _ hfour ?_
  have hkeep : UInt32.ofNat (ofBe ((f.bytes.drop (off + n)).take 4)) = crc32 (blockBytes p g) := by
    rw [hstored, ofNat_ofBe_u32Bytes]
  cases hhit with
  | records lo hi hlo hhi hshort hconf =>
    rw [hlen, length_sealedBlock, ← hoff, ← hn] at hhi
    rw [← hoff] at hlo
    have hchanged : (f.bytes.drop off).take n ≠ (f'.bytes.drop off).take n :=
      hconf.slice_ne hlo (by omega) hne
    have hwindow := (hconf.drop off).take n
    have hsame : (f.bytes.drop (off + n)).take 4 = (f'.bytes.drop (off + n)).take 4 :=
      hconf.slice_eq (Or.inr (by omega))
    rw [← hsame, hkeep, ← hrecords]
    exact (crc32_separates hwindow (by omega) hchanged).symm
  | checksum hconf =>
    rw [hlen, length_sealedBlock, ← hoff, ← hn] at hconf
    have hchanged : (f.bytes.drop (off + n)).take 4 ≠ (f'.bytes.drop (off + n)).take 4 :=
      hconf.slice_ne (by omega) (by omega) hne
    have hsame : (f.bytes.drop off).take n = (f'.bytes.drop off).take n :=
      hconf.slice_eq (Or.inl (by omega))
    rw [← hsame, hrecords, ← hkeep]
    intro hcrc
    refine hchanged ?_
    have hfour' : ((f.bytes.drop (off + n)).take 4).length = 4 := by
      rw [List.length_take, List.length_drop]; omega
    rw [← u32Bytes_ofBe hfour', hcrc, u32Bytes_ofBe hfour]

/-- The change lies within the data region, in the bytes of one block. -/
theorem confined_block (h : f.Holds p entries) (hg : groups p entries = pre ++ g :: post)
    (hhit : HitsBlock (blockEntry p pre g) f.bytes f'.bytes) :
    ConfinedTo (dataRegion p pre).length ((dataRegion p pre).length + (sealedBlock p g).length)
      f.bytes f'.bytes := by
  obtain ⟨hoff, hlen, -⟩ := h.place hg
  have hconf := hhit.confined (by rw [hlen, length_sealedBlock]; omega)
  rwa [hoff, hlen] at hconf

/-- The changed file opens as the original does. -/
theorem parse_hit (h : f.Holds p entries) (hg : groups p entries = pre ++ g :: post)
    (hhit : HitsBlock (blockEntry p pre g) f.bytes f'.bytes) (path : FileName) :
    SsTable.parse path f' = .ok (freshTable p path entries) := by
  have hconf := confined_block h hg hhit
  obtain ⟨-, -, hend⟩ := h.place hg
  have hle := h.dataRegion_le
  have hdrop := hconf.drop_eq (n := (dataRegion p (groups p entries)).length) (by omega)
  have hlen := hhit.length_eq
  have hdata : (f'.bytes.take (dataRegion p (groups p entries)).length).length =
      (dataRegion p (groups p entries)).length := by
    rw [List.length_take]
    omega
  refine parse_tableRegion hdata ?_ h.fits.indexFits path
  conv_lhs => rw [← List.take_append_drop (dataRegion p (groups p entries)).length f'.bytes]
  rw [← hdrop, h.bytes, encodeTable_eq]
  dsimp only
  rw [List.drop_left]

/-- Every block of the changed file passes its check as before, or fails it. -/
theorem checks_hit (h : f.Holds p entries) (hg : groups p entries = pre ++ g :: post)
    (hhit : HitsBlock (blockEntry p pre g) f.bytes f'.bytes) (hne : f.bytes ≠ f'.bytes)
    {pre' post' : List (List Record)} {g' : List Record} (hg' : groups p entries = pre' ++ g' :: post') :
    f'.Checks p IsDecodeError pre' g' := by
  have hapart : ∀ (hout : (dataRegion p pre').length + (sealedBlock p g').length ≤ (dataRegion p pre).length ∨
      (dataRegion p pre).length + (sealedBlock p g).length ≤ (dataRegion p pre').length),
      f'.Checks p IsDecodeError pre' g' := by
    intro hout
    obtain ⟨hsealed, hread⟩ := File.readAt_of_length_eq hhit.length_eq (h.readAt_block hg')
    obtain ⟨hoff, hlen, -⟩ := h.place hg'
    refine File.checks_of_readAt ?_
    rw [hread, hsealed]
    rw [← hoff, ← hlen] at hout
    rw [(confined_block h hg hhit).slice_eq hout]
  rcases blocks_apart (p := p) hg hg' with ⟨rfl, rfl⟩ | hbefore | hafter
  · obtain ⟨block, hread, hcheck⟩ := checkBlock_hit h hg hhit hne
    refine ⟨block, hread, fun records hr => ?_, fun stop hs => ?_⟩
    · rw [hcheck] at hr
      cases hr
    · rw [hcheck] at hs
      cases hs
      exact ⟨_, rfl⟩
  · exact hapart (Or.inr hbefore)
  · exact hapart (Or.inl hafter)

/-! ## Reads of a changed file -/

/-- The listing stops at the block that was hit. -/
theorem stops_readBlocks (hp : p.Lawful) {name : FileName} (hd : d.files[name]? = some f')
    (h : f.Holds p entries) (hg : groups p entries = pre ++ g :: post)
    (hhit : HitsBlock (blockEntry p pre g) f.bytes f'.bytes) (hne : f.bytes ≠ f'.bytes)
    (done mid : List (List Record)) (hpre : pre = done ++ mid) (out : List Record) :
    Does Env.quiet (readBlocks p name (indexFrom p (dataRegion p done).length (mid ++ g :: post)) out) a d
      (fun _ _ _ => False) fun e _ _ => IsDecodeError e := by
  induction mid generalizing done out with
  | nil =>
    rw [List.append_nil] at hpre
    obtain ⟨block, hread, hcheck⟩ := checkBlock_hit h hg hhit hne
    rw [List.nil_append, ← hpre, indexFrom_cons]
    unfold readBlocks
    refine Does.bind (does_readBlockFromDisk hd hread (fun records hr => ?_) (fun stop hs => ?_)
      fun e he => absurd he Env.not_faults_quiet)
    · rw [hcheck] at hr
      cases hr
    · rw [hcheck] at hs
      cases hs
      exact ⟨_, rfl⟩
  | cons x mid ih =>
    have hx : groups p entries = done ++ x :: (mid ++ g :: post) := by rw [hg, hpre]; simp
    refine does_readBlocks_cons hp hd h (checks_hit h hg hhit hne hx) hx ?_ (fun _ he => he)
      fun e he => absurd he Env.not_faults_quiet
    exact ih (done ++ [x]) (by rw [hpre]; simp) (out ++ x)

theorem stops_readAllEntries (hp : p.Lawful) {t : SsTable} (hd : d.files[t.path]? = some f')
    (h : f.Holds p entries) (ht : t.index = tableIndex p entries) (hg : groups p entries = pre ++ g :: post)
    (hhit : HitsBlock (blockEntry p pre g) f.bytes f'.bytes) (hne : f.bytes ≠ f'.bytes) :
    Does Env.quiet (SsTable.readAllEntries p t) a d (fun _ _ _ => False) fun e _ _ => IsDecodeError e := by
  have hnil : t.index ≠ [] := by
    rw [ht, tableIndex, ← List.length_pos_iff, length_indexFrom, hg]
    simp
  unfold SsTable.readAllEntries
  rw [if_neg hnil, ht]
  refine Does.bind (does_openRead hd ?_ fun e he => absurd he Env.not_faults_quiet)
  rw [tableIndex, hg]
  exact stops_readBlocks hp hd h hg hhit hne [] pre rfl []

/-- The handle after a lookup, whether it returned or failed. -/
def SsTable.afterGet (p : Prost) (d : Disk) (t : SsTable) (key : Bytes) : SsTable :=
  match SsTable.get p key ⟨t, d, Env.quiet, 0⟩ with
  | .ok _ x => x.self
  | .error _ x => x.self

/-- A lookup in the changed file. -/
theorem does_get_hit (hp : p.Lawful) {t : SsTable} (hd : d.files[t.path]? = some f')
    (h : f.Holds p entries) (ht : t.Serves p entries) (hg : groups p entries = pre ++ g :: post)
    (hhit : HitsBlock (blockEntry p pre g) f.bytes f'.bytes) (hne : f.bytes ≠ f'.bytes) (key : Bytes) :
    Does Env.quiet (SsTable.get p key) t d
      (fun r t' _ => r = entries.lookup key ∧ t'.path = t.path ∧ t'.Serves p entries)
      fun e t' _ => IsDecodeError e ∧ t' = t :=
  does_get_checks hp hd h ht (fun _ _ _ hg' => checks_hit h hg hhit hne hg')
    (fun _ hc => ⟨rfl, rfl, ht.withCache hc⟩) (fun _ he => ⟨he, rfl⟩)
    fun _ he => absurd he Env.not_faults_quiet

/-- Lookups, failing or not, leave a handle of the table. -/
theorem serves_afterGets (hp : p.Lawful) {t : SsTable} (hd : d.files[t.path]? = some f')
    (h : f.Holds p entries) (ht : t.Serves p entries) (hg : groups p entries = pre ++ g :: post)
    (hhit : HitsBlock (blockEntry p pre g) f.bytes f'.bytes) (hne : f.bytes ≠ f'.bytes) (keys : List Bytes) :
    (keys.foldl (SsTable.afterGet p d) t).path = t.path ∧
      (keys.foldl (SsTable.afterGet p d) t).Serves p entries := by
  induction keys generalizing t with
  | nil => exact ⟨rfl, ht⟩
  | cons key keys ih =>
    have hstep : (t.afterGet p d key).path = t.path ∧ (t.afterGet p d key).Serves p entries := by
      have hget := does_get_hit hp hd h ht hg hhit hne key
      unfold SsTable.afterGet
      cases hrun : SsTable.get p key ⟨t, d, Env.quiet, 0⟩ with
      | ok r x => exact (hget.of_ok hrun).2
      | error e x =>
        have hsame : x.self = t := (hget.of_error hrun).2
        show x.self.path = t.path ∧ x.self.Serves p entries
        rw [hsame]
        exact ⟨rfl, ht⟩
    obtain ⟨hpath, hserves⟩ := ih (by rw [hstep.1]; exact hd) hstep.2
    exact ⟨hpath.trans hstep.1, hserves⟩

end Changed

/-- **Corruption of a data block is never returned as data.** A table is flushed and its file is changed
in one block, in at most four consecutive record bytes or in the stored checksum. The file opens; every
lookup, after any other lookups, returns the original answer or a decode error, and the listing returns
a decode error. The checksum separates any two byte strings of one length that differ only within four
consecutive bytes. -/
theorem corruption_detected (hp : p.Lawful) (M : Std.ExtTreeMap Bytes Entry compare)
    (hfits : TableFits p M.toList) (path : FileName) (a : σ) (d : Disk) :
    (Returns (SsTable.flush p path M.toList) a d fun t _ d' =>
      ∃ f, d'.files[path]? = some f ∧ ∀ e ∈ t.index, ∀ f' : File, f.bytes ≠ f'.bytes →
        HitsBlock e f.bytes f'.bytes →
        Returns (SsTable.open path) a (d'.put path f') fun t' _ d'' =>
          (∀ (keys : List Bytes) key, Does Env.quiet (SsTable.get p key) (keys.foldl (SsTable.afterGet p d'') t') d''
            (fun r _ _ => r = M[key]?) fun stop _ _ => IsDecodeError stop) ∧
          Does Env.quiet (t'.readAllEntries p) a d'' (fun _ _ _ => False) fun stop _ _ => IsDecodeError stop) ∧
    ∀ lo old new, ConfinedTo lo (lo + 4) old new → old ≠ new → crc32 old ≠ crc32 new := by
  refine ⟨?_, fun lo old new h hne => crc32_separates h (le_refl _) hne⟩
  have hholds := holds_tableFile hfits (ascending_toList M)
  refine does_flush hfits.file ?_ fun e he => absurd he Env.not_faults_quiet
  refine ⟨tableFile p M.toList hfits.file, by simp, ?_⟩
  intro e he f' hne hhit
  obtain ⟨pre, g, post, hg, rfl⟩ := mem_indexFrom he
  have hd : ((d.put path (tableFile p M.toList hfits.file)).put path f').files[path]? = some f' := by simp
  refine does_open hd ?_ fun e he => absurd he Env.not_faults_quiet
  rw [parse_hit hholds hg hhit]
  refine ⟨fun keys key => ?_, stops_readAllEntries hp hd hholds rfl hg hhit hne⟩
  have hserves := serves_freshTable (p := p) path M.toList
  obtain ⟨hpath, hafter⟩ := serves_afterGets hp hd hholds hserves hg hhit hne keys
  have hget := does_get_hit hp (by rw [hpath]; exact hd) hholds hafter hg hhit hne key
  rw [lookup_toList] at hget
  exact hget.mono (fun _ _ _ hr => hr.1) fun _ _ _ he => he.1

set_option maxRecDepth 100000 in
theorem corruption_detected_sampleMap :
    TableFits Prost.wire sampleMap.toList ∧
    Returns (SsTable.flush Prost.wire "sstable_1.sst" sampleMap.toList) () Disk.empty fun t _ d' =>
      ∃ f, d'.files["sstable_1.sst"]? = some f ∧ ∀ e ∈ t.index, ∀ f' : File, f.bytes ≠ f'.bytes →
        HitsBlock e f.bytes f'.bytes →
        Returns (SsTable.open "sstable_1.sst") () (d'.put "sstable_1.sst" f') fun t' _ d'' =>
          (∀ (keys : List Bytes) key,
            Does Env.quiet (SsTable.get Prost.wire key) (keys.foldl (SsTable.afterGet Prost.wire d'') t') d''
              (fun r _ _ => r = sampleMap[key]?) fun stop _ _ => IsDecodeError stop) ∧
          Does Env.quiet (t'.readAllEntries Prost.wire) () d'' (fun _ _ _ => False)
            fun stop _ _ => IsDecodeError stop :=
  ⟨tableFits_sampleMap, (corruption_detected wire_lawful sampleMap tableFits_sampleMap "sstable_1.sst" ()
    Disk.empty).1⟩

end FerrumDB
