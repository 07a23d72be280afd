import FerrumDB.SsTable.Layout
import FerrumDB.Lib.OrderedMap

/-!
# Reading back what the writer wrote

Each reader undoes its writer on a buffer that holds the written bytes at the cursor (`Left`): the
primitive fields, a record, all records of a block, the search of one key in a block, the index
entries, and the key range with the filter.
-/

namespace FerrumDB

open ByteCodec

variable {p : Prost} {buf rest : Bytes} {c : ℕ}

/-! ## Fields -/

theorem toNat_asU32 {n : ℕ} (h : n < 2 ^ 32) : (asU32 n).toNat = n := by
  simp only [asU32, UInt32.toNat_ofNat']; omega

theorem toNat_asU64 {n : ℕ} (h : n < 2 ^ 64) : (asU64 n).toNat = n := by
  simp only [asU64, UInt64.toNat_ofNat']; omega

theorem ofNat_ofBe_u32Bytes (v : UInt32) : UInt32.ofNat (ofBe (u32Bytes v)) = v := by
  rw [u32Bytes, ofBe_beBytes_of_lt v.toNat_lt, UInt32.ofNat_toNat]

theorem ofNat_ofBe_u64Bytes (v : UInt64) : UInt64.ofNat (ofBe (u64Bytes v)) = v := by
  rw [u64Bytes, ofBe_beBytes_of_lt v.toNat_lt, UInt64.ofNat_toNat]

theorem readU32_left {v : UInt32} (h : Left buf c (u32Bytes v ++ rest)) :
    readU32 buf c = .ok (v, c + 4) := by
  have ht := h.takeBytes recordEnd
  rw [length_u32Bytes] at ht
  unfold readU32
  rw [ht]
  simp only [bind, Except.bind, ofNat_ofBe_u32Bytes, pure, Except.pure]

theorem readU64_left {v : UInt64} (h : Left buf c (u64Bytes v ++ rest)) :
    readU64 buf c = .ok (v, c + 8) := by
  have ht := h.takeBytes recordEnd
  rw [length_u64Bytes] at ht
  unfold readU64
  rw [ht]
  simp only [bind, Except.bind, ofNat_ofBe_u64Bytes, pure, Except.pure]

theorem readU8_left {b : UInt8} (h : Left buf c (b :: rest)) : readU8 buf c = .ok (b, c + 1) := by
  have ht := Left.takeBytes recordEnd (show Left buf c ([b] ++ rest) from h)
  rw [List.length_singleton] at ht
  unfold readU8
  rw [ht]
  rfl

theorem readBytes_left {bs : Bytes} {n : ℕ} (h : Left buf c (bs ++ rest)) (hn : n = bs.length) :
    readBytes buf n c = .ok (bs, c + bs.length) := by
  subst hn; exact h.takeBytes recordEnd

theorem Left.skip4 {v : UInt32} (h : Left buf c (u32Bytes v ++ rest)) : Left buf (c + 4) rest := by
  have := h.skip; rwa [length_u32Bytes] at this

theorem Left.skip8 {v : UInt64} (h : Left buf c (u64Bytes v ++ rest)) : Left buf (c + 8) rest := by
  have := h.skip; rwa [length_u64Bytes] at this

theorem Left.skip1 {b : UInt8} (h : Left buf c (b :: rest)) : Left buf (c + 1) rest :=
  Left.skip (show Left buf c ([b] ++ rest) from h)

/-! ## Records -/

/-- The entry fits its record: key and value lengths are not narrowed. -/
def RecordFits (p : Prost) (e : Record) : Prop :=
  e.1.length < 2 ^ 32 ∧ (valueBytes p e.2).length < 2 ^ 32

def typeByte : Entry → UInt8
  | .value _ => TYPE_VALUE
  | .tombstone => TYPE_TOMBSTONE

theorem encodeRecord_eq (key : Bytes) (entry : Entry) : encodeRecord p key entry =
    lenPrefixed key ++ typeByte entry :: lenPrefixed (valueBytes p entry) := by
  cases entry <;> rfl

theorem decodeValueBytes_encode (hp : p.Lawful) {v : Value}
    (hv : (p.encodeValue v.toProto).length < 2 ^ 32) :
    decodeValueBytes p (p.encodeValue v.toProto) = .ok (.value v) := by
  unfold decodeValueBytes
  rw [hp.value _ (le_trans hv.le (by decide))]
  simp [Except.map]

theorem decodeRecord_left (hp : p.Lawful) {e : Record} (he : RecordFits p e)
    (h : Left buf c (encodeRecord p e.1 e.2 ++ rest)) :
    decodeRecord p buf c = .ok (e, c + (encodeRecord p e.1 e.2).length) := by
  obtain ⟨key, entry⟩ := e
  obtain ⟨hkey, hval⟩ := he
  have hlen : (encodeRecord p key entry).length =
      4 + key.length + 1 + 4 + (valueBytes p entry).length := by
    rw [encodeRecord_eq]; simp; omega
  simp only [encodeRecord_eq, lenPrefixed, List.append_assoc, List.cons_append] at h
  have h1 := Left.skip4 h
  have h2 := h1.skip
  have h3 := Left.skip1 h2
  have h4 := Left.skip4 h3
  unfold decodeRecord
  simp only [readU32_left h, readBytes_left h1 (toNat_asU32 hkey), readU8_left h2,
    readU32_left h3, bind, Except.bind, pure, Except.pure]
  cases entry with
  | value v =>
    rw [if_pos (show typeByte (.value v) = TYPE_VALUE from rfl)]
    simp only [readBytes_left h4 (toNat_asU32 hval)]
    simp only [valueBytes, decodeValueBytes_encode hp hval, Except.ok.injEq, Prod.mk.injEq, true_and]
    rw [hlen, valueBytes]; omega
  | tombstone =>
    rw [if_neg (by decide)]
    simp only [Except.ok.injEq, Prod.mk.injEq, true_and]
    rw [hlen, valueBytes]; simp; omega

theorem decodeRecords_left (hp : p.Lawful) {g : List Record} (hg : ∀ e ∈ g, RecordFits p e)
    {fuel : ℕ} (hfuel : g.length ≤ fuel) (out : List Record) (h : Left buf c (blockBytes p g)) :
    decodeRecords p buf fuel c out = .ok (out ++ g) := by
  induction g generalizing fuel c out with
  | nil =>
    have hlen := h.length
    cases fuel with
    | zero => simp [decodeRecords]
    | succ fuel => unfold decodeRecords; rw [if_neg (by simp at hlen; omega), List.append_nil]
  | cons e g ih =>
    cases fuel with
    | zero => simp at hfuel
    | succ fuel =>
      have hlen := h.length
      have hnine := nine_le_length_encodeRecord (p := p) e.1 e.2
      rw [blockBytes_cons] at h hlen
      rw [List.length_append] at hlen
      unfold decodeRecords
      rw [if_pos (by omega), decodeRecord_left hp (hg e (List.mem_cons_self ..)) h]
      have hrest := ih (fun e' he' => hg e' (List.mem_cons_of_mem _ he')) (by simpa using hfuel)
        (out ++ [e]) h.skip
      simp only [bind, Except.bind, hrest, List.append_assoc, List.singleton_append]

/-- The whole of a block is decoded. -/
theorem decodeRecords_block (hp : p.Lawful) {g : List Record} (hg : ∀ e ∈ g, RecordFits p e)
    (out : List Record) :
    decodeRecords p (blockBytes p g) (blockBytes p g).length 0 out = .ok (out ++ g) := by
  have hlen := length_le_blockBytes (p := p) g
  exact decodeRecords_left hp hg (by omega) out (Left.start _)

/-! ## Searching a block -/

/-- Strictly ascending keys. -/
def Ascending (l : List Record) : Prop := l.Pairwise fun a b => a.1 < b.1

theorem lookup_eq_none_of_lt {key : Bytes} {g : List Record} (h : ∀ e ∈ g, key < e.1) :
    g.lookup key = none := by
  rw [List.lookup_eq_none_iff]
  intro e he
  have := h e he
  simp only [bne_iff_ne, ne_eq]
  rintro rfl
  exact absurd this (Std.lt_irrefl)

theorem findLoop_left (hp : p.Lawful) {g : List Record} (hg : ∀ e ∈ g, RecordFits p e)
    (hasc : Ascending g) {fuel : ℕ} (hfuel : g.length ≤ fuel) (key : Bytes)
    (h : Left buf c (blockBytes p g)) : findLoop p buf key fuel c = .ok (g.lookup key) := by
  induction g generalizing fuel c with
  | nil =>
    have hlen := h.length
    cases fuel with
    | zero => rfl
    | succ fuel => unfold findLoop; rw [if_neg (by simp at hlen; omega)]; rfl
  | cons e g ih =>
    cases fuel with
    | zero => simp at hfuel
    | succ fuel =>
      obtain ⟨hkey, hval⟩ := hg e (List.mem_cons_self ..)
      obtain ⟨hlt, hasc⟩ := List.pairwise_cons.1 hasc
      have hlen := h.length
      have hnine := nine_le_length_encodeRecord (p := p) e.1 e.2
      have hsize : (encodeRecord p e.1 e.2).length =
          4 + e.1.length + 1 + 4 + (valueBytes p e.2).length := by
        rw [encodeRecord_eq]; simp; omega
      rw [blockBytes_cons] at h hlen
      rw [List.length_append] at hlen
      have hnext := h.skip
      rw [hsize] at hnext
      simp only [encodeRecord_eq, lenPrefixed, List.append_assoc, List.cons_append] at h
      have h1 := Left.skip4 h
      have h2 := h1.skip
      have h3 := Left.skip1 h2
      have h4 := Left.skip4 h3
      unfold findLoop
      rw [if_pos (by omega)]
      simp only [readU32_left h, readBytes_left h1 (toNat_asU32 hkey), readU8_left h2,
        readU32_left h3, readBytes_left h4 (toNat_asU32 hval), bind, Except.bind]
      rw [List.lookup_cons]
      cases hcmp : compare e.1 key with
      | lt =>
        have hne : (key == e.1) = false := by
          rw [beq_eq_false_iff_ne]; rintro rfl; simp at hcmp
        rw [hne]
        have hc : c + 4 + e.1.length + 1 + 4 + (valueBytes p e.2).length =
            c + (4 + e.1.length + 1 + 4 + (valueBytes p e.2).length) := by omega
        rw [hc]
        exact ih (fun e' he' => hg e' (List.mem_cons_of_mem _ he')) hasc (by simpa using hfuel) hnext
      | eq =>
        have heq : e.1 = key := Std.compare_eq_iff_eq.1 hcmp
        rw [heq, beq_self_eq_true]
        obtain ⟨k, entry⟩ := e
        cases entry with
        | value v =>
          rw [if_pos (show typeByte (k, Entry.value v).2 = TYPE_VALUE from rfl)]
          simp only [valueBytes, decodeValueBytes_encode hp hval]
          rfl
        | tombstone => rfl
      | gt =>
        have hgt : key < e.1 := Std.compare_eq_gt.1 hcmp
        have hne : (key == e.1) = false := by
          rw [beq_eq_false_iff_ne]; rintro rfl; exact absurd hgt (Std.lt_irrefl)
        rw [hne, lookup_eq_none_of_lt fun e' he' => Std.lt_trans hgt (hlt e' he')]
        rfl

theorem findInBlock_block (hp : p.Lawful) {g : List Record} (hg : ∀ e ∈ g, RecordFits p e)
    (hasc : Ascending g) (key : Bytes) :
    findInBlock p (blockBytes p g) key = .ok (g.lookup key) := by
  have hlen := length_le_blockBytes (p := p) g
  exact findLoop_left hp hg hasc (by omega) key (Left.start _)

/-! ## Sealed blocks -/

/-- The checksum of a sealed block is accepted and stripped. -/
theorem checkBlock_sealedBlock (e : IndexEntry) (g : List Record) :
    checkBlock e (sealedBlock p g) = .ok (blockBytes p g) := by
  have hsplit : (sealedBlock p g).length - 4 = (blockBytes p g).length := by simp
  unfold checkBlock
  rw [if_neg (by simp)]
  dsimp only
  rw [hsplit]
  unfold sealedBlock
  rw [List.take_left, List.drop_left, ofNat_ofBe_u32Bytes, if_neg (by simp)]

/-! ## The index region -/

theorem length_encodeIndexEntry (e : IndexEntry) :
    (encodeIndexEntry e).length = 4 + e.firstKey.length + 8 + 4 := by
  simp [encodeIndexEntry]

theorem readIndexEntry_left {e : IndexEntry} (he : e.firstKey.length < 2 ^ 32)
    (h : Left buf c (encodeIndexEntry e ++ rest)) :
    readIndexEntry buf c = .ok (e, c + (encodeIndexEntry e).length) := by
  rw [length_encodeIndexEntry]
  simp only [encodeIndexEntry, lenPrefixed, List.append_assoc] at h
  have h1 := Left.skip4 h
  have h2 := h1.skip
  have h3 := Left.skip8 h2
  unfold readIndexEntry
  simp only [readU32_left h, readBytes_left h1 (toNat_asU32 he), readU64_left h2, readU32_left h3,
    bind, Except.bind, pure, Except.pure, Except.ok.injEq, Prod.mk.injEq, true_and]
  omega

theorem readIndex_left {index : List IndexEntry} (hi : ∀ e ∈ index, e.firstKey.length < 2 ^ 32)
    (out : List IndexEntry) (h : Left buf c (index.flatMap encodeIndexEntry ++ rest)) :
    readIndex buf index.length out c =
      .ok (out ++ index, c + (index.flatMap encodeIndexEntry).length) := by
  induction index generalizing c out with
  | nil => simp [readIndex]
  | cons e index ih =>
    rw [List.flatMap_cons, List.append_assoc] at h
    rw [List.length_cons, readIndex, readIndexEntry_left (hi e (List.mem_cons_self ..)) h]
    have hrest := ih (fun e' he' => hi e' (List.mem_cons_of_mem _ he')) (out ++ [e]) h.skip
    simp only [bind, Except.bind, hrest, List.append_assoc, List.singleton_append,
      List.flatMap_cons, List.length_append, Nat.add_assoc]

theorem readRangeAndBloom_ahead {min max : Bytes} {b : BloomFilter} (hmin : min.length < 2 ^ 32)
    (hmax : max.length < 2 ^ 32) (hbits : b.bits.length < 2 ^ 32)
    (h : Left buf c (encodeKeyRange (some min) (some max) ++ encodeBloom (some b) ++ rest)) :
    readRangeAndBloom buf c = .ok (some min, some max, some b) := by
  have hlen := h.length
  simp only [encodeKeyRange, encodeBloom, lenPrefixed, List.append_assoc] at h hlen
  simp only [List.length_append, length_u32Bytes] at hlen
  have h1 := Left.skip4 h
  have h2 := h1.skip
  have h3 := Left.skip4 h2
  have h4 := h3.skip
  have h5 := Left.skip4 h4
  have h6 := Left.skip4 h5
  unfold readRangeAndBloom
  rw [if_pos (by omega)]
  simp only [readU32_left h, readBytes_left h1 (toNat_asU32 hmin), readU32_left h2,
    readBytes_left h3 (toNat_asU32 hmax), readU32_left h4, readU32_left h5,
    readBytes_left h6 (toNat_asU32 hbits), bind, Except.bind, pure, Except.pure]

theorem readRangeAndBloom_left {min max : Bytes} {b : BloomFilter} (hmin : min.length < 2 ^ 32)
    (hmax : max.length < 2 ^ 32) (hbits : b.bits.length < 2 ^ 32)
    (h : Left buf c (encodeKeyRange (some min) (some max) ++ encodeBloom (some b))) :
    readRangeAndBloom buf c = .ok (some min, some max, some b) := by
  rw [← List.append_nil (_ ++ _)] at h
  exact readRangeAndBloom_ahead hmin hmax hbits h

theorem readRangeAndBloom_nil (h : Left buf c []) : readRangeAndBloom buf c = .ok (none, none, none) := by
  have hlen := h.length
  unfold readRangeAndBloom
  rw [if_neg (by simp at hlen; omega)]
  rfl

end FerrumDB
