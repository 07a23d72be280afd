import FerrumDB.SsTable.WellFormed

/-!
# What a lookup finds in the bytes of a table file

The header of a file says which block may hold a key, and the block is its record bytes with their checksum.
`SearchedTo` says what the search of a key comes to in record bytes, and `Finds` what a lookup comes to in a whole
file, both by the layout of the bytes. The readers come to exactly that (`findInBlock_eq_ok_iff`,
`checkBlock_eq_ok_iff`).
-/

namespace FerrumDB

open ByteCodec

variable {p : Prost} {key buf rest records : Bytes} {c c' fuel : ℕ} {r : Option Entry} {e : IndexEntry}

/-! ## Records -/

/-- A record: a key, a type byte, and value bytes. -/
structure RawRecord where
  key : Bytes
  recType : UInt8
  value : Bytes
  key_lt : key.length < 2 ^ 32
  value_lt : value.length < 2 ^ 32

def RawRecord.bytes (x : RawRecord) : Bytes := lenPrefixed x.key ++ x.recType :: lenPrefixed x.value

/-- What the record says of its key: any type but that of a value is a deletion. -/
inductive RawRecord.Says (p : Prost) (x : RawRecord) : Entry → Prop
  | value {e : Entry} (h : x.recType = TYPE_VALUE) (hdec : decodeValueBytes p x.value = .ok e) : x.Says p e
  | tombstone (h : x.recType ≠ TYPE_VALUE) : x.Says p .tombstone

/-- What the search of a key comes to in record bytes: it skips the smaller keys, and ends at the key, before a
larger one, or with the bytes. -/
inductive SearchedTo (p : Prost) (key : Bytes) : Bytes → Option Entry → Prop
  | done : SearchedTo p key [] none
  | past (x : RawRecord) (rest : Bytes) (h : key < x.key) : SearchedTo p key (x.bytes ++ rest) none
  | found (x : RawRecord) (rest : Bytes) {e : Entry} (h : x.key = key) (hentry : x.Says p e) :
      SearchedTo p key (x.bytes ++ rest) (some e)
  | skip (x : RawRecord) {rest : Bytes} {r : Option Entry} (h : x.key < key) (hrest : SearchedTo p key rest r) :
      SearchedTo p key (x.bytes ++ rest) r

theorem RawRecord.length_bytes (x : RawRecord) : x.bytes.length = x.key.length + x.value.length + 9 := by
  unfold RawRecord.bytes lenPrefixed
  simp
  omega

theorem spans_of_readU8 {b : UInt8} (h : readU8 buf c = .ok (b, c')) : Spans buf c [b] c' := by
  obtain ⟨⟨bs, c''⟩, hread, h⟩ := bind_eq_ok h
  obtain ⟨hspans, hlen⟩ := spans_of_takeBytes hread
  cases h
  obtain ⟨b, rfl⟩ := List.length_eq_one_iff.1 hlen
  exact hspans

/-- One round of the search. -/
def searchStep (p : Prost) (buf key : Bytes) (fuel : ℕ) (x : RawRecord) (c : ℕ) : Except AppError (Option Entry) :=
  match compare x.key key with
  | .eq =>
    if x.recType = TYPE_VALUE then do
      let entry ← decodeValueBytes p x.value
      return some entry
    else return some .tombstone
  | .gt => return none
  | .lt => findLoop p buf key fuel c

/-- Where a record lies ahead, the search takes it. -/
theorem findLoop_raw (x : RawRecord) (h : Left buf c (x.bytes ++ rest)) :
    findLoop p buf key (fuel + 1) c = searchStep p buf key fuel x (c + x.bytes.length) := by
  have hlen := h.length
  have hsize := x.length_bytes
  rw [List.length_append] at hlen
  simp only [RawRecord.bytes, lenPrefixed, List.append_assoc, List.cons_append] at h
  have h1 := Left.skip4 h
  have h2 := h1.skip
  have h3 := Left.skip1 h2
  have h4 := Left.skip4 h3
  have hnext : c + 4 + x.key.length + 1 + 4 + x.value.length = c + x.bytes.length := by omega
  unfold findLoop
  rw [if_pos (by omega)]
  simp only [readU32_left h, readBytes_left h1 (toNat_asU32 x.key_lt), readU8_left h2, readU32_left h3,
    readBytes_left h4 (toNat_asU32 x.value_lt), bind, Except.bind, hnext]
  rfl

/-- The search goes on only where a record lies ahead. -/
theorem exists_raw_of_findLoop (hc : c < buf.length) (h : findLoop p buf key (fuel + 1) c = .ok r) :
    ∃ x : RawRecord, ∃ c', Spans buf c x.bytes c' := by
  unfold findLoop at h
  rw [if_pos hc] at h
  obtain ⟨⟨keyLen, c₁⟩, hkeyLen, h⟩ := bind_eq_ok h
  obtain ⟨⟨recKey, c₂⟩, hkey, h⟩ := bind_eq_ok h
  obtain ⟨⟨recType, c₃⟩, htype, h⟩ := bind_eq_ok h
  obtain ⟨⟨valLen, c₄⟩, hvalLen, h⟩ := bind_eq_ok h
  obtain ⟨⟨value, c₅⟩, hval, -⟩ := bind_eq_ok h
  obtain ⟨hspans₁, hlt₁⟩ := spans_lenPrefixed hkeyLen hkey
  obtain ⟨hspans₂, hlt₂⟩ := spans_lenPrefixed hvalLen hval
  have hspans := hspans₁.append ((spans_of_readU8 htype).append hspans₂)
  exact ⟨⟨recKey, recType, value, hlt₁, hlt₂⟩, c₅, hspans⟩

theorem searchedTo_of_findLoop (h : Left buf c rest) (hfuel : rest.length ≤ fuel)
    (hfind : findLoop p buf key fuel c = .ok r) : SearchedTo p key rest r := by
  induction fuel generalizing c rest with
  | zero =>
    obtain rfl := List.length_eq_zero_iff.1 (Nat.le_zero.1 hfuel)
    cases hfind
    exact .done
  | succ fuel ih =>
    by_cases hc : c < buf.length
    · obtain ⟨x, c', hspans⟩ := exists_raw_of_findLoop hc hfind
      have hsize := x.length_bytes
      obtain rfl : rest = x.bytes ++ buf.drop c' := h.drop.symm.trans hspans.left.drop
      rw [List.length_append] at hfuel
      rw [findLoop_raw x h] at hfind
      unfold searchStep at hfind
      cases hcmp : compare x.key key with
      | lt =>
        rw [hcmp] at hfind
        exact .skip x (Std.compare_eq_lt.1 hcmp) (ih h.skip (by omega) hfind)
      | gt =>
        rw [hcmp] at hfind
        cases hfind
        exact .past x _ (Std.compare_eq_gt.1 hcmp)
      | eq =>
        rw [hcmp] at hfind
        dsimp only at hfind
        split_ifs at hfind with htype
        · obtain ⟨entry, hdec, hfind⟩ := bind_eq_ok hfind
          cases hfind
          exact .found x _ (Std.compare_eq_iff_eq.1 hcmp) (.value htype hdec)
        · cases hfind
          exact .found x _ (Std.compare_eq_iff_eq.1 hcmp) (.tombstone htype)
    · have hlen := h.length
      obtain rfl : rest = [] := List.length_eq_zero_iff.1 (by omega)
      unfold findLoop at hfind
      rw [if_neg hc] at hfind
      cases hfind
      exact .done

theorem findLoop_of_searchedTo (h : SearchedTo p key rest r) (hleft : Left buf c rest) (hfuel : rest.length ≤ fuel) :
    findLoop p buf key fuel c = .ok r := by
  have hround : ∀ {x : RawRecord} {rest : Bytes}, (x.bytes ++ rest).length ≤ fuel → ∃ n, fuel = n + 1 := by
    intro x rest hle
    rw [List.length_append, x.length_bytes] at hle
    exact ⟨fuel - 1, by omega⟩
  induction h generalizing c fuel with
  | done =>
    have hlen := hleft.length
    cases fuel with
    | zero => rfl
    | succ fuel =>
      unfold findLoop
      exact if_neg (by rw [List.length_nil] at hlen; omega)
  | past x rest hlt =>
    obtain ⟨n, rfl⟩ := hround hfuel
    rw [findLoop_raw x hleft]
    unfold searchStep
    rw [Std.compare_eq_gt.2 hlt]
    rfl
  | found x rest hkey hentry =>
    obtain ⟨n, rfl⟩ := hround hfuel
    rw [findLoop_raw x hleft]
    unfold searchStep
    rw [Std.compare_eq_iff_eq.2 hkey]
    cases hentry with
    | value htype hdec =>
      rw [if_pos htype, hdec]
      rfl
    | tombstone htype =>
      rw [if_neg htype]
      rfl
  | skip x hlt _ ih =>
    obtain ⟨n, rfl⟩ := hround hfuel
    have hsize := x.length_bytes
    rw [List.length_append] at hfuel
    rw [findLoop_raw x hleft]
    unfold searchStep
    rw [Std.compare_eq_lt.2 hlt]
    refine ih hleft.skip (by omega) fun {x} {rest} hle => ?_
    rw [List.length_append, x.length_bytes] at hle
    exact ⟨n - 1, by omega⟩

/-- **The search of a block** comes to what its bytes say. -/
theorem findInBlock_eq_ok_iff : findInBlock p records key = .ok r ↔ SearchedTo p key records r :=
  ⟨searchedTo_of_findLoop (Left.start _) (Nat.le_refl _),
    fun h => findLoop_of_searchedTo h (Left.start _) (Nat.le_refl _)⟩

/-! ## Blocks -/

/-- A block is good if it is record bytes with their checksum. -/
theorem checkBlock_eq_ok_iff {block : Bytes} :
    checkBlock e block = .ok records ↔ block = records ++ u32Bytes (crc32 records) := by
  unfold checkBlock
  constructor
  · intro h
    dsimp only at h
    split_ifs at h with hshort hcrc
    cases h
    have hlen : (block.drop (block.length - 4)).length = 4 := by
      rw [List.length_drop]
      omega
    have hlt := ofBe_lt (block.drop (block.length - 4))
    have hbytes := beBytes_ofBe (block.drop (block.length - 4))
    rw [hlen] at hlt hbytes
    rw [not_not.1 hcrc]
    unfold u32Bytes
    rw [UInt32.toNat_ofNat_of_lt' hlt, hbytes, List.take_append_drop]
  · rintro rfl
    have hsplit : (records ++ u32Bytes (crc32 records)).length - 4 = records.length := by simp
    rw [if_neg (by simp)]
    dsimp only
    rw [hsplit, List.take_left, List.drop_left, ofNat_ofBe_u32Bytes, if_neg (by simp)]

/-- At the place of an index entry the file has record bytes with their checksum. -/
structure HasBlock (bytes : Bytes) (e : IndexEntry) (records : Bytes) : Prop where
  inside : ReadableAt bytes e.blockOffset.toNat e.blockLen.toNat
  block : (bytes.drop e.blockOffset.toNat).take e.blockLen.toNat = records ++ u32Bytes (crc32 records)

/-! ## Files -/

/-- What the lookup of a key comes to in a file whose header is `t`: the key is out of the range, not in the
filter, or before the first block, or its block says it. -/
inductive Finds (p : Prost) (bytes : Bytes) (t : SsTable) (key : Bytes) : Option Entry → Prop
  | empty (h : t.index = []) : Finds p bytes t key none
  | outside (h : t.outOfRange key = true) : Finds p bytes t key none
  | filtered (hin : t.outOfRange key = false) (h : t.passesBloom key = .ok false) : Finds p bytes t key none
  | before (hin : t.outOfRange key = false) (hpass : t.passesBloom key = .ok true) (h : t.locate key = none) :
      Finds p bytes t key none
  | block {e : IndexEntry} {records : Bytes} {r : Option Entry} (hin : t.outOfRange key = false)
      (hpass : t.passesBloom key = .ok true) (h : t.locate key = some e) (hblock : HasBlock bytes e records)
      (hsearch : SearchedTo p key records r) : Finds p bytes t key r

end FerrumDB
