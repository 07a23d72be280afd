import FerrumDB.SsTable.Tiling
import FerrumDB.Oversize

/-!
# The 32-bit fields of a table

A table file is a sequence of pieces: 32-bit fields that stand for a length or a count, and other bytes
(`tablePieces`, `render_tablePieces`). A field is exact if reading it back gives the number it stands for;
all of them are exactly when no number reaches `2 ^ 32`, and only then does a flush clear the log behind a
table that gives every entry back (`flush_exact_iff`).
-/

namespace FerrumDB

open ByteCodec

variable {env : Env} {p : Prost} {entries : List Record} {pieces pieces' : List Piece} {n : ℕ}

/-! ## Pieces -/

/-- A 32-bit field that stands for the number `n`, or other bytes. -/
inductive Piece where
  | len (n : ℕ)
  | raw (bs : Bytes)

def Piece.bytes : Piece → Bytes
  | .len n => u32Bytes (asU32 n)
  | .raw bs => bs

def render (pieces : List Piece) : Bytes := pieces.flatMap Piece.bytes

/-- A byte string behind its length. -/
def prefixedPieces (bs : Bytes) : List Piece := [.len bs.length, .raw bs]

def recordPieces (p : Prost) (e : Record) : List Piece :=
  prefixedPieces e.1 ++ .raw [typeByte e.2] :: prefixedPieces (valueBytes p e.2)

def blockPieces (p : Prost) (g : List Record) : List Piece :=
  g.flatMap (recordPieces p) ++ [.raw (u32Bytes (crc32 (blockBytes p g)))]

/-- The index entries of the blocks `gs`, the first of which starts at `offset`. -/
def indexPieces (p : Prost) : ℕ → List (List Record) → List Piece
  | _, [] => []
  | offset, g :: gs =>
    prefixedPieces (firstKey g) ++ .raw (u64Bytes (asU64 offset)) :: .len ((blockBytes p g).length + 4) ::
      indexPieces p (offset + (sealedBlock p g).length) gs

def rangePieces : Option Bytes → Option Bytes → List Piece
  | some min, some max => prefixedPieces min ++ prefixedPieces max
  | _, _ => []

def bloomPieces : Option BloomFilter → List Piece
  | some b => .raw (u32Bytes b.k) :: prefixedPieces b.bits
  | none => []

def footerPieces (indexOffset indexLen entryCount : ℕ) : List Piece :=
  [.raw (u64Bytes (asU64 indexOffset)), .raw (u64Bytes (asU64 indexLen)), .len entryCount, .raw MAGIC,
    .raw (u32Bytes VERSION)]

/-- The file of a table, piece by piece. -/
def tablePieces (p : Prost) (entries : List Record) : List Piece :=
  (groups p entries).flatMap (blockPieces p) ++ (indexPieces p 0 (groups p entries) ++
    (rangePieces (entries.map Prod.fst).head? (entries.map Prod.fst).getLast? ++
      (bloomPieces (tableBloom entries) ++ footerPieces (dataRegion p (groups p entries)).length
        (tableRegion p entries).length (groups p entries).length)))

@[simp] theorem render_append : render (pieces ++ pieces') = render pieces ++ render pieces' := by
  simp [render]

@[simp] theorem render_cons (piece : Piece) : render (piece :: pieces) = piece.bytes ++ render pieces := rfl

@[simp] theorem render_prefixedPieces (bs : Bytes) : render (prefixedPieces bs) = lenPrefixed bs := by
  simp [render, prefixedPieces, Piece.bytes, lenPrefixed]

theorem render_recordPieces (e : Record) : render (recordPieces p e) = encodeRecord p e.1 e.2 := by
  rw [encodeRecord_eq]
  simp [recordPieces, Piece.bytes]

theorem render_blockPieces (g : List Record) : render (blockPieces p g) = sealedBlock p g := by
  have hrecords : render (g.flatMap (recordPieces p)) = blockBytes p g := by
    induction g with
    | nil => rfl
    | cons e g ih => rw [List.flatMap_cons, render_append, ih, render_recordPieces, blockBytes_cons]
  rw [blockPieces, render_append, hrecords, sealedBlock]
  simp [render, Piece.bytes]

theorem render_indexPieces (offset : ℕ) (gs : List (List Record)) :
    render (indexPieces p offset gs) = (indexFrom p offset gs).flatMap encodeIndexEntry := by
  induction gs generalizing offset with
  | nil => rfl
  | cons g gs ih =>
    simp only [indexPieces, indexFrom, render_append, render_cons, render_prefixedPieces, ih,
      List.flatMap_cons, encodeIndexEntry, Piece.bytes, List.append_assoc]

theorem render_rangePieces (min max : Option Bytes) :
    render (rangePieces min max) = encodeKeyRange min max := by
  cases min with
  | none => rfl
  | some min =>
    cases max with
    | none => rfl
    | some max => simp [rangePieces, encodeKeyRange]

theorem render_bloomPieces (bloom : Option BloomFilter) : render (bloomPieces bloom) = encodeBloom bloom := by
  cases bloom with
  | none => rfl
  | some b => simp [bloomPieces, encodeBloom, Piece.bytes]

theorem render_footerPieces (i l n : ℕ) : render (footerPieces i l n) = footerBytes i l n := by
  simp [render, footerPieces, footerBytes, Piece.bytes]

/-- **The pieces are the file.** -/
theorem render_tablePieces (entries : List Record) :
    render (tablePieces p entries) = (encodeTable p entries).file := by
  have hblocks : ∀ gs : List (List Record), render (gs.flatMap (blockPieces p)) = dataRegion p gs := by
    intro gs
    induction gs with
    | nil => rfl
    | cons g gs ih =>
      rw [List.flatMap_cons, render_append, ih, render_blockPieces]
      rfl
  rw [encodeTable_eq, tablePieces]
  simp only [render_append, hblocks, render_indexPieces, render_rangePieces, render_bloomPieces,
    render_footerPieces]
  simp only [tableRegion, indexRegion, tableIndex, List.append_assoc]

/-! ## Exact fields -/

/-- Every 32-bit field of the file, read back, gives the number it stands for. -/
def FieldsExact (p : Prost) (entries : List Record) (file : Bytes) : Prop :=
  ∀ pre n post, tablePieces p entries = pre ++ .len n :: post →
    ofBe ((file.drop (render pre).length).take 4) = n

/-- No number reaches `2 ^ 32`. -/
def Fit (pieces : List Piece) : Prop := ∀ n, .len n ∈ pieces → n < 2 ^ 32

@[simp] theorem fit_nil : Fit [] := nofun

@[simp] theorem fit_append : Fit (pieces ++ pieces') ↔ Fit pieces ∧ Fit pieces' := by
  unfold Fit
  simp only [List.mem_append, or_imp, forall_and]

@[simp] theorem fit_len_cons : Fit (.len n :: pieces) ↔ n < 2 ^ 32 ∧ Fit pieces := by
  simp [Fit]

@[simp] theorem fit_raw_cons (bs : Bytes) : Fit (.raw bs :: pieces) ↔ Fit pieces := by
  simp [Fit]

@[simp] theorem fit_prefixedPieces (bs : Bytes) : Fit (prefixedPieces bs) ↔ bs.length < 2 ^ 32 := by
  simp [prefixedPieces]

@[simp] theorem fit_flatMap {α : Type} (l : List α) (f : α → List Piece) :
    Fit (l.flatMap f) ↔ ∀ x ∈ l, Fit (f x) := by
  unfold Fit
  simp only [List.mem_flatMap]
  exact ⟨fun h x hx n hn => h n ⟨x, hx, hn⟩, fun h n ⟨x, hx, hn⟩ => h x hx n hn⟩

/-- A field holds its number modulo `2 ^ 32`. -/
theorem read_field (pre post : List Piece) (n : ℕ) :
    ofBe (((render (pre ++ .len n :: post)).drop (render pre).length).take 4) = n % 2 ^ 32 := by
  have hlen : (u32Bytes (asU32 n)).length = 4 := length_u32Bytes _
  have hnat : (asU32 n).toNat = n % 2 ^ 32 := UInt32.toNat_ofNat'
  rw [render_append, render_cons, List.drop_left, Piece.bytes, List.take_left' hlen, u32Bytes, ofBe_beBytes, hnat]
  exact Nat.mod_mod ..

theorem fieldsExact_iff_fit : FieldsExact p entries (encodeTable p entries).file ↔ Fit (tablePieces p entries) := by
  rw [← render_tablePieces]
  constructor
  · intro h n hn
    obtain ⟨pre, post, hsplit⟩ := List.append_of_mem hn
    have hexact := h pre n post hsplit
    rw [hsplit, read_field] at hexact
    omega
  · intro h pre n post hsplit
    have hlt := h n (by rw [hsplit]; simp)
    rw [hsplit, read_field, Nat.mod_eq_of_lt hlt]

theorem fit_indexPieces (offset : ℕ) (gs : List (List Record)) : Fit (indexPieces p offset gs) ↔
    ∀ g ∈ gs, (firstKey g).length < 2 ^ 32 ∧ (blockBytes p g).length + 4 < 2 ^ 32 := by
  induction gs generalizing offset with
  | nil => simp [indexPieces]
  | cons g gs ih => simp only [indexPieces, fit_append, fit_prefixedPieces, fit_raw_cons, fit_len_cons, ih,
      List.forall_mem_cons, and_assoc]

theorem fit_blockPieces (g : List Record) : Fit (blockPieces p g) ↔ ∀ e ∈ g, RecordFits p e := by
  simp [blockPieces, recordPieces, RecordFits]

theorem fit_bloomPieces (entries : List Record) : Fit (bloomPieces (tableBloom entries)) ↔
    entries = [] ∨ (BloomFilter.new entries.length).bits.length < 2 ^ 32 := by
  unfold tableBloom bloomOf
  split
  · next hnil => simp [bloomPieces, List.map_eq_nil_iff.1 hnil]
  · next hne =>
    have hlike := (BloomFilter.foldl_add_like (entries.map Prod.fst)
      (BloomFilter.new (entries.map Prod.fst).length)).1
    rw [List.length_map] at hlike
    simp only [bloomPieces, fit_raw_cons, fit_prefixedPieces, List.length_map, hlike]
    rw [List.map_eq_nil_iff] at hne
    simp [hne]

/-- **The fields are exact if and only if every number fits.** -/
theorem fit_tablePieces (entries : List Record) : Fit (tablePieces p entries) ↔ FieldsFit p entries := by
  have hkey : ∀ k ∈ entries.map Prod.fst, (∀ e ∈ entries, e.1.length < 2 ^ 32) → k.length < 2 ^ 32 := by
    intro k hk h
    obtain ⟨e, he, rfl⟩ := List.mem_map.1 hk
    exact h e he
  simp only [tablePieces, fit_append, fit_flatMap, fit_blockPieces, fit_indexPieces, fit_bloomPieces]
  constructor
  · rintro ⟨hrecords, hindex, -, hbloom, hfooter⟩
    have hrecord : ∀ e ∈ entries, RecordFits p e := by
      intro e he
      rw [← flatten_groups (p := p) entries] at he
      obtain ⟨g, hg, heg⟩ := List.mem_flatten.1 he
      exact hrecords g hg e heg
    refine ⟨fun e he => (hrecord e he).1, fun e he => (hrecord e he).2, fun g hg => (hindex g hg).2, ?_, ?_⟩
    · simpa [footerPieces] using hfooter
    · rcases hbloom with rfl | hbloom
      · decide
      · exact hbloom
  · intro h
    refine ⟨fun g hg e he => ?_, fun g hg => ⟨firstKey_lt h.key hg, h.block g hg⟩, ?_, Or.inr h.bloom, ?_⟩
    · have hmem : e ∈ entries := by
        rw [← flatten_groups (p := p) entries]
        exact List.mem_flatten.2 ⟨g, hg, he⟩
      exact ⟨h.key e hmem, h.value e hmem⟩
    · unfold rangePieces
      split
      · next min max hmin hmax =>
        rw [fit_append, fit_prefixedPieces, fit_prefixedPieces]
        exact ⟨hkey min (List.mem_of_mem_head? hmin) h.key, hkey max (List.mem_of_mem_getLast? hmax) h.key⟩
      · exact fit_nil
    · simpa [footerPieces] using h.count

/-! ## Flushes -/

/-- Every key is looked up as the memtable has it, whatever was looked up before. -/
def GivesBack (p : Prost) (M : Memtable) (t : SsTable) (d : Disk) : Prop :=
  ∀ ks key, Returns (getAfter p ks key) t d fun r _ _ => r = M[key]?

/-- What is asked of the flushes of a memtable: the fields written are exact, and when the log is cleared,
the new table gives the memtable back, to this process and to one that opens its file. -/
structure FlushesExactly (p : Prost) (M : Memtable) : Prop where
  fields : ∀ path (x y : Mem Unit) t, SsTable.flush p path M.toList x = .ok t y →
    ∃ f, y.disk.files[path]? = some f ∧ FieldsExact p M.toList f.bytes
  givesBack : ∀ x y : Mem Store, x.self.data = M → x.self.wal.filePath = walName →
    Store.flushTable p x = .ok () y → ∃ t, y.self.sstables = t :: x.self.sstables ∧
      y.disk.bytesOf walName = [] ∧ GivesBack p M t y.disk ∧
      Returns (SsTable.open t.path) () y.disk fun t' _ d' => GivesBack p M t' d'

/-- The course of a `flushTable` that returns. -/
theorem flushTable_returns {x y : Mem Store} (hpath : x.self.wal.filePath = walName)
    (run : Store.flushTable p x = .ok () y) :
    ∃ hlen : (encodeTable p x.self.data.toList).file.length ≤ maxFileLen, y.self = x.self.flushed p ∧
      (x.disk.put (sstName x.self.nextSstableId) (tableFile p x.self.data.toList hlen)).Becomes walName [] 0
        y.disk := by
  have hroom : Does x.env (Store.flushTable p) x.self x.disk
      (fun _ _ _ => (encodeTable p x.self.data.toList).file.length ≤ maxFileLen ∧
        x.self.nextSstableId + 1 < 2 ^ 64) fun _ _ _ => True := by
    unfold Store.flushTable
    refine .withSelf (does_flush_room.seq ?_)
    rintro _ s' d' ⟨hlen, -, -, -⟩
    by_cases hid : x.self.nextSstableId + 1 < 2 ^ 64
    · refine Does.bind (does_succU64 hid (Does.bind (.setSelf (Does.onField ?_))))
      exact does_clear (fun _ _ => ⟨hlen, hid⟩) (fun _ _ => trivial) fun _ _ _ _ => trivial
    · unfold succU64
      rw [if_neg hid]
      exact Does.bind (.throw trivial)
  obtain ⟨hlen, hid⟩ := hroom.of_ok run
  have hflush : Does x.env (Store.flushTable p) x.self x.disk
      (fun _ s' d' => s' = x.self.flushed p ∧
        (x.disk.put (sstName x.self.nextSstableId) (tableFile p x.self.data.toList hlen)).Becomes walName [] 0 d')
      fun _ _ _ => True :=
    does_flushTable_file hlen hid hpath (fun _ hb => ⟨rfl, hb⟩) (fun _ _ => ⟨trivial, fun _ _ => trivial⟩)
      fun _ _ _ _ => trivial
  exact ⟨hlen, hflush.of_ok run⟩

/-- Exact fields ask for numbers that fit, if the file system has room for the table. -/
theorem FlushesExactly.fieldsFit {M : Memtable} (h : FlushesExactly p M)
    (hlen : (encodeTable p M.toList).file.length ≤ maxFileLen) : FieldsFit p M.toList := by
  obtain ⟨t, y, run⟩ := exists_flush hlen "sstable_1.sst" () Disk.empty
  obtain ⟨hlen', -, hdisk⟩ := flush_returns run
  obtain ⟨f, hf, hexact⟩ := h.fields _ _ y t run
  rw [hdisk, Disk.files_put, if_pos rfl] at hf
  cases hf
  exact (fit_tablePieces _).1 (fieldsExact_iff_fit.1 hexact)

/-- **Lengths.** The flushes of a memtable write exact fields and never clear the log behind a table that
cannot give an entry back, if and only if every length fits its field or the file has no room. -/
theorem flush_exact_iff (hp : p.Lawful) (M : Memtable) : FlushesExactly p M ↔
    ((encodeTable p M.toList).file.length ≤ maxFileLen → FieldsFit p M.toList) := by
  refine ⟨FlushesExactly.fieldsFit, fun hfit => ⟨fun path x y t run => ?_, fun x y hdata hpath run => ?_⟩⟩
  · obtain ⟨hlen, -, hdisk⟩ := flush_returns run
    exact ⟨tableFile p M.toList hlen, by rw [hdisk]; simp, fieldsExact_iff_fit.2 ((fit_tablePieces _).2 (hfit hlen))⟩
  · subst hdata
    obtain ⟨hlen, hself, hb⟩ := flushTable_returns hpath run
    have hholds := holds_tableFile ((hfit hlen).tableFits hlen) (ascending_toList x.self.data)
    have hfile : y.disk.files[sstName x.self.nextSstableId]? = some (tableFile p x.self.data.toList hlen) := by
      rw [hb.others _ (sstName_ne_walName _)]
      simp
    have hgives : GivesBack p x.self.data (freshTable p (sstName x.self.nextSstableId) x.self.data.toList) y.disk := by
      intro ks key
      have hget := returns_getAfter hp hfile hholds (serves_freshTable _ _) ks key
      rwa [lookup_toList] at hget
    refine ⟨_, by rw [hself]; rfl, hb.bytes, hgives, ?_⟩
    refine does_open hfile ?_ fun e he => absurd he Env.not_faults_quiet
    rw [parse_of_holds hholds]
    exact hgives

/-- The sample map is flushed exactly. -/
theorem flush_exact_sampleMap : FlushesExactly Prost.wire sampleMap :=
  (flush_exact_iff wire_lawful sampleMap).2 fun _ => by
    have h := tableFits_sampleMap
    exact ⟨h.key, h.value, h.block, h.count, h.bloom⟩

/-- The block of the big value does not fit. -/
theorem not_flushesExactly_big {n : ℕ} (hn : n = 2 ^ 32) :
    ¬ FlushesExactly Prost.wire ((∅ : Memtable).insert bigKey (.value (bigValue n))) := by
  intro h
  have hfit := h.fieldsFit (by rw [toList_singleton]; exact length_file_big hn)
  rw [toList_singleton] at hfit
  have hblock := hfit.block (bigRecords n) (by rw [groups_singleton]; exact List.mem_singleton_self _)
  rw [blockBytes_big hn, List.length_append, List.length_replicate, hn] at hblock
  omega

/-- **A value of 4 GiB.** `set_value` accepts it and returns, and it has cleared the log behind a table
whose fields are narrowed and whose entry cannot be read. -/
theorem flush_narrows_big :
    ¬ FlushesExactly Prost.wire ((∅ : Memtable).insert bigKey (.value (bigValue (2 ^ 32)))) ∧
      Returns (runOps Prost.wire "db" [.setValue bigKey (bigValue (2 ^ 32))])
        (Store.fresh "db" ⟨walName, false⟩) Disk.empty fun _ s d => d.bytesOf walName = [] ∧
          ∀ value, ¬ Returns (Store.getValue Prost.wire bigKey) s d fun r _ _ => r = value := by
  refine ⟨not_flushesExactly_big rfl, (returns_runOps_big rfl).mono (fun _ s d h => ?_) fun _ _ _ he => he⟩
  exact ⟨h.log, fun value hread => hread.not_stops (E := fun _ _ _ => True)
    (does_getValue_big rfl h (fun _ => trivial) fun _ => Env.not_faults_quiet)⟩

end FerrumDB
