import FerrumDB.Disk
import FerrumDB.Lib.ByteCodec
import FerrumDB.Lib.BinarySearch

/-!
# Sorted string tables

`sstable.rs`: the block cache, the bloom filter, the checksum, the writer that lays out data
blocks, index, key range, bloom filter and footer, and the readers. A length is narrowed to its
`u32` field without a check, as the source does.
-/

namespace FerrumDB

open ByteCodec

variable {σ : Type}

def BLOCK_SIZE : ℕ := 4096

/-- The ASCII bytes `FSST`. -/
def MAGIC : Bytes := [0x46, 0x53, 0x53, 0x54]

def VERSION : UInt32 := 3

def FOOTER_LEN : ℕ := 28

def BLOCK_CACHE_CAP : ℕ := 32

def TYPE_VALUE : UInt8 := 0

def TYPE_TOMBSTONE : UInt8 := 1

/-- One entry of the sparse index: it describes a single data block. -/
structure IndexEntry where
  firstKey : Bytes
  blockOffset : UInt64
  blockLen : UInt32
  deriving DecidableEq

/-! ## Block cache -/

/-- A least-recently-used cache of blocks by offset; the front of `lru` is evicted first. -/
structure BlockCache where
  blocks : Std.ExtTreeMap UInt64 Bytes
  lru : List UInt64
  cap : ℕ

def BlockCache.new (cap : ℕ) : BlockCache := ⟨∅, [], cap⟩

/-- Move `offset` to the most-recently-used end. -/
def BlockCache.touch (c : BlockCache) (offset : UInt64) : BlockCache :=
  { c with lru := c.lru.erase offset ++ [offset] }

def BlockCache.get (c : BlockCache) (offset : UInt64) : Option Bytes × BlockCache :=
  match c.blocks[offset]? with
  | none => (none, c)
  | some bytes => (some bytes, c.touch offset)

/-- Make room for a new offset in a full cache. -/
def BlockCache.evict (c : BlockCache) (offset : UInt64) : BlockCache :=
  if c.blocks.contains offset = false ∧ c.cap ≤ c.blocks.size then
    match c.lru with
    | [] => c
    | old :: lru => { c with blocks := c.blocks.erase old, lru }
  else c

def BlockCache.put (c : BlockCache) (offset : UInt64) (bytes : Bytes) : BlockCache :=
  if c.cap = 0 then c
  else
    let c := c.evict offset
    { c with blocks := c.blocks.insert offset bytes }.touch offset

/-! ## Bloom filter -/

/-- A bit array probed by `k` hash functions. -/
structure BloomFilter where
  bits : Bytes
  k : UInt32
  deriving DecidableEq

/-- FNV-1a, 64 bits. -/
def hash64 (bytes : Bytes) : UInt64 :=
  bytes.foldl (fun h b => (h ^^^ b.toUInt64) * 0x00000100000001b3) 0xcbf29ce484222325

def BloomFilter.new (numKeys : ℕ) : BloomFilter :=
  let mBits := max (numKeys * 10) 64
  ⟨List.replicate ((mBits + 7) / 8) 0, 7⟩

/-- The `i`-th bit position of a key: double hashing over one 64-bit hash. -/
def BloomFilter.position (f : BloomFilter) (key : Bytes) (i : ℕ) : ℕ :=
  let m := UInt64.ofNat (f.bits.length * 8)
  let h := hash64 key
  let h1 := h &&& 0xFFFFFFFF
  let h2 := (h >>> 32) ||| 1
  ((h1 + UInt64.ofNat i * h2) % m).toNat

def BloomFilter.positions (f : BloomFilter) (key : Bytes) : List ℕ :=
  (List.range f.k.toNat).map (f.position key)

def BloomFilter.setBit (f : BloomFilter) (bit : ℕ) : BloomFilter :=
  { f with bits := f.bits.modify (bit / 8) (· ||| (1 <<< UInt8.ofNat (bit % 8))) }

def BloomFilter.testBit (f : BloomFilter) (bit : ℕ) : Bool :=
  (f.bits.getD (bit / 8) 0) &&& (1 <<< UInt8.ofNat (bit % 8)) != 0

def BloomFilter.add (f : BloomFilter) (key : Bytes) : BloomFilter :=
  (f.positions key).foldl BloomFilter.setBit f

/-- Membership. With no bits the first position is a remainder by zero. -/
def BloomFilter.maybeContains (f : BloomFilter) (key : Bytes) : Except Stop Bool :=
  if f.bits = [] ∧ f.k ≠ 0 then .error .panic
  else .ok ((f.positions key).all f.testBit)

/-! ## Checksum -/

def crcBit (crc : UInt32) : UInt32 :=
  let lsb := crc &&& 1
  let crc := crc >>> 1
  if lsb = 1 then crc ^^^ 0xEDB88320 else crc

def crcByte (crc : UInt32) (byte : UInt8) : UInt32 := crcBit^[8] (crc ^^^ byte.toUInt32)

def crc32 (data : Bytes) : UInt32 := ~~~(data.foldl crcByte 0xFFFFFFFF)

/-! ## Primitive writers and readers -/

def u32Bytes (v : UInt32) : Bytes := beBytes 4 v.toNat

def u64Bytes (v : UInt64) : Bytes := beBytes 8 v.toNat

/-- `len as u32`. -/
def asU32 (len : ℕ) : UInt32 := UInt32.ofNat len

def asU64 (len : ℕ) : UInt64 := UInt64.ofNat len

def recordEnd : AppError := .decodeError "unexpected end of SSTable record"

def readBytes (buf : Bytes) (len : ℕ) : Reader AppError Bytes := takeBytes recordEnd buf len

def readU8 (buf : Bytes) : Reader AppError UInt8 := fun c => do
  let (bs, c) ← takeBytes recordEnd buf 1 c
  return (bs.headD 0, c)

def readU32 (buf : Bytes) : Reader AppError UInt32 := fun c => do
  let (bs, c) ← takeBytes recordEnd buf 4 c
  return (UInt32.ofNat (ofBe bs), c)

def readU64 (buf : Bytes) : Reader AppError UInt64 := fun c => do
  let (bs, c) ← takeBytes recordEnd buf 8 c
  return (UInt64.ofNat (ofBe bs), c)

/-! ## Records -/

/-- A length-prefixed byte string. -/
def lenPrefixed (bs : Bytes) : Bytes := u32Bytes (asU32 bs.length) ++ bs

def encodeRecord (p : Prost) (key : Bytes) (entry : Entry) : Bytes :=
  lenPrefixed key ++
    match entry with
    | .value v => TYPE_VALUE :: lenPrefixed (p.encodeValue v.toProto)
    | .tombstone => TYPE_TOMBSTONE :: u32Bytes 0

def decodeError {α : Type} (msg : String) : Except AppError α := .error (.decodeError msg)

/-- The value behind the bytes of a record. -/
def decodeValueBytes (p : Prost) (bytes : Bytes) : Except AppError Entry :=
  match p.decodeValue bytes with
  | .error e => decodeError e
  | .ok msg => (Value.fromProto msg).map Entry.value

/-- Decode the record at the cursor. A tombstone's value bytes are not skipped. -/
def decodeRecord (p : Prost) (buf : Bytes) : Reader AppError (Bytes × Entry) := fun c => do
  let (keyLen, c) ← readU32 buf c
  let (key, c) ← readBytes buf keyLen.toNat c
  let (recType, c) ← readU8 buf c
  let (valLen, c) ← readU32 buf c
  if recType = TYPE_VALUE then do
    let (valBytes, c) ← readBytes buf valLen.toNat c
    let entry ← decodeValueBytes p valBytes
    return ((key, entry), c)
  else return ((key, .tombstone), c)

/-- All records of a block; every record takes at least nine bytes. -/
def decodeRecords (p : Prost) (records : Bytes) :
    ℕ → ℕ → List (Bytes × Entry) → Except AppError (List (Bytes × Entry))
  | 0, _, out => .ok out
  | fuel + 1, c, out =>
    if c < records.length then do
      let (record, c) ← decodeRecord p records c
      decodeRecords p records fuel c (out ++ [record])
    else .ok out

/-- Scan a block for an exact key match; the scan stops once it passes the target. -/
def findLoop (p : Prost) (records key : Bytes) : ℕ → ℕ → Except AppError (Option Entry)
  | 0, _ => .ok none
  | fuel + 1, c =>
    if c < records.length then do
      let (keyLen, c) ← readU32 records c
      let (recKey, c) ← readBytes records keyLen.toNat c
      let (recType, c) ← readU8 records c
      let (valLen, c) ← readU32 records c
      let (valBytes, c) ← readBytes records valLen.toNat c
      match compare recKey key with
      | .eq =>
        if recType = TYPE_VALUE then do
          let entry ← decodeValueBytes p valBytes
          return some entry
        else return some .tombstone
      | .gt => return none
      | .lt => findLoop p records key fuel c
    else .ok none

def findInBlock (p : Prost) (records key : Bytes) : Except AppError (Option Entry) :=
  findLoop p records key records.length 0

/-! ## Writing -/

/-- The variables of the block loop of `SsTable::flush`. -/
structure Writer where
  file : Bytes
  index : List IndexEntry
  block : Bytes
  blockFirstKey : Option Bytes
  blockOffset : UInt64
  minKey : Option Bytes
  maxKey : Option Bytes
  keys : List Bytes

def Writer.new : Writer := ⟨[], [], [], none, 0, none, none, []⟩

/-- Close the current block: append it with its checksum and index it. -/
def Writer.finalizeBlock (w : Writer) : Writer :=
  { w with
    file := w.file ++ w.block ++ u32Bytes (crc32 w.block)
    index := w.index ++ [⟨w.blockFirstKey.getD [], w.blockOffset, asU32 (w.block.length + 4)⟩]
    block := []
    blockFirstKey := none }

/-- Note a key: the key range and the keys of the bloom filter. -/
def Writer.noteKey (w : Writer) (key : Bytes) : Writer :=
  { w with
    minKey := some (w.minKey.getD key)
    maxKey := some key
    keys := w.keys ++ [key] }

/-- Start a block at `key` if none is open. -/
def Writer.startBlock (w : Writer) (key : Bytes) : Writer :=
  if w.block = [] then
    { w with blockFirstKey := some key, blockOffset := asU64 w.file.length }
  else w

/-- One round of the block loop. -/
def Writer.add (p : Prost) (w : Writer) (e : Bytes × Entry) : Writer :=
  let w := (w.noteKey e.1).startBlock e.1
  let w := { w with block := w.block ++ encodeRecord p e.1 e.2 }
  if w.block.length ≥ BLOCK_SIZE then w.finalizeBlock else w

/-- Flush the trailing partial block. -/
def Writer.finish (w : Writer) : Writer := if w.block = [] then w else w.finalizeBlock

def encodeIndexEntry (e : IndexEntry) : Bytes :=
  lenPrefixed e.firstKey ++ u64Bytes e.blockOffset ++ u32Bytes e.blockLen

def encodeKeyRange : Option Bytes → Option Bytes → Bytes
  | some min, some max => lenPrefixed min ++ lenPrefixed max
  | _, _ => []

def encodeBloom : Option BloomFilter → Bytes
  | some b => u32Bytes b.k ++ lenPrefixed b.bits
  | none => []

/-- What a flush writes and keeps in memory. -/
structure Image where
  file : Bytes
  index : List IndexEntry
  minKey : Option Bytes
  maxKey : Option Bytes
  bloom : Option BloomFilter

/-- The filter over all keys, none for an empty table. -/
def bloomOf (keys : List Bytes) : Option BloomFilter :=
  if keys = [] then none else some (keys.foldl BloomFilter.add (BloomFilter.new keys.length))

/-- The file of a sorted sequence of entries, and the parts a handle keeps of it. -/
def encodeTable (p : Prost) (entries : List (Bytes × Entry)) : Image :=
  let w := (entries.foldl (Writer.add p) Writer.new).finish
  let bloom := bloomOf w.keys
  let indexRegion := w.index.flatMap encodeIndexEntry ++ encodeKeyRange w.minKey w.maxKey ++
    encodeBloom bloom
  { file := w.file ++ indexRegion ++ u64Bytes (asU64 w.file.length) ++
      u64Bytes (asU64 indexRegion.length) ++ u32Bytes (asU32 w.index.length) ++ MAGIC ++
      u32Bytes VERSION
    index := w.index
    minKey := w.minKey
    maxKey := w.maxKey
    bloom }

/-- An open table: its sparse index, key range and filter in memory, the blocks on disk. -/
structure SsTable where
  path : FileName
  index : List IndexEntry
  minKey : Option Bytes
  maxKey : Option Bytes
  bloom : Option BloomFilter
  cache : BlockCache

/-- Write a sorted sequence of entries to a new file, fsync it and return the open table. -/
def SsTable.flush (p : Prost) (path : FileName) (entries : List (Bytes × Entry)) :
    Prog σ SsTable := do
  createDirAll
  let img := encodeTable p entries
  openTruncate path
  writeAll path img.file
  syncAll path
  return ⟨path, img.index, img.minKey, img.maxKey, img.bloom, BlockCache.new BLOCK_CACHE_CAP⟩

/-! ## Opening -/

/-- The fields of a footer. -/
structure Footer where
  indexOffset : UInt64
  indexLen : UInt64
  entryCount : UInt32
  magic : Bytes
  version : UInt32

def Footer.parse (footer : Bytes) : Footer where
  indexOffset := UInt64.ofNat (ofBe (footer.take 8))
  indexLen := UInt64.ofNat (ofBe ((footer.drop 8).take 8))
  entryCount := UInt32.ofNat (ofBe ((footer.drop 16).take 4))
  magic := (footer.drop 20).take 4
  version := UInt32.ofNat (ofBe ((footer.drop 24).take 4))

def readIndexEntry (buf : Bytes) : Reader AppError IndexEntry := fun c => do
  let (keyLen, c) ← readU32 buf c
  let (firstKey, c) ← readBytes buf keyLen.toNat c
  let (blockOffset, c) ← readU64 buf c
  let (blockLen, c) ← readU32 buf c
  return (⟨firstKey, blockOffset, blockLen⟩, c)

def readIndex (buf : Bytes) : ℕ → List IndexEntry → Reader AppError (List IndexEntry)
  | 0, index, c => .ok (index, c)
  | n + 1, index, c => do
    let (e, c) ← readIndexEntry buf c
    readIndex buf n (index ++ [e]) c

/-- The key range and the filter, absent together when nothing follows the index entries. -/
def readRangeAndBloom (buf : Bytes) (c : ℕ) :
    Except AppError (Option Bytes × Option Bytes × Option BloomFilter) :=
  if c < buf.length then do
    let (minLen, c) ← readU32 buf c
    let (min, c) ← readBytes buf minLen.toNat c
    let (maxLen, c) ← readU32 buf c
    let (max, c) ← readBytes buf maxLen.toNat c
    let (k, c) ← readU32 buf c
    let (bitsLen, c) ← readU32 buf c
    let (bits, _) ← readBytes buf bitsLen.toNat c
    return (some min, some max, some ⟨bits, k⟩)
  else return (none, none, none)

/-- Open an existing table: read the footer, check it, and load the sparse index. -/
def SsTable.open (path : FileName) : Prog σ SsTable := do
  openRead path
  let len ← fileLen path
  if len < FOOTER_LEN then fail (.decodeError "SSTable smaller than footer")
  else do
    let footer := Footer.parse (← readExactAt path (len - FOOTER_LEN) FOOTER_LEN)
    if footer.magic ≠ MAGIC then fail (.decodeError "not a FerrumDB SSTable (bad magic)")
    else if footer.version ≠ VERSION then
      fail (.decodeError s!"unsupported SSTable version {footer.version.toNat}")
    -- the seek to the index comes before the allocation of its buffer
    else if footer.indexOffset.toNat ≤ maxFileLen ∧ footer.indexLen.toNat > maxFileLen then panics
    else do
      let buf ← readExactAt path footer.indexOffset.toNat footer.indexLen.toNat
      let (index, c) ← ofExcept (readIndex buf footer.entryCount.toNat [] 0)
      let (minKey, maxKey, bloom) ← ofExcept (readRangeAndBloom buf c)
      return ⟨path, index, minKey, maxKey, bloom, BlockCache.new BLOCK_CACHE_CAP⟩

/-! ## Reading -/

def crcMismatch (offset : UInt64) : AppError :=
  .decodeError s!"SSTable block CRC mismatch at offset {offset.toNat}"

/-- The record bytes of a block read from disk, its checksum verified and stripped. A block length
below four underflows. -/
def checkBlock (e : IndexEntry) (block : Bytes) : Except Stop Bytes :=
  if block.length < 4 then .error .panic
  else
    let split := block.length - 4
    if crc32 (block.take split) ≠ UInt32.ofNat (ofBe (block.drop split)) then
      .error (.err (crcMismatch e.blockOffset))
    else .ok (block.take split)

def readBlockFromDisk (path : FileName) (e : IndexEntry) : Prog σ Bytes := do
  let block ← readExactAt path e.blockOffset.toNat e.blockLen.toNat
  ofStop (checkBlock e block)

/-- One block's record bytes, from the cache or from the disk. -/
def SsTable.cachedBlock (e : IndexEntry) : Prog SsTable Bytes := do
  let t ← self
  match t.cache.get e.blockOffset with
  | (some bytes, cache) => do
    setSelf { t with cache }
    return bytes
  | (none, _) => do
    openRead t.path
    let records ← readBlockFromDisk t.path e
    modifySelf fun t => { t with cache := t.cache.put e.blockOffset records }
    return records

/-- Whether the key range of the table excludes `key`. -/
def SsTable.outOfRange (t : SsTable) (key : Bytes) : Bool :=
  match t.minKey, t.maxKey with
  | some min, some max => key < min || max < key
  | _, _ => false

/-- Whether the filter lets `key` through. -/
def SsTable.passesBloom (t : SsTable) (key : Bytes) : Except Stop Bool :=
  match t.bloom with
  | some bloom => bloom.maybeContains key
  | none => .ok true

/-- The block whose first key is the largest one not above `key`. -/
def SsTable.locate (t : SsTable) (key : Bytes) : Option IndexEntry :=
  match BinarySearch.search (fun e => compare e.firstKey key) t.index with
  | .ok i => t.index[i]?
  | .error 0 => none
  | .error (i + 1) => t.index[i]?

/-- Look up a key: `none` if the table does not hold it, its tombstone if it is deleted. -/
def SsTable.get (p : Prost) (key : Bytes) : Prog SsTable (Option Entry) := do
  let t ← self
  if t.index = [] then return none
  else if t.outOfRange key then return none
  else if !(← ofStop (t.passesBloom key)) then return none
  else
    match t.locate key with
    | none => return none
    | some e => do
      let records ← SsTable.cachedBlock e
      ofExcept (findInBlock p records key)

/-- The entries of the blocks of `index`, after those of `out`. -/
def readBlocks (p : Prost) (path : FileName) :
    List IndexEntry → List (Bytes × Entry) → Prog σ (List (Bytes × Entry))
  | [], out => pure out
  | e :: index, out => do
    let records ← readBlockFromDisk path e
    let out ← ofExcept (decodeRecords p records records.length 0 out)
    readBlocks p path index out

/-- Every entry of the table in key order, read past the cache. -/
def SsTable.readAllEntries (p : Prost) (t : SsTable) : Prog σ (List (Bytes × Entry)) := do
  if t.index = [] then return []
  else do
    openRead t.path
    readBlocks p t.path t.index []

def SsTable.keyRange (t : SsTable) : Option (Bytes × Bytes) :=
  match t.minKey, t.maxKey with
  | some min, some max => some (min, max)
  | _, _ => none

/-- The filter's answer; an empty table contains nothing. -/
def SsTable.mightContain (t : SsTable) (key : Bytes) : Except Stop Bool :=
  match t.bloom with
  | some bloom => bloom.maybeContains key
  | none => .ok false

end FerrumDB
