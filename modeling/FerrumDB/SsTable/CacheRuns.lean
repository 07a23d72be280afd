import FerrumDB.SsTable.Malformed
import FerrumDB.Lib.Lru

/-!
# The block cache

A handle reads the blocks of its file through a cache of at most `BLOCK_CACHE_CAP` blocks, a map by block
offset next to a queue of the offsets. The two stay in step (`BlockCache.Coherent`), and the queue is that
of the offsets used last (`Lru.run`). What is cached under an offset is a block of the index that was read
there and passed its checksum. So a lookup answers as it does without a cache (`SsTable.getFromDisk`),
unless the index gives one offset two lengths.
-/

namespace FerrumDB

open CrashLogic

variable {σ α : Type} {p : Prost} {f : File} {c : BlockCache} {o x : UInt64} {bs b : Bytes}

theorem BLOCK_CACHE_CAP_pos : 0 < BLOCK_CACHE_CAP := by decide

/-! ## The map and the queue -/

/-- The queue holds every cached offset once, and nothing else. -/
structure BlockCache.Coherent (c : BlockCache) : Prop where
  nodup : c.lru.Nodup
  mem : ∀ o, o ∈ c.lru ↔ o ∈ c.blocks

theorem BlockCache.coherent_new (cap : ℕ) : (BlockCache.new cap).Coherent :=
  ⟨.nil, fun _ => by simp [BlockCache.new]⟩

theorem BlockCache.Coherent.size (h : c.Coherent) : c.blocks.size = c.lru.length := by
  have hperm : c.blocks.keys.Perm c.lru :=
    (List.perm_ext_iff_of_nodup c.blocks.nodup_keys h.nodup).2 fun o => by
      rw [Std.ExtTreeMap.mem_keys, h.mem]
  rw [← Std.ExtTreeMap.length_keys, hperm.length_eq]

theorem BlockCache.Coherent.touch (h : c.Coherent) (ho : o ∈ c.blocks) : (c.touch o).Coherent := by
  refine ⟨Lru.nodup_touch h.nodup o, fun x => Lru.mem_touch.trans ?_⟩
  rw [h.mem]
  exact or_iff_right_of_imp fun hx => hx ▸ ho

theorem BlockCache.Coherent.insert (h : c.Coherent) (o : UInt64) (bs : Bytes) :
    ({ c with blocks := c.blocks.insert o bs }.touch o : BlockCache).Coherent := by
  refine ⟨Lru.nodup_touch h.nodup o, fun x => Lru.mem_touch.trans ?_⟩
  show x = o ∨ x ∈ c.lru ↔ x ∈ c.blocks.insert o bs
  rw [h.mem, Std.ExtTreeMap.mem_insert, Std.compare_eq_iff_eq, eq_comm]

theorem BlockCache.cap_evict (c : BlockCache) (o : UInt64) : (c.evict o).cap = c.cap := by
  unfold BlockCache.evict
  split
  · split <;> rfl
  · rfl

/-- Making room takes the front of the queue. -/
theorem BlockCache.Coherent.lru_evict (h : c.Coherent) (o : UInt64) :
    (c.evict o).lru = Lru.makeRoom c.cap c.lru o := by
  have hiff : (c.blocks.contains o = false ∧ c.cap ≤ c.blocks.size) ↔ (o ∉ c.lru ∧ c.cap ≤ c.lru.length) := by
    rw [h.size, h.mem, Std.ExtTreeMap.mem_iff_contains, Bool.not_eq_true]
  unfold BlockCache.evict Lru.makeRoom
  by_cases hfull : o ∉ c.lru ∧ c.cap ≤ c.lru.length
  · rw [if_pos hfull, if_pos (hiff.2 hfull)]
    split
    · next hnil => rw [hnil, List.tail_nil]
    · next hcons => rw [hcons, List.tail_cons]
  · rw [if_neg hfull, if_neg fun h => hfull (hiff.1 h)]

theorem BlockCache.Coherent.evict (h : c.Coherent) (o : UInt64) : (c.evict o).Coherent := by
  unfold BlockCache.evict
  split
  · split
    · exact h
    · next old lru hlru =>
      have hnodup := h.nodup
      rw [hlru, List.nodup_cons] at hnodup
      refine ⟨hnodup.2, fun x => ?_⟩
      rw [Std.ExtTreeMap.mem_erase, ← h.mem, hlru, List.mem_cons]
      constructor
      · intro hx
        refine ⟨fun heq => ?_, Or.inr hx⟩
        rw [Std.compare_eq_iff_eq.1 heq] at hnodup
        exact hnodup.1 hx
      · rintro ⟨hne, rfl | hx⟩
        · exact absurd (Std.compare_eq_iff_eq.2 rfl) hne
        · exact hx
  · exact h

/-- An insertion is a use of its offset. -/
theorem BlockCache.Coherent.lru_put (h : c.Coherent) (hcap : 0 < c.cap) (o : UInt64) (bs : Bytes) :
    (c.put o bs).lru = Lru.use c.cap c.lru o := by
  unfold BlockCache.put
  rw [if_neg hcap.ne']
  show (c.evict o).lru.erase o ++ [o] = _
  rw [h.lru_evict]
  rfl

theorem BlockCache.Coherent.put (h : c.Coherent) (o : UInt64) (bs : Bytes) : (c.put o bs).Coherent := by
  unfold BlockCache.put
  split
  · exact h
  · exact (h.evict o).insert o bs

theorem BlockCache.Coherent.mem_put (h : c.Coherent) (hcap : 0 < c.cap) (o : UInt64) (bs : Bytes) :
    x ∈ (c.put o bs).blocks ↔ x = o ∨ x ∈ Lru.makeRoom c.cap c.lru o := by
  rw [← (h.put o bs).mem, h.lru_put hcap]
  exact Lru.mem_touch

/-- An insertion changes no other cached block. -/
theorem BlockCache.getElem?_put (hput : (c.put o bs).blocks[x]? = some b) :
    c.blocks[x]? = some b ∨ x = o ∧ bs = b := by
  have hevict : (c.evict o).blocks[x]? = some b → c.blocks[x]? = some b := by
    unfold BlockCache.evict
    split
    · split
      · exact id
      · rw [Std.ExtTreeMap.getElem?_erase]
        split
        · nofun
        · exact id
    · exact id
  unfold BlockCache.put at hput
  split at hput
  · exact Or.inl hput
  · simp only [BlockCache.touch, Std.ExtTreeMap.getElem?_insert] at hput
    split at hput
    · next heq => exact Or.inr ⟨(Std.compare_eq_iff_eq.1 heq).symm, Option.some.inj hput⟩
    · exact Or.inl (hevict hput)

theorem BlockCache.cap_put (c : BlockCache) (o : UInt64) (bs : Bytes) : (c.put o bs).cap = c.cap := by
  unfold BlockCache.put
  split
  · rfl
  · exact c.cap_evict o

/-! ## Lookups past the cache -/

/-- `SsTable::get`, the record bytes of a block taken from `block`. -/
def SsTable.getWith (block : IndexEntry → Prog SsTable Bytes) (p : Prost) (key : Bytes) :
    Prog SsTable (Option Entry) := do
  let t ← self
  if t.index = [] then return none
  else if t.outOfRange key then return none
  else if !(← ofStop (t.passesBloom key)) then return none
  else
    match t.locate key with
    | none => return none
    | some e => do
      let records ← block e
      ofExcept (findInBlock p records key)

theorem getWith_cachedBlock : SsTable.getWith SsTable.cachedBlock = SsTable.get := rfl

/-- A block read from disk, whatever is cached. -/
def SsTable.diskBlock (e : IndexEntry) : Prog SsTable Bytes := do
  let t ← self
  openRead t.path
  readBlockFromDisk t.path e

/-- A lookup with every block read from disk. -/
def SsTable.getFromDisk : Prost → Bytes → Prog SsTable (Option Entry) := SsTable.getWith SsTable.diskBlock

/-- The block a lookup comes to, if it comes to one. -/
def SsTable.target (t : SsTable) (key : Bytes) : Except Stop (Option IndexEntry) :=
  if t.index = [] then .ok none
  else if t.outOfRange key then .ok none
  else (t.passesBloom key).map fun passes => if passes then t.locate key else none

/-- What a lookup makes of the record bytes of a block. -/
def findIn (p : Prost) (key : Bytes) (records : Bytes) : Prog SsTable (Option Entry) :=
  ofExcept (findInBlock p records key)

theorem getWith_eq (block : IndexEntry → Prog SsTable Bytes) (p : Prost) (key : Bytes) :
    SsTable.getWith block p key = (self >>= fun t => ofStop (t.target key) >>= fun e? =>
      e?.elim (pure none) fun e => block e >>= findIn p key) := by
  unfold SsTable.getWith
  congr 1
  funext t
  unfold SsTable.target
  split
  · rfl
  · split
    · rfl
    · cases t.passesBloom key with
      | error stop => rfl
      | ok passes =>
        cases passes with
        | false => rfl
        | true =>
          cases t.locate key with
          | none => simp [Except.map, ofStop]
          | some e =>
            simp only [Except.map, ofStop, if_true]
            rfl

/-! ## Blocks on disk -/

/-- The record bytes of the block of `e` in the file, its checksum verified. -/
def File.blockOf (f : File) (e : IndexEntry) : Except Stop Bytes :=
  match f.readAt e.blockOffset.toNat e.blockLen.toNat with
  | .error msg => .error (.err (.ioError msg))
  | .ok block => checkBlock e block

/-- A block is given by its offset and its length. -/
theorem File.blockOf_congr {e e' : IndexEntry} (hoff : e'.blockOffset = e.blockOffset)
    (hlen : e'.blockLen = e.blockLen) : f.blockOf e' = f.blockOf e := by
  unfold File.blockOf checkBlock
  rw [hoff, hlen]

/-- What a lookup finds in the file. -/
def SsTable.answer (p : Prost) (f : File) (t : SsTable) (key : Bytes) : Except Stop (Option Entry) := do
  match ← t.target key with
  | none => return none
  | some e => (findInBlock p (← f.blockOf e) key).mapError Stop.err

variable {t t' : SsTable} {d : Disk} {env : Env} {e : IndexEntry} {h : List UInt64} {key : Bytes} {a : σ}

theorem does_readBlock {name : FileName} (hd : d.files[name]? = some f) :
    Does env (readBlockFromDisk name e) a d (fun records a' d' => (a' = a ∧ d' = d) ∧ f.blockOf e = .ok records)
      fun stop a' d' => (a' = a ∧ d' = d) ∧ (f.blockOf e = .error stop ∨ env.Faults (readCalls name) stop) := by
  have hfault : ∀ stop, env.Faults (readCalls name) stop → (a = a ∧ d = d) ∧
      (f.blockOf e = .error stop ∨ env.Faults (readCalls name) stop) := fun stop hs => ⟨⟨rfl, rfl⟩, Or.inr hs⟩
  cases hread : f.readAt e.blockOffset.toNat e.blockLen.toNat with
  | ok block =>
    have hblock : f.blockOf e = checkBlock e block := by unfold File.blockOf; rw [hread]
    exact does_readBlockFromDisk hd hread (fun records hr => ⟨⟨rfl, rfl⟩, hblock.trans hr⟩)
      (fun stop hs => ⟨⟨rfl, rfl⟩, Or.inl (hblock.trans hs)⟩) hfault
  | error msg =>
    unfold readBlockFromDisk
    refine Does.bind (does_readExactAt hd ?_ fun stop hs =>
      hfault stop (hs.mono fun c hc => by rw [hc]; exact ⟨rfl, Or.inr rfl⟩))
    rw [hread]
    refine ⟨⟨rfl, rfl⟩, Or.inl ?_⟩
    unfold File.blockOf
    rw [hread]

theorem does_diskBlock (hd : d.files[t.path]? = some f) :
    Does env (SsTable.diskBlock e) t d (fun records t' d' => (t' = t ∧ d' = d) ∧ f.blockOf e = .ok records)
      fun stop t' d' => (t' = t ∧ d' = d) ∧ (f.blockOf e = .error stop ∨ env.Faults (readCalls t.path) stop) := by
  unfold SsTable.diskBlock
  refine .withSelf (Does.bind (does_openRead hd (does_readBlock hd) fun stop hs => ⟨⟨rfl, rfl⟩, Or.inr ?_⟩))
  exact hs.mono fun c hc => by rw [hc]; exact ⟨rfl, Or.inl rfl⟩

/-! ## Lookups through the cache -/

/-- The cache of `t` after the uses of `h`. -/
structure SsTable.Cached (f : File) (h : List UInt64) (t : SsTable) : Prop where
  cap : t.cache.cap = BLOCK_CACHE_CAP
  coherent : t.cache.Coherent
  lru : t.cache.lru = Lru.run BLOCK_CACHE_CAP h
  verified : ∀ o bs, t.cache.blocks[o]? = some bs → ∃ e ∈ t.index, e.blockOffset = o ∧ f.blockOf e = .ok bs

theorem cached_new (ht : t.cache = BlockCache.new BLOCK_CACHE_CAP) : t.Cached f [] := by
  refine ⟨by rw [ht]; rfl, by rw [ht]; exact BlockCache.coherent_new _, by rw [ht]; rfl, fun o bs hb => ?_⟩
  rw [ht] at hb
  simp [BlockCache.new] at hb

theorem SsTable.Cached.touch (hc : t.Cached f h) (ho : o ∈ t.cache.blocks) :
    SsTable.Cached f (h ++ [o]) { t with cache := t.cache.touch o } := by
  refine ⟨hc.cap, hc.coherent.touch ho, ?_, hc.verified⟩
  rw [Lru.run_concat, ← hc.lru, Lru.use_of_mem ((hc.coherent.mem o).2 ho)]
  rfl

theorem SsTable.Cached.put (hc : t.Cached f h) (he : e ∈ t.index) (hb : f.blockOf e = .ok bs) :
    SsTable.Cached f (h ++ [e.blockOffset]) { t with cache := t.cache.put e.blockOffset bs } := by
  have hcap : 0 < t.cache.cap := by rw [hc.cap]; exact BLOCK_CACHE_CAP_pos
  refine ⟨(t.cache.cap_put ..).trans hc.cap, hc.coherent.put _ bs, ?_, fun x b hx => ?_⟩
  · rw [Lru.run_concat, ← hc.lru, ← hc.cap]
    exact hc.coherent.lru_put hcap _ bs
  · rcases BlockCache.getElem?_put hx with hx | ⟨rfl, rfl⟩
    · exact hc.verified x b hx
    · exact ⟨e, he, rfl, hb⟩

/-- A block comes from the cache or from the disk, and is then the one used last. -/
theorem does_cachedBlock_cached (hd : d.files[t.path]? = some f) (hc : t.Cached f h) (he : e ∈ t.index) :
    Does env (SsTable.cachedBlock e) t d
      (fun records t' d' => (t.After t' ∧ t'.Cached f (h ++ [e.blockOffset]) ∧ d' = d) ∧
        ∃ e' ∈ t.index, e'.blockOffset = e.blockOffset ∧ f.blockOf e' = .ok records)
      fun stop t' d' => (t' = t ∧ d' = d) ∧ (f.blockOf e = .error stop ∨ env.Faults (readCalls t.path) stop) := by
  unfold SsTable.cachedBlock
  refine .withSelf ?_
  cases hb : t.cache.blocks[e.blockOffset]? with
  | some bytes =>
    have hget : t.cache.get e.blockOffset = (some bytes, t.cache.touch e.blockOffset) := by
      unfold BlockCache.get; rw [hb]
    have hmem : e.blockOffset ∈ t.cache.blocks := by
      rw [Std.ExtTreeMap.mem_iff_isSome_getElem?, hb]
      rfl
    rw [hget]
    exact Does.bind (.setSelf (.pure ⟨⟨⟨_, rfl⟩, hc.touch hmem, rfl⟩, hc.verified _ _ hb⟩))
  | none =>
    have hget : t.cache.get e.blockOffset = (none, t.cache) := by unfold BlockCache.get; rw [hb]
    rw [hget]
    refine Does.bind (does_openRead hd ?_ fun stop hs => ⟨⟨rfl, rfl⟩, Or.inr ?_⟩)
    · refine Does.bind ((does_readBlock hd).mono ?_ fun _ _ _ hs => hs)
      rintro records t' d' ⟨⟨rfl, rfl⟩, hblock⟩
      exact Does.bind (.modifySelf (.pure ⟨⟨⟨_, rfl⟩, hc.put he hblock, rfl⟩, e, he, rfl, hblock⟩))
    · exact hs.mono fun c hc => by rw [hc]; exact ⟨rfl, Or.inl rfl⟩

theorem mem_of_target (h : t.target key = .ok (some e)) : e ∈ t.index := by
  unfold SsTable.target at h
  split at h
  · cases h
  · split at h
    · cases h
    · cases hbloom : t.passesBloom key with
      | error stop => rw [hbloom] at h; cases h
      | ok passes =>
        rw [hbloom] at h
        have hloc : (if passes then t.locate key else none) = some e := Except.ok.inj h
        split at hloc
        · unfold SsTable.locate at hloc
          split at hloc
          · exact List.mem_of_getElem? hloc
          · cases hloc
          · exact List.mem_of_getElem? hloc
        · cases hloc

/-- A lookup that takes the blocks of the file finds what is in the file. -/
theorem does_getWith {block : IndexEntry → Prog SsTable Bytes} {P : IoCall → Prop}
    (hblock : ∀ e ∈ t.index, Does env (block e) t d (fun records _ _ => f.blockOf e = .ok records)
      fun stop _ _ => f.blockOf e = .error stop ∨ env.Faults P stop) :
    Does env (SsTable.getWith block p key) t d (fun r _ _ => t.answer p f key = .ok r)
      fun stop _ _ => t.answer p f key = .error stop ∨ env.Faults P stop := by
  rw [getWith_eq]
  refine .withSelf (Does.bind (.ofStop (fun e? htarget => ?_) fun stop hstop => Or.inl ?_))
  · cases e? with
    | none =>
      refine .pure ?_
      unfold SsTable.answer
      rw [htarget]
      rfl
    | some e =>
      have hanswer : t.answer p f key =
          (f.blockOf e).bind fun records => (findInBlock p records key).mapError Stop.err := by
        unfold SsTable.answer
        rw [htarget]
        rfl
      rw [hanswer]
      refine Does.bind ((hblock e (mem_of_target htarget)).mono ?_ ?_)
      · intro records t' d' hrecords
        rw [hrecords]
        exact .ofExcept (fun r hr => by simp [Except.bind, hr, Except.mapError])
          fun stop hs => by simp [Except.bind, hs, Except.mapError]
      · rintro stop t' d' (hs | hs)
        · rw [hs]
          exact Or.inl rfl
        · exact Or.inr hs
  · unfold SsTable.answer
    rw [hstop]
    rfl

/-- What a program returns, or why it stops. -/
def outcome (m : Prog σ α) (s : Mem σ) : Except Stop α :=
  match m s with
  | .ok r _ => .ok r
  | .error stop _ => .error stop

/-- The receiver a program leaves. -/
def receiver (m : Prog σ α) (s : Mem σ) : σ :=
  match m s with
  | .ok _ s' => s'.self
  | .error _ s' => s'.self

theorem Does.outcome {m : Prog σ α} {r? : Except Stop α} {P : IoCall → Prop}
    (hm : Does env m a d (fun r _ _ => r? = .ok r) fun stop _ _ => r? = .error stop ∨ env.Faults P stop) (n : ℕ) :
    outcome m ⟨a, d, env, n⟩ = r? ∨ ∃ stop, env.Faults P stop ∧ outcome m ⟨a, d, env, n⟩ = .error stop := by
  unfold FerrumDB.outcome
  cases hrun : m ⟨a, d, env, n⟩ with
  | ok r s => exact Or.inl (hm.of_ok hrun).symm
  | error stop s =>
    rcases hm.of_error hrun with hs | hs
    · exact Or.inl hs.symm
    · exact Or.inr ⟨stop, hs, rfl⟩

/-- No block offset of the index has two lengths. -/
def SsTable.OneLength (t : SsTable) : Prop :=
  ∀ e ∈ t.index, ∀ e' ∈ t.index, e'.blockOffset = e.blockOffset → e'.blockLen = e.blockLen

theorem outcome_getFromDisk (hd : d.files[t.path]? = some f) (n : ℕ) :
    outcome (SsTable.getFromDisk p key) ⟨t, d, Env.quiet, n⟩ = t.answer p f key := by
  have hget : Does Env.quiet (SsTable.getFromDisk p key) t d (fun r _ _ => t.answer p f key = .ok r)
      fun stop _ _ => t.answer p f key = .error stop ∨ Env.quiet.Faults (readCalls t.path) stop :=
    does_getWith fun e _ => (does_diskBlock hd).mono (fun _ _ _ hr => hr.2) fun _ _ _ hs => hs.2
  exact (hget.outcome n).resolve_right fun ⟨_, hs, _⟩ => Env.not_faults_quiet hs

theorem outcome_get (hd : d.files[t.path]? = some f) (hc : t.Cached f h) (hone : t.OneLength) (n : ℕ) :
    outcome (SsTable.get p key) ⟨t, d, env, n⟩ = t.answer p f key ∨ ∃ stop,
      env.Faults (readCalls t.path) stop ∧ outcome (SsTable.get p key) ⟨t, d, env, n⟩ = .error stop := by
  rw [← getWith_cachedBlock]
  refine Does.outcome (does_getWith fun e he => ?_) n
  refine (does_cachedBlock_cached hd hc he).mono ?_ fun _ _ _ hs => hs.2
  rintro records t' d' ⟨-, e', he', hoff, hblock⟩
  rw [← hblock]
  exact (File.blockOf_congr hoff (hone e he e' he' hoff)).symm

/-- The index of a flushed table: distinct blocks have distinct offsets. -/
theorem oneLength_tableIndex {entries : List Record} (hlen : (encodeTable p entries).file.length ≤ maxFileLen)
    (ht : t.index = tableIndex p entries) : t.OneLength := by
  have hdata : (dataRegion p (groups p entries)).length ≤ maxFileLen := by
    rw [encodeTable_eq] at hlen
    simp only [List.length_append] at hlen
    omega
  have hplace : ∀ {pre g post}, groups p entries = pre ++ g :: post →
      (blockEntry p pre g).blockOffset.toNat = (dataRegion p pre).length := by
    intro pre g post hg
    have hpre : (dataRegion p pre).length ≤ (dataRegion p (groups p entries)).length := by
      rw [hg]
      simp [dataRegion]
    unfold maxFileLen at hdata
    exact toNat_asU64 (by omega)
  intro e he e' he' hoff
  rw [ht] at he he'
  obtain ⟨pre, g, post, hg, rfl⟩ := mem_indexFrom he
  obtain ⟨pre', g', post', hg', rfl⟩ := mem_indexFrom he'
  have hoffNat := congrArg UInt64.toNat hoff
  rw [hplace hg, hplace hg'] at hoffNat
  rcases blocks_apart (p := p) hg hg' with ⟨rfl, rfl⟩ | hbefore | hafter
  · rfl
  · rw [length_sealedBlock] at hbefore
    omega
  · rw [length_sealedBlock] at hafter
    omega

/-! ## Runs -/

/-- The block a lookup takes its records from. -/
def SsTable.used (key : Bytes) (s : Mem SsTable) : List UInt64 :=
  match s.self.target key with
  | .ok (some e) =>
    match SsTable.cachedBlock e s with
    | .ok _ _ => [e.blockOffset]
    | .error _ _ => []
  | _ => []

theorem receiver_findIn (records : Bytes) (s : Mem SsTable) : receiver (findIn p key records) s = s.self := by
  unfold receiver findIn
  cases findInBlock p records key <;> rfl

/-- A lookup leaves the handle as the read of its block does. -/
theorem receiver_get (s : Mem SsTable) : receiver (SsTable.get p key) s = match s.self.target key with
    | .ok (some e) => receiver (SsTable.cachedBlock e) s
    | _ => s.self := by
  have hget : SsTable.get p key s = (ofStop (s.self.target key) >>= fun e? =>
      e?.elim (pure none) fun e => SsTable.cachedBlock e >>= findIn p key) s := by
    rw [← getWith_cachedBlock, getWith_eq]
    rfl
  unfold receiver
  rw [hget]
  cases s.self.target key with
  | error stop => rfl
  | ok e? =>
    cases e? with
    | none => rfl
    | some e =>
      show receiver (SsTable.cachedBlock e >>= findIn p key) s = receiver (SsTable.cachedBlock e) s
      have hbind : (SsTable.cachedBlock e >>= findIn p key) s = EStateM.bind (SsTable.cachedBlock e) (findIn p key) s := rfl
      unfold receiver
      rw [hbind, EStateM.bind]
      cases hrun : SsTable.cachedBlock e s with
      | ok records s' => exact receiver_findIn records s'
      | error stop s' => rfl

theorem cached_get (hd : d.files[t.path]? = some f) (hc : t.Cached f h) (n : ℕ) :
    t.After (receiver (SsTable.get p key) ⟨t, d, env, n⟩) ∧
      (receiver (SsTable.get p key) ⟨t, d, env, n⟩).Cached f (h ++ SsTable.used key ⟨t, d, env, n⟩) := by
  rw [receiver_get]
  unfold SsTable.used
  cases htarget : t.target key with
  | error stop =>
    rw [List.append_nil]
    exact ⟨.refl t, hc⟩
  | ok e? =>
    cases e? with
    | none =>
      rw [List.append_nil]
      exact ⟨.refl t, hc⟩
    | some e =>
      have hdoes : Does env (SsTable.cachedBlock e) t d _ _ := does_cachedBlock_cached hd hc (mem_of_target htarget)
      dsimp only
      unfold receiver
      cases hrun : SsTable.cachedBlock e ⟨t, d, env, n⟩ with
      | ok records s => exact ⟨(hdoes.of_ok hrun).1.1, (hdoes.of_ok hrun).1.2.1⟩
      | error stop s =>
        dsimp only
        rw [(hdoes.of_error hrun).1.1, List.append_nil]
        exact ⟨.refl t, hc⟩

/-- Lookups through a handle of the file `f`, in any environments: the offsets of the blocks they took,
and the handle they leave. -/
inductive Lookups (p : Prost) (f : File) : List UInt64 → SsTable → Prop
  | fresh {t : SsTable} (cache : t.cache = BlockCache.new BLOCK_CACHE_CAP) : Lookups p f [] t
  | get {h : List UInt64} {t : SsTable} {d : Disk} (before : Lookups p f h t)
      (unchanged : d.files[t.path]? = some f) (env : Env) (n : ℕ) (key : Bytes) :
      Lookups p f (h ++ SsTable.used key ⟨t, d, env, n⟩) (receiver (SsTable.get p key) ⟨t, d, env, n⟩)

theorem Lookups.cached (hrun : Lookups p f h t) : t.Cached f h := by
  induction hrun with
  | fresh cache => exact cached_new cache
  | get _ unchanged _ n _ ih => exact (cached_get unchanged ih n).2

/-- What is asked of the cache after the uses of `h`: the queue holds each cached offset once and nothing
else, at most `BLOCK_CACHE_CAP` blocks are cached, each of them a block of the index as it is in the file,
an insertion evicts the block whose last use is oldest if the cache is full and no block if it is not, and
a lookup answers as with every block read from disk, or stops with an I/O failure of its own. -/
structure SsTable.CacheKept (p : Prost) (f : File) (h : List UInt64) (t : SsTable) : Prop where
  once : t.cache.lru.Nodup ∧ ∀ o, o ∈ t.cache.lru ↔ o ∈ t.cache.blocks
  bounded : t.cache.blocks.size ≤ BLOCK_CACHE_CAP
  verified : ∀ o bs, t.cache.blocks[o]? = some bs → ∃ e ∈ t.index, e.blockOffset = o ∧ f.blockOf e = .ok bs
  evicts : ∀ o bs, o ∉ t.cache.blocks → t.cache.blocks.size = BLOCK_CACHE_CAP → ∃ old ∈ t.cache.blocks,
    (∀ x ∈ t.cache.blocks, x ≠ old → Lru.LastUsedBefore h old x) ∧
      ∀ x, x ∈ (t.cache.put o bs).blocks ↔ x = o ∨ x ∈ t.cache.blocks ∧ x ≠ old
  keeps : ∀ o bs, o ∈ t.cache.blocks ∨ t.cache.blocks.size < BLOCK_CACHE_CAP →
    ∀ x, x ∈ (t.cache.put o bs).blocks ↔ x = o ∨ x ∈ t.cache.blocks
  invisible : t.OneLength → ∀ d key n, d.files[t.path]? = some f →
    outcome (SsTable.get p key) ⟨t, d, Env.quiet, n⟩ = outcome (SsTable.getFromDisk p key) ⟨t, d, Env.quiet, n⟩
  faulty : t.OneLength → ∀ d key env n, d.files[t.path]? = some f →
    outcome (SsTable.get p key) ⟨t, d, env, n⟩ = outcome (SsTable.getFromDisk p key) ⟨t, d, Env.quiet, n⟩ ∨
      ∃ stop, env.Faults (readCalls t.path) stop ∧ outcome (SsTable.get p key) ⟨t, d, env, n⟩ = .error stop

theorem SsTable.Cached.evicts (hc : t.Cached f h) (ho : o ∉ t.cache.blocks)
    (hfull : t.cache.blocks.size = BLOCK_CACHE_CAP) (bs : Bytes) : ∃ old ∈ t.cache.blocks,
      (∀ x ∈ t.cache.blocks, x ≠ old → Lru.LastUsedBefore h old x) ∧
        ∀ x, x ∈ (t.cache.put o bs).blocks ↔ x = o ∨ x ∈ t.cache.blocks ∧ x ≠ old := by
  have hlen := hc.coherent.size.symm.trans hfull
  have hnodup := hc.coherent.nodup
  have hsorted := Lru.pairwise_run BLOCK_CACHE_CAP_pos h
  rw [← hc.lru] at hsorted
  have hmem := hc.coherent.mem
  have hput : ∀ x, x ∈ (t.cache.put o bs).blocks ↔ x = o ∨ x ∈ Lru.makeRoom t.cache.cap t.cache.lru o := fun x =>
    hc.coherent.mem_put (by rw [hc.cap]; exact BLOCK_CACHE_CAP_pos) o bs
  unfold Lru.makeRoom at hput
  rw [← hmem] at ho
  rw [if_pos ⟨ho, by rw [hlen, hc.cap]⟩] at hput
  cases hlru : t.cache.lru with
  | nil => rw [hlru] at hlen; cases hlen
  | cons old lru =>
    rw [hlru] at hnodup hsorted hmem hput
    rw [List.nodup_cons] at hnodup
    rw [List.pairwise_cons] at hsorted
    refine ⟨old, (hmem old).1 (List.mem_cons_self ..), fun x hx hne => ?_, fun x => ?_⟩
    · exact hsorted.1 x ((List.mem_cons.1 ((hmem x).2 hx)).resolve_left hne)
    · rw [hput, ← hmem, List.tail_cons, List.mem_cons]
      constructor
      · rintro (hx | hx)
        · exact Or.inl hx
        · exact Or.inr ⟨Or.inr hx, fun heq => hnodup.1 (heq ▸ hx)⟩
      · rintro (hx | ⟨hx, hne⟩)
        · exact Or.inl hx
        · exact Or.inr (hx.resolve_left hne)

theorem SsTable.Cached.keeps (hc : t.Cached f h)
    (hroom : o ∈ t.cache.blocks ∨ t.cache.blocks.size < BLOCK_CACHE_CAP) (bs : Bytes) (x : UInt64) :
    x ∈ (t.cache.put o bs).blocks ↔ x = o ∨ x ∈ t.cache.blocks := by
  rw [hc.coherent.mem_put (by rw [hc.cap]; exact BLOCK_CACHE_CAP_pos), Lru.makeRoom, if_neg, hc.coherent.mem]
  rintro ⟨ho, hfull⟩
  rw [hc.coherent.mem] at ho
  rw [hc.cap, ← hc.coherent.size] at hfull
  exact hroom.elim ho fun hlt => Nat.not_le.2 hlt hfull

/-- **The block cache.** After any lookups through a handle whose file does not change. -/
theorem cache_kept (hrun : Lookups p f h t) : t.CacheKept p f h := by
  have hc := hrun.cached
  refine ⟨⟨hc.coherent.nodup, hc.coherent.mem⟩, ?_, hc.verified, fun o bs ho hfull => hc.evicts ho hfull bs,
    fun o bs hroom => hc.keeps hroom bs, fun hone d key n hd => ?_, fun hone d key env n hd => ?_⟩
  · rw [hc.coherent.size, hc.lru]
    exact Lru.length_run_le BLOCK_CACHE_CAP_pos h
  · rw [outcome_getFromDisk hd]
    exact (outcome_get hd hc hone n).resolve_right fun ⟨_, hs, _⟩ => Env.not_faults_quiet hs
  · rw [outcome_getFromDisk hd]
    exact outcome_get hd hc hone n

/-- A file of one block, which holds one record, and the index `index`. -/
def oneBlockFile (index : List IndexEntry) : File :=
  .append .empty (sealedBlock Prost.wire [([1], .tombstone)] ++ indexRegion index none none none ++
    footerBytes 14 (17 * index.length) index.length)

def oneBlockTable (index : List IndexEntry) : SsTable :=
  ⟨"sstable_1.sst", index, none, none, none, BlockCache.new BLOCK_CACHE_CAP⟩

def oneBlockDisk (index : List IndexEntry) : Disk := Disk.empty.put "sstable_1.sst" (oneBlockFile index)

/-- The handle once the record has been looked up. -/
def oneBlockRead (index : List IndexEntry) : SsTable :=
  receiver (SsTable.get Prost.wire [1]) ⟨oneBlockTable index, oneBlockDisk index, Env.quiet, 0⟩

/-- The index entry of the block. -/
def blockIndex : List IndexEntry := [⟨[1], 0, 14⟩]

/-- A second entry for the block, of another length. -/
def twoLengths : List IndexEntry := blockIndex ++ [⟨[2], 0, 1000⟩]

theorem lookups_oneBlock (index : List IndexEntry)
    (hused : SsTable.used [1] ⟨oneBlockTable index, oneBlockDisk index, Env.quiet, 0⟩ = [0]) :
    Lookups Prost.wire (oneBlockFile index) [0] (oneBlockRead index) := by
  have hrun : Lookups Prost.wire (oneBlockFile index) [] (oneBlockTable index) := .fresh rfl
  have hget := hrun.get (d := oneBlockDisk index) (by simp [oneBlockTable, oneBlockDisk]) Env.quiet 0 [1]
  rwa [hused] at hget

/-- The block is read with one length, and answers for the entry of the other. -/
theorem cache_hides_length : SsTable.parse "sstable_1.sst" (oneBlockFile twoLengths) = .ok (oneBlockTable twoLengths) ∧
    Lookups Prost.wire (oneBlockFile twoLengths) [0] (oneBlockRead twoLengths) ∧
    outcome (SsTable.get Prost.wire [2]) ⟨oneBlockRead twoLengths, oneBlockDisk twoLengths, Env.quiet, 0⟩ = .ok none ∧
    outcome (SsTable.getFromDisk Prost.wire [2]) ⟨oneBlockRead twoLengths, oneBlockDisk twoLengths, Env.quiet, 0⟩ =
      .error (.err (.ioError unexpectedEof)) :=
  ⟨rfl, lookups_oneBlock twoLengths (by decide +kernel), by decide +kernel, by decide +kernel⟩

theorem cache_kept_oneBlock : (oneBlockRead blockIndex).OneLength ∧
    (oneBlockRead blockIndex).CacheKept Prost.wire (oneBlockFile blockIndex) [0] := by
  refine ⟨fun e he e' he' _ => ?_, cache_kept (lookups_oneBlock blockIndex (by decide +kernel))⟩
  have hindex : (oneBlockRead blockIndex).index = blockIndex := by decide +kernel
  rw [hindex, blockIndex, List.mem_singleton] at he he'
  rw [he, he']

end FerrumDB
