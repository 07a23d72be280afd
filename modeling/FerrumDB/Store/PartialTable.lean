import FerrumDB.Reopening
import FerrumDB.Store.Crash
import FerrumDB.SsTable.Lookup

/-!
# A directory with an unfinished table

A crash while a table is written leaves a part of its file, under the newest id. Opening the directory
takes that file like any other, and a lookup in it is a function of its bytes (`SsTable.find`), which
the layout of the bytes decides (`find_eq_ok_iff`). The directory opens to the reads it had before exactly
if the bytes are `Harmless`: they have the format of a table file, and for no key below the memtable do
they change the answer (`reopens_partial_iff`).
-/

namespace FerrumDB

open Overlay

variable {s : Store} {d d' : Disk} {L : Layers} {p : Prost} {dir : String} {junk : List WalEntry}
  {t : Bytes} {f : File} {tb : SsTable} {key : Bytes}

/-! ## Lookups in any file -/

/-- What a lookup on a fresh handle comes to. -/
def SsTable.find (p : Prost) (f : File) (t : SsTable) (key : Bytes) : Except Stop (Option Entry) :=
  if t.index = [] then .ok none
  else if t.outOfRange key then .ok none
  else
    match t.passesBloom key with
    | .error e => .error e
    | .ok false => .ok none
    | .ok true =>
      match t.locate key with
      | none => .ok none
      | some e =>
        match f.readAt e.blockOffset.toNat e.blockLen.toNat with
        | .error msg => .error (.err (.ioError msg))
        | .ok block =>
          match checkBlock e block with
          | .error e => .error e
          | .ok records =>
            match findInBlock p records key with
            | .error e => .error (.err e)
            | .ok r => .ok r

/-- **A lookup** comes to what the bytes of the file say. -/
theorem find_eq_ok_iff {r : Option Entry} : tb.find p f key = .ok r ↔ Finds p f.bytes tb key r := by
  constructor
  · intro h
    unfold SsTable.find at h
    split_ifs at h with hnil hout
    · cases h
      exact .empty hnil
    · cases h
      exact .outside hout
    have hin : tb.outOfRange key = false := by simpa using hout
    split at h
    · cases h
    · next hpass =>
      cases h
      exact .filtered hin hpass
    next hpass =>
    split at h
    · next hloc =>
      cases h
      exact .before hin hpass hloc
    next e hloc =>
    split at h
    · cases h
    next block hread =>
    split at h
    · cases h
    next records hcheck =>
    split at h
    · cases h
    next r' hsearch =>
    cases h
    obtain ⟨hinside, hblock⟩ := readAt_eq_ok_iff.1 hread
    refine .block hin hpass hloc ⟨hinside, ?_⟩ (findInBlock_eq_ok_iff.1 hsearch)
    rw [← checkBlock_eq_ok_iff.1 hcheck, hblock]
  · intro h
    unfold SsTable.find
    cases h with
    | empty hnil => exact if_pos hnil
    | outside hout =>
      rw [if_pos hout]
      exact ite_self _
    | filtered hin hpass =>
      rw [hin, if_neg Bool.false_ne_true, hpass]
      exact ite_self _
    | before hin hpass hloc =>
      rw [hin, if_neg Bool.false_ne_true, hpass, hloc]
      exact ite_self _
    | block hin hpass hloc hblock hsearch =>
      rw [if_neg (locate_ne_nil hloc), hin, if_neg Bool.false_ne_true, hpass, hloc]
      dsimp only
      rw [readAt_eq_ok_iff.2 ⟨hblock.inside, hblock.block.symm⟩]
      dsimp only
      rw [checkBlock_eq_ok_iff.2 rfl]
      dsimp only
      rw [findInBlock_eq_ok_iff.2 hsearch]

/-- A handle without cached blocks answers as `find` does. -/
theorem does_get_fresh (hd : d.files[tb.path]? = some f) {cap : ℕ} (hfresh : tb.cache = BlockCache.new cap)
    {Q : Option Entry → SsTable → Disk → Prop} {E : Stop → SsTable → Disk → Prop}
    (hQ : match tb.find p f key with
      | .ok r => ∀ cache, Q r { tb with cache } d
      | .error e => ∀ cache, E e { tb with cache } d) :
    Does Env.quiet (SsTable.get p key) tb d Q E := by
  unfold SsTable.find at hQ
  unfold SsTable.get
  refine .withSelf ?_
  by_cases hnil : tb.index = []
  · rw [if_pos hnil] at hQ ⊢
    exact .pure (hQ tb.cache)
  rw [if_neg hnil] at hQ ⊢
  by_cases hout : tb.outOfRange key = true
  · rw [if_pos hout] at hQ ⊢
    exact .pure (hQ tb.cache)
  rw [if_neg hout] at hQ ⊢
  cases hbloom : tb.passesBloom key with
  | error e =>
    rw [hbloom] at hQ
    exact Does.bind (.throw (hQ tb.cache))
  | ok b =>
    rw [hbloom] at hQ
    refine Does.bind (.pure ?_)
    cases b with
    | false => exact .pure (hQ tb.cache)
    | true =>
      dsimp only at hQ ⊢
      rw [if_neg (by simp)]
      cases hloc : tb.locate key with
      | none =>
        rw [hloc] at hQ
        exact .pure (hQ tb.cache)
      | some e =>
        rw [hloc] at hQ
        dsimp only at hQ ⊢
        have hmiss : tb.cache.get e.blockOffset = (none, tb.cache) := by
          rw [hfresh]
          simp [BlockCache.get, BlockCache.new]
        unfold SsTable.cachedBlock readBlockFromDisk
        refine Does.bind (.withSelf ?_)
        rw [hmiss]
        refine Does.bind (does_openRead hd ?_ fun e he => absurd he Env.not_faults_quiet)
        refine Does.bind (Does.bind (does_readExactAt hd ?_ fun e he => absurd he Env.not_faults_quiet))
        cases hread : f.readAt e.blockOffset.toNat e.blockLen.toNat with
        | error msg =>
          rw [hread] at hQ
          exact hQ tb.cache
        | ok block =>
          rw [hread] at hQ
          dsimp only at hQ ⊢
          cases hcheck : checkBlock e block with
          | error e =>
            rw [hcheck] at hQ
            exact .throw (hQ tb.cache)
          | ok records =>
            rw [hcheck] at hQ
            dsimp only at hQ
            refine .pure (Does.bind (.modifySelf (.pure ?_)))
            cases hfind : findInBlock p records key with
            | error e =>
              rw [hfind] at hQ
              exact .throw (hQ _)
            | ok r =>
              rw [hfind] at hQ
              exact .pure (hQ _)

/-- On the file of a table, `find` answers from its entries. -/
theorem find_of_holds (hp : p.Lawful) {entries : List Record} (h : f.Holds p entries) (path : FileName)
    (key : Bytes) : (freshTable p path entries).find p f key = .ok (entries.lookup key) := by
  have hd : (Disk.empty.put path f).files[(freshTable p path entries).path]? = some f := by
    rw [Disk.files_put]
    exact if_pos rfl
  have hget : Returns (SsTable.get p key) (freshTable p path entries) (Disk.empty.put path f)
      fun r _ _ => r = entries.lookup key :=
    does_get hp hd h (serves_freshTable _ _) (fun _ _ => rfl) fun _ he => absurd he Env.not_faults_quiet
  cases hfind : (freshTable p path entries).find p f key with
  | error e =>
    have hstop : Does Env.quiet (SsTable.get p key) (freshTable p path entries) (Disk.empty.put path f)
        (fun _ _ _ => False) fun _ _ _ => True :=
      does_get_fresh hd rfl (by rw [hfind]; exact fun _ => trivial)
    exact (hget.not_stops hstop).elim
  | ok r =>
    have hret : Returns (SsTable.get p key) (freshTable p path entries) (Disk.empty.put path f)
        fun r' _ _ => r' = r := does_get_fresh hd rfl (by rw [hfind]; exact fun _ => rfl)
    rw [hget.unique hret]

/-! ## Opening -/

/-- `d'` is `d` with a file `name`, whatever `d` had there. -/
structure Disk.Adds (d : Disk) (name : FileName) (f : File) (d' : Disk) : Prop where
  others : ∀ n ≠ name, d'.files[n]? = d.files[n]?
  added : d'.files[name]? = some f

theorem Disk.adds_put (d : Disk) (name : FileName) (f : File) : d.Adds name f (d.put name f) where
  others n hn := by rw [Disk.files_put, if_neg (Ne.symm hn)]
  added := by simp

theorem Disk.Adds.crash {name : FileName} (h : d.Adds name f d') (keep : FileName → ℕ) :
    (d.crash keep).Adds name (f.crash (keep name)) (d'.crash keep) where
  others n hn := by rw [Disk.files_crash, Disk.files_crash, h.others n hn]
  added := by rw [Disk.files_crash, h.added]; rfl

theorem Disk.Adds.lockedBy {id : ℕ} (h : d.Adds (sstName id) f d') :
    d.lockedBy.Adds (sstName id) f d'.lockedBy where
  others n hn := by
    by_cases hl : n = "LOCK"
    · subst hl
      have hlock := h.others "LOCK" hn
      unfold Disk.lockedBy
      rw [Std.ExtTreeMap.contains_eq_isSome_getElem?, Std.ExtTreeMap.contains_eq_isSome_getElem?, hlock]
      split
      · exact hlock
      · simp
    · rw [d.files_lockedBy hl, d'.files_lockedBy hl, h.others n hn]
  added := by rw [d'.files_lockedBy (sstName_ne_lock id), h.added]

/-- The listing of a directory with one more table file. -/
theorem TablesStored.lists_adds {tables : List (ℕ × Memtable)} (h : TablesStored p d tables) {id : ℕ}
    (hadd : d.Adds (sstName id) f d') (hnew : ∀ x ∈ tables, x.1 < id) (hid : id + 1 < 2 ^ 64)
    (hparse : SsTable.parse (sstName id) f = .ok tb) : Lists d' ((id, tb) :: freshHandles p tables) where
  parse x hx := by
    rcases List.mem_cons.1 hx with rfl | hx
    · exact ⟨f, hadd.added, hparse⟩
    · obtain ⟨y, hy, rfl⟩ := List.mem_map.1 hx
      obtain ⟨g, hg, hholds⟩ := h.table y hy
      have hne : sstName y.1 ≠ sstName id := fun he => by
        have := hnew y hy
        rw [sstName_injective he] at this
        omega
      exact ⟨g, by rw [hadd.others _ hne]; exact hg, parse_of_holds hholds _⟩
  descending := by
    refine List.pairwise_cons.2 ⟨fun x hx => ?_, h.lists.descending⟩
    obtain ⟨y, hy, rfl⟩ := List.mem_map.1 hx
    exact hnew y hy
  ids x hx := by
    rcases List.mem_cons.1 hx with rfl | hx
    · exact hid
    · exact h.lists.ids x hx
  files name g hname := by
    by_cases hn : name = sstName id
    · exact Or.inr (Or.inr ⟨_, List.mem_cons_self .., hn⟩)
    · rw [hadd.others name hn] at hname
      rcases h.lists.files name g hname with h | h | ⟨x, hx, h⟩
      · exact Or.inl h
      · exact Or.inr (Or.inl h)
      · exact Or.inr (Or.inr ⟨x, List.mem_cons_of_mem _ hx, h⟩)

/-- A table file that does not parse stops the loading. -/
theorem stops_openFound {id : ℕ} (hid : id < 2 ^ 64) (hf : d.files[sstName id]? = some f) {e : Stop}
    (hparse : SsTable.parse (sstName id) f = .error e) (names : List FileName)
    (hnames : ∀ n ∈ names, ∃ f, d.files[n]? = some f) (hmem : sstName id ∈ names)
    (found : List (ℕ × SsTable)) :
    Does Env.quiet (Store.openFound names found) s d (fun _ _ _ => False) fun _ _ _ => True := by
  induction names generalizing found with
  | nil => cases hmem
  | cons name names ih =>
    unfold Store.openFound
    have ih := ih fun n hn => hnames n (List.mem_cons_of_mem _ hn)
    by_cases hn : name = sstName id
    · rw [hn, sstableIdFromPath_sstName hid]
      refine Does.bind (does_open hf ?_ fun e he => trivial)
      rw [hparse]
      trivial
    · have hmem : sstName id ∈ names := (List.mem_cons.1 hmem).resolve_left (Ne.symm hn)
      cases sstableIdFromPath name with
      | none => exact ih hmem found
      | some i =>
        obtain ⟨g, hg⟩ := hnames name (List.mem_cons_self ..)
        refine Does.bind (does_open hg ?_ fun e he => trivial)
        cases SsTable.parse name g with
        | ok t => exact ih hmem _
        | error e => trivial

/-- A directory with a table file that does not parse cannot be opened. -/
theorem stops_openWithDir {id : ℕ} (hid : id < 2 ^ 64) (hf : d.files[sstName id]? = some f) {e : Stop}
    (hparse : SsTable.parse (sstName id) f = .error e) (hfree : d.locked = false) :
    Does Env.quiet (Store.openWithDir p dir) s d (fun _ _ _ => False) fun _ _ _ => True := by
  have hf' : d.lockedBy.files[sstName id]? = some f := by rw [d.files_lockedBy (sstName_ne_lock id), hf]
  refine does_openWithDir_start (Env.quiet_spares _) hfree (Does.bind ?_)
  unfold Store.loadSstables
  refine (does_tryReadDir (Env.quiet_spares _)).seq fun r a' d' ⟨hr, ha, hd⟩ => ?_
  subst hr ha hd
  refine Does.bind ((stops_openFound hid hf' hparse _ (fun n hn => ?_) ?_ []).mono
    (fun _ _ _ h => h.elim) fun _ _ _ _ => trivial)
  · exact Option.isSome_iff_exists.1
      (Std.ExtTreeMap.mem_iff_isSome_getElem?.1 (Std.ExtTreeMap.mem_keys.1 hn))
  · rw [Std.ExtTreeMap.mem_keys, Std.ExtTreeMap.mem_iff_isSome_getElem?, hf']
    rfl

/-- The store that a directory with one more table opens to. -/
structure OpenedOver (p : Prost) (s : Store) (d : Disk) (L : Layers) (tb : SsTable) (f : File) : Prop where
  data : s.data = L.data
  newest : s.sstables[0]? = some tb
  rest : s.ServesFrom p d 1 L.tables
  file : d.files[tb.path]? = some f

theorem parse_path {path : FileName} (h : SsTable.parse path f = .ok tb) :
    tb.path = path ∧ tb.cache = BlockCache.new BLOCK_CACHE_CAP := by
  unfold SsTable.parse at h
  dsimp only at h
  split_ifs at h
  split at h
  · cases h
  · split at h
    · cases h
    · split at h
      · cases h
      · cases h
        exact ⟨rfl, rfl⟩

/-- **Opening.** A file that parses becomes the newest table. -/
theorem does_openWithDir_adds (hp : p.Lawful) (h : Stored p d L junk t)
    (hadd : d.Adds (sstName L.nextId) f d') (hbelow : ∀ x ∈ L.tables, x.1 < L.nextId)
    (hid : L.nextId + 1 < 2 ^ 64) (hparse : SsTable.parse (sstName L.nextId) f = .ok tb)
    (hfree : d'.locked = false) :
    Returns (Store.openWithDir p dir) s d' fun _ s' d'' => OpenedOver p s' d'' L tb f := by
  have hadd' := hadd.lockedBy
  have hwal : d'.lockedBy.files[walName]? = d.files[walName]? := by
    rw [d'.files_lockedBy (by decide), hadd.others _ (sstName_ne_walName _).symm]
  have hlists : Lists d'.lockedBy ((L.nextId, tb) :: freshHandles p L.tables) :=
    h.toTablesStored.lockedBy.lists_adds hadd' hbelow hid hparse
  refine does_openWithDir_start (Env.quiet_spares _) hfree ?_
  refine Does.bind (does_loadSstables hlists (Env.quiet_spares _) ?_)
  refine does_replayWal hp (Env.quiet_spares _) (h.toLogStored.frame hwal) ⟨rfl, fun hopen => by cases hopen⟩
    ?_ fun w' d'' hw' hlive hb => ?_
  · unfold Store.holding
    rw [OrderedMap.total_empty]
    rfl
  · have hname : tb.path = sstName L.nextId := (parse_path hparse).1
    refine ⟨rfl, rfl, ⟨freshHandles_forall₂ L.tables, fun x hx => ?_⟩, ?_⟩
    · obtain ⟨g, hg, hholds⟩ := h.table x hx
      have hne : sstName x.1 ≠ sstName L.nextId := fun he => by
        have := hbelow x hx
        rw [sstName_injective he] at this
        omega
      refine ⟨g, ?_, hholds⟩
      rw [hb.others _ (sstName_ne_walName _), d'.files_lockedBy (sstName_ne_lock _), hadd.others _ hne, hg]
    · rw [hname, hb.others _ (sstName_ne_walName _), hadd'.added]

/-! ## Reading -/

/-- What a key reads as with the file on top of the tables. -/
def Layers.getOver (p : Prost) (L : Layers) (tb : SsTable) (f : File) (key : Bytes) :
    Except Stop (Option Value) :=
  match layer L.data key with
  | some e => .ok e.live
  | none =>
    match tb.find p f key with
    | .error e => .error e
    | .ok (some e) => .ok e.live
    | .ok none => .ok (resolve Entry.live (L.tables.map fun t => layer t.2) key)

theorem does_getValue_over (hp : p.Lawful) (h : OpenedOver p s d L tb f) {cap : ℕ}
    (hfresh : tb.cache = BlockCache.new cap) (key : Bytes) :
    Does Env.quiet (Store.getValue p key) s d (fun r _ _ => L.getOver p tb f key = .ok r)
      fun e _ _ => L.getOver p tb f key = .error e := by
  have hdata : s.data[key]? = layer L.data key := by rw [h.data]; rfl
  unfold Store.getValue Layers.getOver
  refine .withSelf ?_
  rw [hdata]
  cases layer L.data key with
  | some e => exact .pure rfl
  | none =>
    have hlen := h.rest.handles.length_eq
    have hhead := (List.getElem?_eq_some_iff.1 h.newest).1
    rw [List.length_drop] at hlen
    obtain ⟨n, hn⟩ : ∃ n, s.sstables.length = n + 1 := ⟨s.sstables.length - 1, by omega⟩
    dsimp only
    rw [hn]
    unfold Store.getFromTables
    refine Does.bind ?_
    unfold Store.onTable
    refine .withSelf ?_
    rw [h.newest]
    refine Does.onField (does_get_fresh h.file hfresh ?_)
    cases hfind : tb.find p f key with
    | error e => exact fun _ => rfl
    | ok r =>
      intro cache
      cases r with
      | some e => exact .pure rfl
      | none =>
        have hrest : Store.ServesFrom p { s with sstables := s.sstables.set 0 { tb with cache } } d 1
            L.tables := ⟨by rw [List.drop_set_of_lt (by omega)]; exact h.rest.handles, h.rest.files⟩
        exact does_getFromTables (k := 1) hp n 0 (by omega) hrest (fun _ _ => rfl)
          fun _ he => absurd he Env.not_faults_quiet

/-- The bytes are those of a table file, and for no key below the memtable do they change the answer. -/
def Harmless (p : Prost) (L : Layers) (bytes : Bytes) : Prop :=
  ∃ t, TableFile (sstName L.nextId) bytes t ∧ ∀ key, layer L.data key = none → ∃ r, Finds p bytes t key r ∧
    ∀ e, r = some e → e.live = resolve Entry.live (L.tables.map fun t => layer t.2) key

theorem getOver_eq_iff (key : Bytes) : L.getOver p tb f key = .ok (L.get key) ↔
    (layer L.data key = none → ∃ r, Finds p f.bytes tb key r ∧
      ∀ e, r = some e → e.live = resolve Entry.live (L.tables.map fun t => layer t.2) key) := by
  simp only [← find_eq_ok_iff]
  unfold Layers.getOver Layers.get Layers.stack
  cases hl : layer L.data key with
  | some e =>
    rw [resolve_cons_some hl]
    exact ⟨fun _ h => (by cases h), fun _ => rfl⟩
  | none =>
    rw [resolve_cons_none hl]
    dsimp only
    cases hfind : tb.find p f key with
    | error e =>
      refine ⟨fun h => (by cases h), fun h => ?_⟩
      obtain ⟨r, hr, -⟩ := h rfl
      cases hr
    | ok r =>
      cases r with
      | none => exact ⟨fun _ _ => ⟨none, rfl, fun e he => by cases he⟩, fun _ => rfl⟩
      | some e =>
        constructor
        · intro h _
          refine ⟨some e, rfl, fun e' he' => ?_⟩
          cases he'
          exact Except.ok.inj h
        · intro h
          obtain ⟨r, hr, hlive⟩ := h rfl
          cases hr
          rw [← hlive e rfl]

/-- **A directory with an unfinished table** opens to the reads of its layers exactly if the bytes of the
file are harmless. -/
theorem reopens_partial_iff (hp : p.Lawful) (h : Stored p d L junk t)
    (hadd : d.Adds (sstName L.nextId) f d') (hbelow : ∀ x ∈ L.tables, x.1 < L.nextId)
    (hid : L.nextId + 1 < 2 ^ 64) (hfree : d'.locked = false) :
    Reopens p dir d' L.get ↔ Harmless p L f.bytes := by
  cases hparse : SsTable.parse (sstName L.nextId) f with
  | error e =>
    constructor
    · intro hopen
      exact ((hopen (Store.fresh dir ⟨walName, false⟩)).not_stops
        (stops_openWithDir (by omega) hadd.added hparse hfree)).elim
    · rintro ⟨tb, htb, -⟩
      rw [parse_of_tableFile htb] at hparse
      cases hparse
  | ok tb =>
    have hopened : ∀ s, Returns (Store.openWithDir p dir) s d' fun _ s' d'' => OpenedOver p s' d'' L tb f :=
      fun s => does_openWithDir_adds hp h hadd hbelow hid hparse hfree
    have hfresh := (parse_path hparse).2
    constructor
    · intro hopen
      refine ⟨tb, tableFile_of_parse hparse, fun key => (getOver_eq_iff key).1 ?_⟩
      have hboth := Returns.and (hopened (Store.fresh dir ⟨walName, false⟩)) (hopen _)
      obtain ⟨_, x, -, hover, hread⟩ := hboth.run 0
      obtain ⟨r, y, -, hrget, hr⟩ := ((hread key).and (does_getValue_over hp hover hfresh key)).run 0
      rw [hr, hrget]
    · rintro ⟨tb', htb', hkeys⟩ s
      have hsame := parse_of_tableFile htb'
      rw [hparse] at hsame
      cases hsame
      refine (hopened s).mono (fun _ s' d'' hover key => ?_) fun _ _ _ he => he
      have hkey := (getOver_eq_iff key).2 (hkeys key)
      refine (does_getValue_over hp hover hfresh key).mono (fun r _ _ hr => ?_) fun e _ _ he => ?_
      · rw [hkey] at hr
        exact (Except.ok.inj hr).symm
      · rw [hkey] at he
        cases he

/-- The whole file of a table is harmless if the table only repeats what keys below the memtable read as. -/
theorem harmless_of_holds (hp : p.Lawful) {m : Memtable} (h : f.Holds p m.toList)
    (hsame : ∀ key e, layer L.data key = none → layer m key = some e →
      e.live = resolve Entry.live (L.tables.map fun t => layer t.2) key) : Harmless p L f.bytes := by
  refine ⟨freshTable p (sstName L.nextId) m.toList, tableFile_of_parse (parse_of_holds h _), fun key hnone => ?_⟩
  refine ⟨layer m key, find_eq_ok_iff.1 ?_, fun e he => hsame key e hnone he⟩
  rw [find_of_holds hp h, lookup_toList]
  rfl

/-- Harmless bytes end in a footer. In a proper part of a table that can only be bytes of its records, its index
or its filter. -/
theorem Harmless.endsInFooter {bytes : Bytes} (h : Harmless p L bytes) :
    FOOTER_LEN ≤ bytes.length ∧ (footerOf bytes).magic = MAGIC ∧ (footerOf bytes).version = VERSION := by
  obtain ⟨t, ht, -⟩ := h
  exact ⟨ht.footer, ht.magic, ht.version⟩

/-- Bytes shorter than a footer are not. -/
theorem not_harmless_of_short {bytes : Bytes} (h : bytes.length < FOOTER_LEN) : ¬ Harmless p L bytes :=
  fun hharmless => Nat.not_le.2 h hharmless.endsInFooter.1

end FerrumDB
