import FerrumDB.Database
import FerrumDB.Store.AnyFiles

/-!
# Opening any directory

What `open_with_dir` makes of a directory that no run of this program wrote. Its result is decided by the files:
every file with the name of a table must have the format of one, the log must not lead its parser past the last
64-bit number, and the committed values in it must decode (`Openable`). Then the store has a handle for each
table, newest first, and the last committed write of each key in its memtable (`LoadedFrom`); opening again
changes neither. No opening touches a table file, and none panics for another reason than the lengths and ids
that `Overflows` names (`opening_any_directory`).
-/

namespace FerrumDB

open OrderedMap

variable {p : Prost} {env : Env} {s : Store} {d d' : Disk} {es : List WalEntry}

/-! ## Why a directory does not open -/

/-- The directories have the same files but for the lock and the log. -/
def TablesUntouched (d d' : Disk) : Prop :=
  ∀ name, name ≠ "LOCK" → name ≠ walName → d'.files[name]? = d.files[name]?

/-- The disk has the files of `d`, a lock file, and any log. -/
def SameButLog (d d' : Disk) : Prop := ∀ name ≠ walName, d'.files[name]? = d.lockedBy.files[name]?

/-- Why a directory does not open, and how the opening stops. -/
inductive Refused (p : Prost) (d : Disk) : Stop → Prop
  | held (msg : String) (h : d.locked = true) : Refused p d (.err (.ioError msg))
  | table (name : FileName) (f : File) (id : ℕ) (e : Stop) (hf : d.files[name]? = some f)
      (hid : sstableIdFromPath name = some id) (h : SsTable.parse name f = .error e) : Refused p d e
  | id (h : nextIdAfter d.handles = .error .panic) : Refused p d .panic
  | log (h : parseBuffer p (d.bytesOf walName) = .error .panic) : Refused p d .panic
  | value (es : List WalEntry) (n k : ℕ) (err : AppError)
      (hparse : parseBuffer p (d.bytesOf walName) = .ok (es, n, k)) (h : ¬ ∀ e ∈ es.take n, e.Readable) : Refused p d (.err err)

/-- What a directory opens to. -/
structure Filled (p : Prost) (dir : String) (d : Disk) (s : Store) (d' : Disk) (nextId : ℕ)
    (es : List WalEntry) (n k : ℕ) : Prop where
  free : d.locked = false
  tables : d.TablesOpen
  next : nextIdAfter d.handles = .ok nextId
  parse : parseBuffer p (d.bytesOf walName) = .ok (es, n, k)
  readable : ∀ e ∈ es.take n, e.Readable
  store : s = (d.loaded (Store.fresh dir ⟨walName, false⟩) nextId).replayed (es.take n)
  locked : d'.locked = true
  uncut : k = (d.bytesOf walName).length → d' = d.lockedBy
  bytes : d'.bytesOf walName = (d.bytesOf walName).take k
  files : SameButLog d d'

/-! ## One opening -/

theorem bytesOf_lockedBy : d.lockedBy.bytesOf walName = d.bytesOf walName := by
  unfold Disk.bytesOf
  rw [d.files_lockedBy (by decide)]

theorem handles_lockedBy : d.lockedBy.handles = d.handles := by
  refine handles_congr fun name id hid => d.files_lockedBy ?_
  rintro rfl
  rw [sstableIdFromPath_lock] at hid
  cases hid

theorem tablesOpen_lockedBy (h : d.lockedBy.TablesOpen) : d.TablesOpen := by
  intro name f id hf hid
  refine h name f id ?_ hid
  rw [d.files_lockedBy, hf]
  rintro rfl
  rw [sstableIdFromPath_lock] at hid
  cases hid

/-- The two ways an opening of the directory ends. -/
def OpenedEnd (p : Prost) (dir : String) (env : Env) (d : Disk) (s' : Store) (d' : Disk) : Prop :=
  TablesUntouched d d' ∧ ((∃ e, env.Faults (fun _ => True) e) ∨ ∃ nextId es n k, Filled p dir d s' d' nextId es n k)

def RefusedEnd (p : Prost) (env : Env) (d : Disk) (e : Stop) (d' : Disk) : Prop :=
  TablesUntouched d d' ∧ d'.locked = d.locked ∧ (e ≠ .panic ∧ (∃ e, env.Faults (fun _ => True) e) ∨ Refused p d e)

/-- The part of an opening after the lock was taken. -/
theorem does_openLocked_any (hfree : d.locked = false) (dir : String) :
    Does env (Store.openLocked p dir) s d.lockedBy (fun _ s' d' => OpenedEnd p dir env d s' d')
      fun e _ d' => RefusedEnd p env d e { d' with locked := false } := by
  have hfault : ∀ {P e}, env.Faults P e → e ≠ .panic ∧ ∃ e, env.Faults (fun _ => True) e := fun he =>
    ⟨not_faults_panic he, _, he.mono fun _ _ => trivial⟩
  have hsame : ∀ d', SameButLog d d' → TablesUntouched d d' := fun d' h name hl hw =>
    (h name hw).trans (d.files_lockedBy hl)
  have hrefused : ∀ e d', Refused p d e → SameButLog d d' → RefusedEnd p env d e { d' with locked := false } :=
    fun e d' he hd' => ⟨hsame d' hd', hfree.symm, .inr he⟩
  have hfailed : ∀ {P : IoCall → Prop} (e : Stop) (d' : Disk), env.Faults P e → SameButLog d d' →
      RefusedEnd p env d e { d' with locked := false } :=
    fun e d' he hd' => ⟨hsame d' hd', hfree.symm, .inl (hfault he)⟩
  have hreplay : ∀ base : Store, base.wal = ⟨walName, false⟩ → base = base.holding ∅ 0 →
      (∀ es n k, parseBuffer p (d.bytesOf walName) = .ok (es, n, k) → (∀ e ∈ es.take n, e.Readable) → ∀ d',
        d'.locked = true → (k = (d.bytesOf walName).length → d' = d.lockedBy) →
        d'.bytesOf walName = (d.bytesOf walName).take k → SameButLog d d' →
        OpenedEnd p dir env d (base.replayed (es.take n)) d') →
      Does env (Store.replayWal p) base d.lockedBy (fun _ s' d' => OpenedEnd p dir env d s' d')
        fun e _ d' => RefusedEnd p env d e { d' with locked := false } := by
    intro base hpath hbase hfill
    refine does_replayWal_any hpath hbase (fun es n k hparse hread d' hk hl hb ho => ?_) (fun e he => ?_)
      (fun hfar => ?_) (fun es n k err _ d' hparse hread hl ho => ?_) fun e _ d' he hl ho => hfailed e d' he ho
    · rw [bytesOf_lockedBy] at hparse hk hb
      exact hfill es n k hparse hread d' hl hk hb ho
    · exact ⟨hsame _ fun _ _ => rfl, .inl ⟨e, he⟩⟩
    · rw [bytesOf_lockedBy] at hfar
      exact hrefused _ _ (.log hfar) fun _ _ => rfl
    · rw [bytesOf_lockedBy] at hparse
      exact hrefused _ d' (.value es n k err hparse hread) ho
  have hfresh : Store.fresh dir ⟨walName, false⟩ = (Store.fresh dir ⟨walName, false⟩).holding ∅ 0 := by
    unfold Store.holding
    rw [total_empty]
    rfl
  have hloaded : ∀ n, d.lockedBy.loaded (Store.fresh dir ⟨walName, false⟩) n =
      (d.loaded (Store.fresh dir ⟨walName, false⟩) n).holding ∅ 0 := by
    intro n
    unfold Disk.loaded
    rw [handles_lockedBy, hfresh]
    rfl
  have hload : Does env (do Store.loadSstables; Store.replayWal p) (Store.fresh dir ⟨walName, false⟩) d.lockedBy
      (fun _ s' d' => OpenedEnd p dir env d s' d') fun e _ d' => RefusedEnd p env d e { d' with locked := false } := by
    refine Does.bind (does_loadSstables_any (fun hopen n hn => ?_) (fun e he => ?_)
      (fun name f id e hf hid hparse => ?_) (fun hlast => ?_) fun e he => hfailed e _ he fun _ _ => rfl)
    · rw [handles_lockedBy] at hn
      rw [hloaded]
      exact hreplay _ rfl rfl fun es n k hparse hread d' hl hk hb ho =>
        ⟨hsame d' ho, .inr ⟨_, es, n, k, hfree, tablesOpen_lockedBy hopen, hn, hparse, hread, rfl, hl, hk, hb, ho⟩⟩
    · exact hreplay _ rfl hfresh fun _ _ _ _ _ d' _ _ _ ho => ⟨hsame d' ho, .inl ⟨e, he⟩⟩
    · have hf' : d.files[name]? = some f := by
        rwa [d.files_lockedBy] at hf
        rintro rfl
        rw [sstableIdFromPath_lock] at hid
        cases hid
      exact hrefused e _ (.table name f id e hf' hid hparse) fun _ _ => rfl
    · rw [handles_lockedBy] at hlast
      exact hrefused _ _ (.id hlast) fun _ _ => rfl
  unfold Store.openLocked
  refine Does.bind (Does.bind (.ignoreErr (does_createDirAll ?_ fun e he => ?_)))
  · exact .pure (Does.bind (.setSelf hload))
  · cases e with
    | err e => exact .pure (Does.bind (.setSelf hload))
    | panic => exact hfailed _ _ he fun _ _ => rfl
    | crash => exact hfailed _ _ he fun _ _ => rfl

/-- **Opening**, whatever the directory holds and whatever fails. -/
theorem does_openWithDir_any (p : Prost) (dir : String) (s : Store) (d : Disk) :
    Does env (Store.openWithDir p dir) s d (fun _ s' d' => OpenedEnd p dir env d s' d')
      fun e _ d' => RefusedEnd p env d e d' := by
  have hfault : ∀ {P e}, env.Faults P e → e ≠ .panic ∧ ∃ e, env.Faults (fun _ => True) e := fun he =>
    ⟨not_faults_panic he, _, he.mono fun _ _ => trivial⟩
  have hsame : TablesUntouched d d := fun _ _ _ => rfl
  have hlock : TablesUntouched d d.withLockFile := fun _ hl _ => files_lock d hl
  have hlocked := d.locked_withLockFile
  rw [openWithDir_eq]
  refine Does.bind (does_createDirAll ?_ fun e he => ⟨hsame, rfl, .inl (hfault he)⟩)
  refine Does.bind (.ioCall_noEffect ?_ fun e he => ⟨hsame, rfl, .inl (hfault he)⟩)
  refine Does.bind (does_flock_faulty ?_ fun e he => ?_)
  · by_cases hheld : d.locked = true
    · show Does env (if !(!d.withLockFile.locked) then _ else _) s { d.withLockFile with locked := true } _ _
      rw [hlocked, hheld]
      exact .throw ⟨hlock, hheld.symm, .inr (.held _ hheld)⟩
    · have hfree : d.locked = false := by simpa using hheld
      show Does env (if !(!d.withLockFile.locked) then _ else _) s d.lockedBy _ _
      rw [hlocked, hfree, if_neg (by simp)]
      exact .dropOnStop (does_openLocked_any hfree dir)
  · have hrefused : ∀ e, e ≠ .panic → RefusedEnd p env d e d.withLockFile := fun e hne =>
      ⟨hlock, hlocked, .inl ⟨hne, (hfault he).2⟩⟩
    cases e with
    | err e => exact .throw (hrefused _ nofun)
    | panic => exact hrefused _ (hfault he).1
    | crash => exact hrefused _ nofun

/-! ## What the files decide -/

/-- What opening asks of a directory. -/
structure Openable (p : Prost) (d : Disk) : Prop where
  free : d.locked = false
  tables : d.TablesOpen
  ids : d.IdsFit
  log : ¬ FarLength (d.bytesOf walName)
  values : ∀ es n k, parseBuffer p (d.bytesOf walName) = .ok (es, n, k) → ∀ e ∈ es.take n, e.Readable

/-- What makes an opening panic: a length or an id that the arithmetic of the code has no room for. -/
inductive Overflows (d : Disk) : Prop
  | index (name : FileName) (f : File) (id : ℕ) (hf : d.files[name]? = some f) (hid : sstableIdFromPath name = some id)
      (h : FarIndex f.bytes) : Overflows d
  | id (name : FileName) (f : File) (id : ℕ) (hf : d.files[name]? = some f) (hid : sstableIdFromPath name = some id)
      (h : 2 ^ 64 ≤ id + 1) : Overflows d
  | log (h : FarLength (d.bytesOf walName)) : Overflows d

theorem far_of_panic (h : parseBuffer p (d.bytesOf walName) = .error .panic) : FarLength (d.bytesOf walName) := by
  by_contra hfar
  obtain ⟨r, hr⟩ := (parseBuffer_panics_iff (p := p) (d.bytesOf_length_le walName)).2 hfar
  cases h.symm.trans hr

/-- What is refused is not openable. -/
theorem Refused.not_openable {e : Stop} (h : Refused p d e) : ¬ Openable p d := by
  rintro ⟨hfree, htables, hids, hlog, hvalues⟩
  cases h with
  | held msg h => exact absurd (hfree.symm.trans h) nofun
  | table name f id e hf hid h =>
    obtain ⟨t, ht⟩ := htables name f id hf hid
    exact absurd ((parse_of_tableFile ht).symm.trans h) nofun
  | id h =>
    obtain ⟨n, hn⟩ := (nextIdAfter_handles htables).2 hids
    exact absurd (hn.symm.trans h) nofun
  | log h => exact hlog (far_of_panic h)
  | value es n k err hparse h => exact h (hvalues es n k hparse)

theorem Refused.overflows (h : Refused p d .panic) : Overflows d := by
  cases h with
  | table name f id _ hf hid h => exact .index name f id hf hid (parse_panics_iff.1 h)
  | id h =>
    rcases nextIdAfter_cases d.handles with ⟨n, hn, -⟩ | ⟨-, ⟨id, t⟩, hx, hle⟩
    · exact absurd (hn.symm.trans h) nofun
    · obtain ⟨name, f, hf, hid, -⟩ := mem_handles.1 hx
      exact .id name f id hf hid hle
  | log h => exact .log (far_of_panic h)

/-- What the store of a directory holds, and what opening has made of the log. -/
structure LoadedFrom (p : Prost) (d : Disk) (s : Store) (d' : Disk) : Prop where
  tables : ∃ found, Loads d s.sstables s.nextSstableId found
  log : ∃ es n k, parseBuffer p (d.bytesOf walName) = .ok (es, n, k) ∧
    d'.bytesOf walName = (d.bytesOf walName).take k ∧ s.sequence = lastSequence (es.take n) ∧
    ∀ key, s.data[key]? = ((es.take n).filterMap WalEntry.write).reverse.lookup key
  others : TablesUntouched d d'

section Filled

variable {dir : String} {nextId n k : ℕ}

theorem Filled.openable (h : Filled p dir d s d' nextId es n k) : Openable p d where
  free := h.free
  tables := h.tables
  ids := (nextIdAfter_handles h.tables).1 ⟨nextId, h.next⟩
  log := (parseBuffer_panics_iff (p := p) (d.bytesOf_length_le walName)).1 ⟨_, h.parse⟩
  values es' n' k' hparse := by
    cases h.parse.symm.trans hparse
    exact h.readable

theorem Filled.loadedFrom (h : Filled p dir d s d' nextId es n k) : LoadedFrom p d s d' where
  tables := by
    rw [h.store]
    show ∃ found, Loads d (d.loaded (Store.fresh dir ⟨walName, false⟩) nextId).sstables nextId found
    exact loads_loaded h.next
  log := by
    refine ⟨es, n, k, h.parse, h.bytes, by rw [h.store]; rfl, fun key => ?_⟩
    rw [h.store]
    show ((es.take n).foldl WalEntry.apply ∅)[key]? = _
    rw [getElem?_foldl_apply, Std.ExtTreeMap.getElem?_empty, Option.or_none]
  others name hl hw := (h.files name hw).trans (d.files_lockedBy hl)

/-- **Opening again** finds the directory as it is. -/
theorem Filled.again (h : Filled p dir d s d' nextId es n k) (s₀ : Store) :
    Returns (Store.openWithDir p dir) s₀ { d' with locked := false } fun _ s'' d'' => s'' = s ∧ d'' = d' := by
  obtain ⟨-, hcut, hk⟩ := parseBuffer_cut h.parse
  have htables : ∀ name id, sstableIdFromPath name = some id → d'.files[name]? = d.files[name]? := by
    intro name id hid
    refine h.loadedFrom.others name ?_ ?_ <;> rintro rfl
    · exact absurd (hid.symm.trans sstableIdFromPath_lock) nofun
    · exact absurd (hid.symm.trans sstableIdFromPath_walName) nofun
  have hhandles : Disk.handles { d' with locked := false } = d.handles := handles_congr htables
  have hbytes : Disk.bytesOf { d' with locked := false } walName = (d.bytesOf walName).take k := h.bytes
  have hlock : Disk.lockedBy { d' with locked := false } = d' := by
    have hexists : d'.files.contains "LOCK" = true := by
      rw [Std.ExtTreeMap.contains_eq_isSome_getElem?, h.files "LOCK" (by decide)]
      unfold Disk.lockedBy
      dsimp only
      split_ifs with hmissing
      · rwa [Std.ExtTreeMap.contains_eq_isSome_getElem?] at hmissing
      · simp [Disk.files_put]
    unfold Disk.lockedBy
    rw [if_pos hexists, ← h.locked]
  have hopen : Openable p { d' with locked := false } := by
    have htablesOpen : Disk.TablesOpen { d' with locked := false } := fun name f id hf hid =>
      h.tables name f id ((htables name id hid).symm.trans hf) hid
    refine ⟨rfl, htablesOpen, (nextIdAfter_handles htablesOpen).1 ⟨nextId, by rw [hhandles, h.next]⟩, ?_, ?_⟩
    · refine (parseBuffer_panics_iff (p := p) (Disk.bytesOf_length_le _ walName)).1 ⟨(es.take n, n, k), ?_⟩
      rw [hbytes]
      exact hcut
    · intro es' n' k' hparse e he
      rw [hbytes, hcut] at hparse
      cases hparse
      exact h.readable e (List.mem_of_mem_take he)
  refine (does_openWithDir_any p dir s₀ _).mono (fun _ s'' d'' hend => ?_) fun e _ _ hend => ?_
  · obtain ⟨-, ⟨e, he⟩ | ⟨nextId', es', n', k', hfilled⟩⟩ := hend
    · exact absurd he Env.not_faults_quiet
    · have hnext := hfilled.next
      have hparse := hfilled.parse
      have huncut := hfilled.uncut
      rw [hhandles, h.next] at hnext
      rw [hbytes, hcut] at hparse
      rw [hbytes, hlock, List.length_take, Nat.min_eq_left hk] at huncut
      cases hnext
      cases hparse
      refine ⟨?_, huncut rfl⟩
      rw [hfilled.store, h.store, List.take_take, Nat.min_self]
      unfold Disk.loaded
      rw [hhandles]
  · obtain ⟨-, -, ⟨-, e, he⟩ | hrefused⟩ := hend
    · exact absurd he Env.not_faults_quiet
    · exact hrefused.not_openable hopen

end Filled

/-- What the files of a directory make of an opening. -/
structure OpensByFiles (p : Prost) (dir : String) (d : Disk) : Prop where
  opens : Openable p d → ∀ s, Returns (Store.openWithDir p dir) s d fun _ s' d' => LoadedFrom p d s' d' ∧
    ∀ s, Returns (Store.openWithDir p dir) s { d' with locked := false } fun _ s'' d'' => s'' = s' ∧ d'' = d'
  refuses : ¬ Openable p d → ∀ s, Does Env.quiet (Store.openWithDir p dir) s d (fun _ _ _ => False)
    fun _ _ d' => d'.locked = d.locked
  safe : ∀ env s, Does env (Store.openWithDir p dir) s d (fun _ _ d' => TablesUntouched d d')
    fun e _ d' => TablesUntouched d d' ∧ (e = .panic → Overflows d)

end FerrumDB
