import FerrumDB.SsTable.WellFormed
import FerrumDB.Store.Open
import FerrumDB.Wal.Malformed
import FerrumDB.Wal.Recovery

/-!
# Loading any files

The two halves of an opening, on files that no run of this program wrote. The tables are the files with their
names, if each has the format (`does_loadSstables_any`); the log is cut after its last COMMIT, and what is left
is replayed, the last write of each key being the one that stays (`does_replayWal_any`,
`getElem?_foldl_apply`). What is left parses to itself (`parseBuffer_cut`).
-/

namespace FerrumDB

open ByteCodec FramedLog

variable {p : Prost} {env : Env} {s base : Store} {d d' : Disk} {w : Wal} {buffer : Bytes} {e : WalEntry}
  {es log : List WalEntry}

/-! ## Replaying any entries -/

/-- The value of a PUT decodes, if it has one. -/
def WalEntry.Readable (e : WalEntry) : Prop := e.op = .put → ∀ msg ∈ e.value, ∃ v, Value.fromProto msg = .ok v

/-- What the entry writes when its batch commits. -/
def WalEntry.write (e : WalEntry) : Option (Bytes × Entry) :=
  match e.op with
  | .put => e.value.bind fun msg => (Value.fromProto msg).toOption.map fun v => (e.key, .value v)
  | .delete => some (e.key, .tombstone)
  | .commit => none

def WalEntry.apply (m : Memtable) (e : WalEntry) : Memtable := (e.write.map fun w => m.insert w.1 w.2).getD m

/-- An entry that can be read is replayed as its write. -/
theorem replayEntry_readable (h : s.Counted) (he : e.Readable) :
    s.replayEntry e = .ok (s.holding (e.apply s.data) (max s.sequence e.sequence)) := by
  have hsame : s.holding s.data (max s.sequence e.sequence) = { s with sequence := max s.sequence e.sequence } := by
    unfold Store.Counted at h
    unfold Store.holding
    rw [← h]
  unfold Store.replayEntry WalEntry.apply WalEntry.write
  cases hop : e.op with
  | commit => simp [hsame, bind, Except.bind, pure, Except.pure]
  | delete => simp [memtableInsert_eq h, Store.holding, bind, Except.bind, pure, Except.pure]
  | put =>
    cases hv : e.value with
    | none => simp [hsame, bind, Except.bind, pure, Except.pure]
    | some msg =>
      obtain ⟨v, hmsg⟩ := he hop msg hv
      simp [hmsg, memtableInsert_eq h, Store.holding, Except.toOption, bind, Except.bind, pure, Except.pure]

/-- Any other stops the replay with the error of its value. -/
theorem replayEntry_unreadable (he : ¬ e.Readable) : ∃ err, s.replayEntry e = .error (.err err) := by
  simp only [WalEntry.Readable, not_forall, not_exists] at he
  obtain ⟨hop, msg, hv, hmsg⟩ := he
  cases hdec : Value.fromProto msg with
  | ok v => exact absurd hdec (hmsg v)
  | error err =>
    refine ⟨err, ?_⟩
    unfold Store.replayEntry
    rw [hop, Option.mem_def.1 hv]
    simp [hdec, bind, Except.bind]

theorem foldlM_readable (h : s.Counted) (hes : ∀ e ∈ es, e.Readable) : es.foldlM Store.replayEntry s =
    .ok (s.holding (es.foldl WalEntry.apply s.data) (es.foldl (fun m e => max m e.sequence) s.sequence)) := by
  induction es generalizing s with
  | nil =>
    rw [List.foldlM_nil, List.foldl_nil, List.foldl_nil, holding_self h]
    rfl
  | cons e es ih =>
    rw [List.foldlM_cons, replayEntry_readable h (hes e (List.mem_cons_self ..))]
    exact ih (counted_holding _ _ _) fun e' he' => hes e' (List.mem_cons_of_mem _ he')

theorem foldlM_unreadable (h : s.Counted) (hes : ¬ ∀ e ∈ es, e.Readable) :
    ∃ err, es.foldlM Store.replayEntry s = .error (.err err) := by
  induction es generalizing s with
  | nil => exact absurd nofun hes
  | cons e es ih =>
    rw [List.foldlM_cons]
    by_cases he : e.Readable
    · rw [replayEntry_readable h he]
      exact ih (counted_holding _ _ _) fun hall => hes (List.forall_mem_cons.2 ⟨he, hall⟩)
    · obtain ⟨err, herr⟩ := replayEntry_unreadable (s := s) he
      exact ⟨err, by rw [herr]; rfl⟩

/-- Buffering up to a COMMIT does not change what is replayed, or in which order. -/
theorem replayEntries_concat {c : WalEntry} (hc : c.op = .commit) (pending : List WalEntry) (s : Store) :
    Store.replayEntries (es ++ [c]) pending s = (pending ++ es ++ [c]).foldlM Store.replayEntry s := by
  have hcommit : ∀ {e : WalEntry}, e.op = .commit → ∀ s : Store,
      s.replayEntry e = .ok { s with sequence := max s.sequence e.sequence } := by
    intro e he s
    unfold Store.replayEntry
    rw [he]
    rfl
  induction es generalizing pending s with
  | nil =>
    rw [List.nil_append, List.append_nil, Store.replayEntries, hc, List.foldlM_append]
    cases pending.foldlM Store.replayEntry s with
    | error err => rfl
    | ok t => simp [hcommit hc, Store.replayEntries, bind, Except.bind, pure, Except.pure]
  | cons e es ih =>
    rw [List.cons_append, Store.replayEntries]
    cases hop : e.op with
    | commit =>
      dsimp only
      rw [List.append_cons, List.append_assoc, List.foldlM_append, List.foldlM_append]
      cases pending.foldlM Store.replayEntry s with
      | error err => rfl
      | ok t => simp [hcommit hop, ih, bind, Except.bind, pure, Except.pure]
    | put => simp [ih]
    | delete => simp [ih]

theorem replayEntries_closed (h : Closed isCommit log) (s : Store) :
    Store.replayEntries log [] s = log.foldlM Store.replayEntry s := by
  rcases closed_cases h with rfl | ⟨es, c, rfl, hc⟩
  · rfl
  · rw [replayEntries_concat hc, List.nil_append]

/-- The memtable holds the last write of each key. -/
theorem getElem?_foldl_apply (m : Memtable) (key : Bytes) :
    (es.foldl WalEntry.apply m)[key]? = ((es.filterMap WalEntry.write).reverse.lookup key).or m[key]? := by
  induction es using List.reverseRecOn with
  | nil => rfl
  | append_singleton es e ih =>
    rw [List.foldl_append, List.foldl_cons, List.foldl_nil, List.filterMap_append, List.reverse_append]
    cases hw : e.write with
    | none => simp [WalEntry.apply, hw, ih]
    | some w =>
      obtain ⟨k, entry⟩ := w
      simp only [WalEntry.apply, hw, Option.map_some, Option.getD_some, Std.ExtTreeMap.getElem?_insert,
        List.filterMap_cons, List.filterMap_nil, List.reverse_singleton, List.singleton_append, List.lookup_cons,
        Std.compare_eq_iff_eq]
      by_cases hk : k = key
      · simp [hk]
      · simp [hk, beq_eq_false_iff_ne.2 (Ne.symm hk), ih]

/-! ## The tables of a directory -/

/-- The handle that the file opens to, with the id in its name. -/
def Disk.handle (d : Disk) (name : FileName) : Option (ℕ × SsTable) :=
  (sstableIdFromPath name).bind fun id => d.files[name]?.bind fun f =>
    (SsTable.parse name f).toOption.map fun t => (id, t)

def Disk.handles (d : Disk) : List (ℕ × SsTable) := d.files.keys.filterMap d.handle

theorem handle_eq_some {name : FileName} {id : ℕ} {t : SsTable} : d.handle name = some (id, t) ↔
    sstableIdFromPath name = some id ∧ ∃ f, d.files[name]? = some f ∧ TableFile name f.bytes t := by
  have hparse : ∀ f t, (SsTable.parse name f).toOption = some t ↔ TableFile name f.bytes t := by
    intro f t
    constructor
    · intro h
      cases hp : SsTable.parse name f with
      | ok t' =>
        rw [hp] at h
        cases h
        exact tableFile_of_parse hp
      | error e => rw [hp] at h; cases h
    · intro h
      rw [parse_of_tableFile h]
      rfl
  simp only [Disk.handle, Option.bind_eq_some_iff, Option.map_eq_some_iff, Prod.mk.injEq, hparse]
  constructor
  · rintro ⟨_, hid, f, hf, _, ht, rfl, rfl⟩
    exact ⟨hid, f, hf, ht⟩
  · rintro ⟨hid, f, hf, ht⟩
    exact ⟨id, hid, f, hf, t, ht, rfl, rfl⟩

/-- The files with the name of a table have its format. -/
def Disk.TablesOpen (d : Disk) : Prop :=
  ∀ name f id, d.files[name]? = some f → sstableIdFromPath name = some id → ∃ t, TableFile name f.bytes t

/-- The names are those of files, and those of tables open. -/
theorem does_openFound_any (names : List FileName) (hnames : ∀ n ∈ names, ∃ f, d.files[n]? = some f)
    (found : List (ℕ × SsTable)) {Q : List (ℕ × SsTable) → Store → Disk → Prop} {E : Stop → Store → Disk → Prop}
    (hQ : (∀ n ∈ names, ∀ id, sstableIdFromPath n = some id → ∃ t, d.handle n = some (id, t)) →
      Q (found ++ names.filterMap d.handle) s d)
    (hbad : ∀ name f id e, d.files[name]? = some f → sstableIdFromPath name = some id →
      SsTable.parse name f = .error e → E e s d)
    (hE : ∀ e, env.Faults (fun _ => True) e → E e s d) : Does env (Store.openFound names found) s d Q E := by
  induction names generalizing found with
  | nil =>
    rw [List.filterMap_nil, List.append_nil] at hQ
    exact .pure (hQ nofun)
  | cons name names ih =>
    obtain ⟨f, hf⟩ := hnames name (List.mem_cons_self ..)
    have ih := ih fun n hn => hnames n (List.mem_cons_of_mem _ hn)
    unfold Store.openFound
    cases hid : sstableIdFromPath name with
    | none =>
      have hnone : d.handle name = none := by simp [Disk.handle, hid]
      rw [List.filterMap_cons_none hnone] at hQ
      refine ih found fun hopen => hQ (List.forall_mem_cons.2 ⟨?_, hopen⟩)
      simp [hid]
    | some id =>
      refine Does.bind (does_open hf ?_ fun e he => hE e (he.mono fun _ _ => trivial))
      cases hparse : SsTable.parse name f with
      | error e => exact hbad name f id e hf hid hparse
      | ok t =>
        have hsome : d.handle name = some (id, t) := handle_eq_some.2 ⟨hid, f, hf, tableFile_of_parse hparse⟩
        rw [List.filterMap_cons_some hsome] at hQ
        refine ih _ fun hopen => ?_
        rw [List.append_assoc]
        refine hQ (List.forall_mem_cons.2 ⟨fun id' hid' => ?_, hopen⟩)
        rw [hid] at hid'
        cases hid'
        exact ⟨t, hsome⟩

/-- The next id is above all others, unless the last 64-bit number is taken. -/
theorem nextIdAfter_cases (found : List (ℕ × SsTable)) :
    (∃ n, nextIdAfter found = .ok n ∧ (∀ x ∈ found, x.1 + 1 < 2 ^ 64) ∧ (∀ x ∈ found, x.1 < n) ∧
      (n = 1 ∨ ∃ x ∈ found, n = x.1 + 1)) ∨
    nextIdAfter found = .error .panic ∧ ∃ x ∈ found, 2 ^ 64 ≤ x.1 + 1 := by
  unfold nextIdAfter
  split_ifs with hany
  · right
    obtain ⟨x, hx, hle⟩ := List.any_eq_true.1 hany
    exact ⟨rfl, x, hx, of_decide_eq_true hle⟩
  · left
    have hids : ∀ x ∈ found, x.1 + 1 < 2 ^ 64 := by
      intro x hx
      by_contra hlt
      exact hany (List.any_eq_true.2 ⟨x, hx, decide_eq_true (Nat.not_lt.1 hlt)⟩)
    cases hmax : (found.map fun x => x.1 + 1).max? with
    | none =>
      have hnil : found = [] := by simpa using hmax
      subst hnil
      exact ⟨1, rfl, nofun, nofun, .inl rfl⟩
    | some n =>
      obtain ⟨hmem, hle⟩ := List.max?_eq_some_iff.1 hmax
      obtain ⟨x, hx, rfl⟩ := List.mem_map.1 hmem
      exact ⟨_, rfl, hids, fun y hy => hle _ (List.mem_map_of_mem hy), .inr ⟨x, hx, rfl⟩⟩

theorem file_of_key {name : FileName} : name ∈ d.files.keys ↔ ∃ f, d.files[name]? = some f := by
  rw [Std.ExtTreeMap.mem_keys, Std.ExtTreeMap.mem_iff_isSome_getElem?, Option.isSome_iff_exists]

/-- The handles are those of the files that are named and made as tables are. -/
theorem mem_handles {id : ℕ} {t : SsTable} : (id, t) ∈ d.handles ↔ ∃ name f, d.files[name]? = some f ∧
    sstableIdFromPath name = some id ∧ TableFile name f.bytes t := by
  simp only [Disk.handles, List.mem_filterMap, handle_eq_some, file_of_key]
  constructor
  · rintro ⟨name, -, hid, f, hf, ht⟩
    exact ⟨name, f, hf, hid, ht⟩
  · rintro ⟨name, f, hf, hid, ht⟩
    exact ⟨name, ⟨f, hf⟩, hid, f, hf, ht⟩

/-- A file gives one handle. -/
theorem nodup_handles : d.handles.Nodup := by
  have hkeys : d.files.keys.Nodup := d.files.distinct_keys.imp fun hne heq => hne (Std.compare_eq_iff_eq.2 heq)
  refine hkeys.filterMap ?_
  rintro name name' ⟨id, t⟩ h h'
  obtain ⟨-, f, -, ht⟩ := handle_eq_some.1 h
  obtain ⟨-, f', -, ht'⟩ := handle_eq_some.1 h'
  exact ht.path.symm.trans ht'.path

/-- The handles depend on the files with the names of tables only. -/
theorem handles_congr (h : ∀ name id, sstableIdFromPath name = some id → d'.files[name]? = d.files[name]?) :
    d'.handles = d.handles := by
  have hfilter : ∀ d : Disk, d.handles =
      (d.files.keys.filter fun name => (sstableIdFromPath name).isSome).filterMap d.handle := by
    intro d
    rw [List.filterMap_filter]
    refine List.filterMap_congr fun name _ => ?_
    cases hid : sstableIdFromPath name <;> simp [Disk.handle, hid]
  have hkeys : (d'.files.keys.filter fun name => (sstableIdFromPath name).isSome) =
      d.files.keys.filter fun name => (sstableIdFromPath name).isSome := by
    have _ : Std.Irrefl fun a b : FileName => compare a b = .lt := ⟨fun a => by simp⟩
    have _ : Std.Antisymm fun a b : FileName => compare a b = .lt := by
      refine ⟨fun a b h h' => ?_⟩
      rw [Std.OrientedOrd.eq_swap, h'] at h
      cases h
    have hasc : ∀ d : Disk, (d.files.keys.filter fun name => (sstableIdFromPath name).isSome).Pairwise
        fun a b => compare a b = .lt := fun d => d.files.ordered_keys.filter _
    refine (hasc d').eq_of_mem_iff (hasc d) fun name => ?_
    simp only [List.mem_filter, file_of_key]
    cases hid : sstableIdFromPath name with
    | none => simp
    | some id => rw [h name id hid]
  rw [hfilter, hfilter, hkeys]
  refine List.filterMap_congr fun name hname => ?_
  obtain ⟨id, hid⟩ := Option.isSome_iff_exists.1 (List.mem_filter.1 hname).2
  simp [Disk.handle, hid, h name id hid]

/-- The store with the tables of the directory, newest first. -/
def Disk.loaded (d : Disk) (s : Store) (next : ℕ) : Store :=
  { s with nextSstableId := next, sstables := (d.handles.insertionSort fun a b => b.1 ≤ a.1).map Prod.snd }

/-- **Loading the tables of any directory.** -/
theorem does_loadSstables_any {Q : Unit → Store → Disk → Prop} {E : Stop → Store → Disk → Prop}
    (hQ : d.TablesOpen → ∀ n, nextIdAfter d.handles = .ok n → Q () (d.loaded s n) d)
    (hblind : ∀ e, env.Faults (fun _ => True) e → Q () s d)
    (hbad : ∀ name f id e, d.files[name]? = some f → sstableIdFromPath name = some id →
      SsTable.parse name f = .error e → E e s d)
    (hlast : nextIdAfter d.handles = .error .panic → E .panic s d)
    (hE : ∀ e, env.Faults (fun _ => True) e → E e s d) : Does env Store.loadSstables s d Q E := by
  unfold Store.loadSstables
  refine Does.bind (does_tryReadDir_faulty ?_ (fun e he => .pure (hblind _ (he.mono fun _ _ => trivial)))
    fun e he => hE e (he.mono fun _ _ => trivial))
  refine Does.bind (does_openFound_any _ (fun n hn => file_of_key.1 hn) [] (fun hopen => ?_) hbad hE)
  have htables : d.TablesOpen := by
    intro name f id hf hid
    obtain ⟨t, ht⟩ := hopen name (file_of_key.2 ⟨f, hf⟩) id hid
    obtain ⟨-, f', hf', htable⟩ := handle_eq_some.1 ht
    rw [hf] at hf'
    cases hf'
    exact ⟨t, htable⟩
  rw [List.nil_append]
  refine Does.bind (.ofStop (fun n hn => ?_) fun e he => ?_)
  · exact .modifySelf (hQ htables n hn)
  · rcases nextIdAfter_cases d.handles with ⟨n, hn, -⟩ | ⟨hpanic, -⟩
    · exact absurd (hn.symm.trans he) nofun
    · cases hpanic.symm.trans he
      exact hlast hpanic

/-- What is loaded: a handle for each table, newest first, and an id above theirs. -/
structure Loads (d : Disk) (sstables : List SsTable) (next : ℕ) (found : List (ℕ × SsTable)) : Prop where
  handles : sstables = found.map Prod.snd
  newest : found.Pairwise fun x y => y.1 ≤ x.1
  nodup : found.Nodup
  mem : ∀ id t, (id, t) ∈ found ↔ ∃ name f, d.files[name]? = some f ∧ sstableIdFromPath name = some id ∧
    TableFile name f.bytes t
  above : ∀ x ∈ found, x.1 < next
  next : next = 1 ∨ ∃ x ∈ found, next = x.1 + 1

theorem loads_loaded {n : ℕ} (hn : nextIdAfter d.handles = .ok n) :
    ∃ found, Loads d (d.loaded s n).sstables n found := by
  have _ : Std.Total fun a b : ℕ × SsTable => b.1 ≤ a.1 := ⟨fun a b => Nat.le_total b.1 a.1⟩
  have _ : IsTrans _ fun a b : ℕ × SsTable => b.1 ≤ a.1 := ⟨fun a b c hab hbc => Nat.le_trans hbc hab⟩
  have hperm := List.perm_insertionSort (fun a b : ℕ × SsTable => b.1 ≤ a.1) d.handles
  rcases nextIdAfter_cases d.handles with ⟨m, hm, -, habove, hnext⟩ | ⟨hpanic, -⟩
  · cases hn.symm.trans hm
    refine ⟨_, rfl, List.pairwise_insertionSort _ _, hperm.nodup_iff.2 nodup_handles, fun id t => ?_,
      fun x hx => ?_, ?_⟩
    · rw [hperm.mem_iff, mem_handles]
    · exact habove x (hperm.mem_iff.1 hx)
    · exact hnext.imp_right fun ⟨x, hx, h⟩ => ⟨x, hperm.mem_iff.2 hx, h⟩
  · exact absurd (hn.symm.trans hpanic) nofun

/-- Every id in the name of a file has a next one. -/
def Disk.IdsFit (d : Disk) : Prop :=
  ∀ name f id, d.files[name]? = some f → sstableIdFromPath name = some id → id + 1 < 2 ^ 64

theorem nextIdAfter_handles (h : d.TablesOpen) : (∃ n, nextIdAfter d.handles = .ok n) ↔ d.IdsFit := by
  constructor
  · rintro ⟨n, hn⟩ name f id hf hid
    obtain ⟨t, ht⟩ := h name f id hf hid
    rcases nextIdAfter_cases d.handles with ⟨m, hm, hids, -⟩ | ⟨hpanic, -⟩
    · exact hids _ (mem_handles.2 ⟨name, f, hf, hid, ht⟩)
    · exact absurd (hn.symm.trans hpanic) nofun
  · intro hids
    rcases nextIdAfter_cases d.handles with ⟨m, hm, -⟩ | ⟨-, ⟨id, t⟩, hx, hle⟩
    · exact ⟨m, hm⟩
    · obtain ⟨name, f, hf, hid, -⟩ := mem_handles.1 hx
      have := hids name f id hf hid
      omega

/-! ## The log of a directory -/

/-- The parser stops with a panic if it stops at all. -/
theorem parseBuffer_cases (p : Prost) (buffer : Bytes) : (∃ r, parseBuffer p buffer = .ok r) ∨
    parseBuffer p buffer = .error .panic := by
  obtain ⟨payloads, t, hsplit⟩ := exists_splits buffer
  rw [parseBuffer_splits hsplit]
  split_ifs
  · exact .inl ⟨_, rfl⟩
  · exact .inr rfl

/-- The last of closed payloads decodes to a COMMIT. -/
theorem closed_decoded {payloads : List Bytes} (h : Closed (marksCommit p) payloads) :
    Closed isCommit (decoded p payloads) := by
  rcases List.eq_nil_or_concat' payloads with rfl | ⟨front, last, rfl⟩
  · exact closed_nil isCommit
  · unfold Closed committed at h
    rw [List.rdropWhile_eq_self_iff] at h
    have hmark : marksCommit p last = true := by simpa using h (by simp)
    unfold marksCommit at hmark
    cases hdec : p.decodeEntry last with
    | error e => rw [hdec] at hmark; cases hmark
    | ok entry =>
      rw [hdec] at hmark
      have hlast : decoded p [last] = [entry] := by simp [decoded, hdec, Except.toOption]
      rw [decoded_append, hlast]
      exact closed_concat isCommit hmark _

/-- What recovery keeps of a log is closed, and parses to itself. -/
theorem parseBuffer_cut {n k : ℕ} (h : parseBuffer p buffer = .ok (es, n, k)) :
    Closed isCommit (es.take n) ∧ parseBuffer p (buffer.take k) = .ok (es.take n, n, k) ∧ k ≤ buffer.length := by
  obtain ⟨payloads, t, hsplit⟩ := exists_splits buffer
  rw [parseBuffer_splits hsplit] at h
  split_ifs at h with hfits
  cases h
  obtain ⟨later, hlater⟩ := prefix_committed (marksCommit p) payloads
  have hbytes : buffer = frames id (committedPayloads p payloads) ++ (frames id later ++ t) := by
    conv => lhs; rw [hsplit.bytes, ← hlater]
    rw [frames_append, List.append_assoc]
  have hshort : (frames id (committedPayloads p payloads)).length < 2 ^ 64 := by
    refine Nat.lt_of_le_of_lt ?_ hfits.frames
    conv => rhs; rw [← hlater, frames_append, List.length_append]
    exact Nat.le_add_right _ _
  have hparse := parseBuffer_append hsplit (nofun : Undoes p []) (by rwa [logBytes_nil, List.append_nil])
  rw [committedPart, committed_nil, logBytes_nil, List.append_nil, List.append_nil] at hparse
  have htake : buffer.take (frames id (committedPayloads p payloads)).length =
      frames id (committedPayloads p payloads) := by
    rw [hbytes]
    exact List.take_left
  rw [decoded_take_committed, htake]
  refine ⟨?_, hparse, ?_⟩
  · exact closed_decoded (closed_committed _ payloads)
  · rw [hbytes, List.length_append]
    exact Nat.le_add_right _ _

/-- A log that leads the parser too far stops its recovery, unless a call fails before. -/
theorem does_readForRecovery_far (hparse : parseBuffer p (d.bytesOf w.filePath) = .error .panic)
    {Q : List WalEntry → Wal → Disk → Prop} {E : Stop → Wal → Disk → Prop}
    (hblind : ∀ e, env.Faults (fun _ => True) e → Q [] w d) (hstop : E .panic w d)
    (hE : ∀ e, env.Faults (fun _ => True) e → E e w d) : Does env (Wal.readForRecovery p) w d Q E := by
  have hE' : ∀ P e, env.Faults P e → E e w d := fun P e he => hE e (he.mono fun _ _ => trivial)
  unfold Wal.readForRecovery Wal.readFile
  refine Does.bind (.withSelf (Does.bind (does_pathExists ?_ fun e he => ?_)))
  · cases hfile : d.files[w.filePath]? with
    | none =>
      have hnil : d.bytesOf w.filePath = [] := by simp [Disk.bytesOf, hfile]
      rw [hnil] at hparse
      cases hparse
    | some f =>
      rw [if_pos (by simp)]
      rw [Disk.bytesOf_of_some hfile] at hparse
      refine Does.bind (does_openRead hfile ?_ (hE' _))
      refine Does.bind (does_readToEnd hfile (.pure ?_) (hE' _))
      dsimp only
      rw [hparse]
      exact Does.bind (.throw hstop)
  · cases e with
    | err e => exact .pure (.pure (hblind _ (he.mono fun _ _ => trivial)))
    | panic => exact hE' _ _ he
    | crash => exact hE' _ _ he

/-- The memtable and the counter that committed entries leave. -/
def Store.replayed (base : Store) (log : List WalEntry) : Store :=
  base.holding (log.foldl WalEntry.apply ∅) (lastSequence log)

/-- **Replaying any log.** The log is cut after its last COMMIT, and what is left of it is replayed if its values
can be read. -/
theorem does_replayWal_any (hpath : base.wal = ⟨walName, false⟩) (hbase : base = base.holding ∅ 0)
    {Q : Unit → Store → Disk → Prop} {E : Stop → Store → Disk → Prop}
    (hQ : ∀ es n k, parseBuffer p (d.bytesOf walName) = .ok (es, n, k) → (∀ e ∈ es.take n, e.Readable) →
      ∀ d', (k = (d.bytesOf walName).length → d' = d) → d'.locked = d.locked →
        d'.bytesOf walName = (d.bytesOf walName).take k → (∀ name ≠ walName, d'.files[name]? = d.files[name]?) →
        Q () (base.replayed (es.take n)) d')
    (hblind : ∀ e, env.Faults (fun _ => True) e → Q () base d)
    (hfar : parseBuffer p (d.bytesOf walName) = .error .panic → E .panic base d)
    (hunread : ∀ es n k err s' d', parseBuffer p (d.bytesOf walName) = .ok (es, n, k) →
      (¬ ∀ e ∈ es.take n, e.Readable) → d'.locked = d.locked →
      (∀ name ≠ walName, d'.files[name]? = d.files[name]?) → E (.err err) s' d')
    (hE : ∀ e s' d', env.Faults (fun _ => True) e → d'.locked = d.locked →
      (∀ name ≠ walName, d'.files[name]? = d.files[name]?) → E e s' d') :
    Does env (Store.replayWal p) base d Q E := by
  have hname : base.wal.filePath = walName := by rw [hpath]
  have hbind : ∀ log d', Closed isCommit log → ((∀ e ∈ log, e.Readable) → Q () (base.replayed log) d') →
      (∀ err, (¬ ∀ e ∈ log, e.Readable) → E (.err err) base d') →
      Does env (do let s ← self; setSelf (← ofStop (Store.replayEntries log [] s))) base d' Q E := by
    intro log d' hclosed hok herr
    have hreplay := replayEntries_closed hclosed base
    have hcounted : base.Counted := by rw [hbase]; exact counted_holding _ _ _
    refine .withSelf (Does.bind (.ofStop (fun r hr => ?_) fun e he => ?_))
    · rw [hreplay] at hr
      by_cases hread : ∀ e ∈ log, e.Readable
      · rw [foldlM_readable hcounted hread, hbase] at hr
        cases hr
        refine .setSelf ?_
        have hdone := hok hread
        rw [hbase] at hdone
        exact hdone
      · obtain ⟨err, hstop⟩ := foldlM_unreadable hcounted hread
        exact absurd (hr.symm.trans hstop) nofun
    · rw [hreplay] at he
      by_cases hread : ∀ e ∈ log, e.Readable
      · rw [foldlM_readable hcounted hread] at he
        cases he
      · obtain ⟨err, hstop⟩ := foldlM_unreadable hcounted hread
        cases he.symm.trans hstop
        exact herr err hread
  unfold Store.replayWal
  rcases parseBuffer_cases p (d.bytesOf walName) with ⟨⟨es, n, k⟩, hparse⟩ | hpanic
  · obtain ⟨hclosed, -, hk⟩ := parseBuffer_cut hparse
    refine Does.bind (Does.onField (does_readForRecovery_faults (by rw [hname]; exact hparse) (fun hlt => ?_)
      (fun hlt d' hb => ?_) (fun e he => ?_) (fun e he => ?_) fun e d' he _ hb => ?_))
    · rw [hname] at hlt
      refine hbind _ d hclosed (fun hread => ?_) fun err hread => ?_
      · have hfull : k = (d.bytesOf walName).length := Nat.le_antisymm hk (Nat.not_lt.1 hlt)
        refine hQ es n k hparse hread d (fun _ => rfl) rfl ?_ fun _ _ => rfl
        rw [hfull, List.take_length]
      · exact hunread es n k err base d hparse hread rfl fun _ _ => rfl
    · rw [hname] at hlt hb ⊢
      rw [show ({ base with wal := ⟨walName, false⟩ } : Store) = base by rw [← hpath]]
      refine hbind _ d' hclosed (fun hread => ?_) fun err hread => ?_
      · exact hQ es n k hparse hread d' (fun hfull => absurd hlt (by omega)) hb.locked hb.bytes hb.others
      · exact hunread es n k err base d' hparse hread hb.locked hb.others
    · exact .withSelf (.setSelf (hblind _ (he.mono fun _ _ => trivial)))
    · exact hE e _ d (he.mono fun _ _ => trivial) rfl fun _ _ => rfl
    · rw [hname] at hb
      exact hE e _ d' (he.mono fun _ _ => trivial) hb.locked hb.others
  · refine Does.bind (Does.onField (does_readForRecovery_far (by rw [hname]; exact hpanic) (fun e he => ?_)
      (hfar hpanic) fun e he => ?_))
    · exact .withSelf (.setSelf (hblind _ he))
    · exact hE e _ d he rfl fun _ _ => rfl

end FerrumDB
