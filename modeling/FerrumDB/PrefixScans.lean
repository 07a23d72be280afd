import FerrumDB.ByteValues
import FerrumDB.Sessions
import FerrumDB.ScanReads
import FerrumDB.Store.Methods
import FerrumDB.Panics
import FerrumDB.Lib.PrefixRange

/-!
# Prefix scans

`prefix_upper_bound` gives the least key above every key that begins with the prefix
(`above_iff`), so that the keys of the prefix are exactly those from the prefix up to that bound
(`prefixBound_exact`). Over a table whose calls fit, whatever I/O call of them failed, a prefix scan then
lists the pairs of a full scan whose keys begin with the prefix (`prefix_scans_exact`).
-/

namespace FerrumDB

open CrashLogic PrefixRange

variable {env : Env} {s : Store} {d : Disk} {L : Layers} {p : Prost} {dir : String} {start key : Bytes}

/-! ## The bound -/

theorem next_succ {b : UInt8} (hb : b < 0xFF) : Next b (b + 1) := by
  have hlt : b.toNat < 255 := UInt8.lt_iff_toNat_lt.1 hb
  have hsucc : (b + 1).toNat = b.toNat + 1 := by
    have hone : (1 : UInt8).toNat = 1 := rfl
    rw [UInt8.toNat_add, hone]
    exact Nat.mod_eq_of_lt (by omega)
  refine ⟨UInt8.lt_iff_toNat_lt.2 (by omega), fun x hx hlt' => ?_⟩
  have hx := UInt8.lt_iff_toNat_lt.1 hx
  have hlt' := UInt8.lt_iff_toNat_lt.1 hlt'
  omega

theorem eq_max {b : UInt8} (hb : ¬ b < 0xFF) : b = 0xFF := by
  have hle : ¬ b.toNat < 255 := fun hlt => hb (UInt8.lt_iff_toNat_lt.2 hlt)
  have hlt := b.toNat_lt
  exact UInt8.toNat_inj.1 (by show b.toNat = 255; omega)

theorem top_max : Top (0xFF : UInt8) := by
  intro x hx
  have hx : 255 < x.toNat := UInt8.lt_iff_toNat_lt.1 hx
  have hlt := x.toNat_lt
  omega

@[simp] theorem prefixUpperBound_nil : prefixUpperBound [] = none := rfl

theorem prefixUpperBound_concat (start : Bytes) (b : UInt8) : prefixUpperBound (start ++ [b]) =
    if b < 0xFF then some (start ++ [b + 1]) else prefixUpperBound start := by
  unfold prefixUpperBound
  rw [List.reverse_append, List.reverse_singleton, List.singleton_append, bumpLast]
  split
  · simp
  · rfl

/-- **The loop.** A key is above all keys of the prefix exactly if there is a bound and it is not below it. -/
theorem above_iff : Above start key ↔ ∃ u, prefixUpperBound start = some u ∧ u ≤ key := by
  induction start using List.reverseRecOn with
  | nil => simp [not_above_nil]
  | append_singleton start b ih =>
    rw [prefixUpperBound_concat]
    split
    · next hb => simp [above_concat_of_next (next_succ hb)]
    · next hb =>
      rw [eq_max hb, above_concat_of_top top_max]
      exact ih

/-- There is no bound exactly if no byte can be raised. -/
theorem prefixUpperBound_eq_none : prefixUpperBound start = none ↔ ∀ b ∈ start, b = 0xFF := by
  induction start using List.reverseRecOn with
  | nil => simp
  | append_singleton start b ih =>
    rw [prefixUpperBound_concat]
    split
    · next hb =>
      have hne : b ≠ 0xFF := fun h => top_max _ (h ▸ hb)
      simp only [reduceCtorEq, false_iff, List.mem_append, List.mem_singleton]
      exact fun h => hne (h b (Or.inr rfl))
    · next hb =>
      rw [ih, eq_max hb]
      simp only [List.mem_append, List.mem_singleton, or_imp, forall_and, forall_eq, and_true]

/-- What is asked of the bound of a prefix. -/
structure PrefixBound (start : Bytes) : Prop where
  interval : ∀ key, start <+: key ↔ start ≤ key ∧ ∀ u, prefixUpperBound start = some u → key < u
  least : ∀ u, prefixUpperBound start = some u → Above start u ∧ ∀ v, Above start v → u ≤ v
  unbounded : prefixUpperBound start = none → ∀ v, ¬ Above start v
  none : prefixUpperBound start = none ↔ ∀ b ∈ start, b = 0xFF

theorem prefixBound (start : Bytes) : PrefixBound start where
  interval key := by
    rw [prefix_iff, above_iff]
    refine and_congr_right fun _ => ⟨fun h u hu => ?_, fun h ⟨u, hu, hle⟩ => ?_⟩
    · rw [← List.not_le]
      exact fun hle => h ⟨u, hu, hle⟩
    · exact List.not_lt.2 hle (h u hu)
  least u hu := by
    refine ⟨above_iff.2 ⟨u, hu, List.le_refl u⟩, fun v hv => ?_⟩
    obtain ⟨u', hu', hle⟩ := above_iff.1 hv
    rw [hu] at hu'
    cases hu'
    exact hle
  unbounded h v hv := by
    obtain ⟨u, hu, -⟩ := above_iff.1 hv
    rw [h] at hu
    cases hu
  none := prefixUpperBound_eq_none

/-! ## Scans -/

/-- With no I/O failure the call returns `r`. -/
def Gives {α : Type} (c : Api α) (s : Store) (d : Disk) (r : α) : Prop :=
  ∀ n, wp c ⟨s, d, Env.quiet, n⟩ (fun r' _ => r' = r) fun _ _ => False

/-- What is asked of the prefix scans of a table: its scan returns a list, every prefix scan returns the
pairs of this list whose keys begin with the prefix, in their order, and no fault makes one panic. -/
structure PrefixScansExact (p : Prost) (s : Store) (d : Disk) : Prop where
  pairs : ∃ pairs, Gives (Table.scan p) s d pairs ∧
    ∀ start, Gives (Table.scanPrefix p start) s d (pairs.filter fun e => start <+: e.1)
  calm : ∀ start env n, wp (Table.scanPrefix p start) ⟨s, d, env, n⟩ (fun _ _ => True) fun e _ => e ≠ .panic

theorem bytesPairs_map (pairs out : List (Bytes × Bytes)) :
    bytesPairs (pairs.map fun e => (e.1, .bytes e.2)) out = .ok (out ++ pairs) := by
  induction pairs generalizing out with
  | nil => simp [bytesPairs]
  | cons e pairs ih => simp [bytesPairs, ih]

theorem exists_pairs {l : List (Bytes × Value)} (h : ∀ e ∈ l, e.2.IsBytes) :
    ∃ pairs : List (Bytes × Bytes), l = pairs.map fun e => (e.1, .bytes e.2) := by
  induction l with
  | nil => exact ⟨[], rfl⟩
  | cons e l ih =>
    obtain ⟨key, v⟩ := e
    obtain ⟨bytes, rfl⟩ := h _ (List.mem_cons_self ..)
    obtain ⟨pairs, rfl⟩ := ih fun x hx => h x (List.mem_cons_of_mem _ hx)
    exact ⟨(key, bytes) :: pairs, rfl⟩

/-- A scan with bounds lists the pairs of the full scan that are within them. -/
theorem scan_eq_filter (lo hi : Bound) :
    L.scan lo hi = (L.scan .unbounded .unbounded).filter fun e => inBounds e.1 lo hi := by
  refine OrderedMap.eq_of_mem_iff (scan_ascending L) ((scan_ascending L).filter _) ?_
  rintro ⟨key, v⟩
  rw [List.mem_filter, mem_scan, mem_scan]
  simp [inBounds, Bound.aboveLo, Bound.belowHi, and_comm]

/-- The upper end of a prefix scan. -/
def prefixEnd (start : Bytes) : Bound := (prefixUpperBound start).elim .unbounded .excluded

theorem scanPrefix_eq (start : Bytes) :
    Table.scanPrefix p start = Table.rangeBounds p (.included start) (prefixEnd start) := by
  unfold Table.scanPrefix prefixEnd
  cases prefixUpperBound start <;> rfl

theorem inBounds_prefix (start key : Bytes) :
    inBounds key (.included start) (prefixEnd start) = decide (start <+: key) := by
  rw [Bool.eq_iff_iff, decide_eq_true_iff, (prefixBound start).interval]
  unfold inBounds prefixEnd Bound.aboveLo Bound.belowHi
  cases prefixUpperBound start <;> simp

/-- `BTreeMap::range` accepts the bounds of a prefix. -/
theorem rangeAccepts_prefixEnd (start : Bytes) : rangeAccepts (.included start) (prefixEnd start) = true := by
  unfold prefixEnd rangeAccepts
  cases hu : prefixUpperBound start with
  | none => rfl
  | some u =>
    have habove := ((prefixBound start).least u hu).1
    exact decide_eq_true (List.le_of_lt (habove start (List.prefix_refl start)))

theorem gives_rangeBounds (hp : p.Lawful) (h : Running p s d L) {lo hi : Bound} (hscan : s.Scannable lo hi)
    {pairs : List (Bytes × Bytes)} (hpairs : L.scan lo hi = pairs.map fun e => (e.1, .bytes e.2)) :
    Gives (Table.rangeBounds p lo hi) s d pairs := by
  have hread : Returns (Store.scanRange p lo hi) s d fun r _ _ => r = L.scan lo hi :=
    does_scanRange hp h hscan rfl fun _ he => absurd he Env.not_faults_quiet
  intro n
  obtain ⟨r, x, hrun, rfl⟩ := hread.run n
  unfold Table.rangeBounds
  rw [wp_bind]
  unfold wp core
  rw [hrun, hpairs]
  dsimp only
  rw [bytesPairs_map]
  rfl

theorem ofStop_ne_panic {e : Stop} (h : e ≠ .panic) : Failure.ofStop e ≠ .panic := by
  cases e with
  | err e => exact nofun
  | panic => exact absurd rfl h
  | crash => exact nofun

theorem calm_rangeBounds (hp : p.Lawful) (h : Running p s d L) {lo hi : Bound} (hscan : s.Scannable lo hi) (n : ℕ) :
    wp (Table.rangeBounds p lo hi) ⟨s, d, env, n⟩ (fun _ _ => True) fun e _ => e ≠ .panic := by
  have hread : Does env (Store.scanRange p lo hi) s d (fun _ _ _ => True) fun e _ _ => e ≠ .panic := by
    refine does_scanRange hp h hscan trivial fun e he => ?_
    exact not_faults_panic he
  unfold Table.rangeBounds
  rw [wp_bind]
  have hread := hread n
  unfold wp core at *
  cases hrun : Store.scanRange p lo hi ⟨s, d, env, n⟩ with
  | ok r x =>
    dsimp only
    cases hpairs : bytesPairs r [] with
    | ok pairs => exact trivial
    | error e => exact nofun
  | error e x =>
    rw [hrun] at hread
    exact ofStop_ne_panic hread.2

/-- Every key that reads as something reads as bytes. -/
def ReadsBytes (m : Bytes → Option Value) : Prop := ∀ key v, m key = some v → v.IsBytes

/-- **Prefix scans** of a store that runs on layers of bytes. -/
theorem Running.prefixScansExact (hp : p.Lawful) (h : Running p s d L) (hbytes : ReadsBytes L.get) :
    PrefixScansExact p s d := by
  have hcan : ∀ start, s.Scannable (.included start) (prefixEnd start) := fun start =>
    Or.inr (rangeAccepts_prefixEnd start)
  obtain ⟨pairs, hpairs⟩ := exists_pairs (l := L.scan .unbounded .unbounded) fun e he =>
    hbytes e.1 e.2 (mem_scan.1 he).2
  refine ⟨⟨pairs, gives_rangeBounds hp h (Or.inr rfl) hpairs, fun start => ?_⟩, fun start env n => ?_⟩
  · rw [scanPrefix_eq]
    refine gives_rangeBounds hp h (hcan start) ?_
    rw [scan_eq_filter, hpairs, List.filter_map]
    congr 1
    exact List.filter_congr fun e _ => inBounds_prefix start e.1
  · rw [scanPrefix_eq]
    exact calm_rangeBounds hp h (hcan start) n

/-! ## Runs -/

/-- From `x` the call returns or fails with an error, and leaves `y`. -/
def Call.Ends (p : Prost) (c : Call) (x y : Mem Store) : Prop :=
  c.run p x = .ok () y ∨ ∃ e, c.run p x = .error (.err e) y

/-- The states of a table used through the API. It starts in a state of a run without failing calls, or
where a directory of whole tables opened whose keys read as bytes, whatever its log holds; any I/O call of
the calls that follow may fail. -/
inductive TableRun (p : Prost) (dir : String) : Store → Disk → Prop
  | run {s : Store} {d : Disk} (run : ByteRun p dir s d) : TableRun p dir s d
  | opened {s₀ : Store} {d : Disk} {n : ℕ} {x : Mem Store} (free : d.locked = false) (whole : d.Whole p)
      (run : Store.openWithDir p dir ⟨s₀, d, Env.quiet, n⟩ = .ok () x)
      (bytes : ∀ key v, Returns (Store.getValue p key) x.self x.disk (fun r _ _ => r = some v) → v.IsBytes) :
      TableRun p dir x.self x.disk
  | ended {s : Store} {d : Disk} {c : Call} {env : Env} {n : ℕ} {x : Mem Store} (before : TableRun p dir s d)
      (fits : ∀ op, c.op = some op → SessionFits p s d op) (run : c.Ends p ⟨s, d, env, n⟩ x) :
      TableRun p dir x.self x.disk

theorem readsBytes_applyMap {m : Bytes → Option Value} (hm : ReadsBytes m) {b : Batch} (hb : BatchIsBytes b) :
    ReadsBytes (applyMap m b) := by
  induction b generalizing m with
  | nil => exact hm
  | cons e b ih =>
    refine ih (fun key v hv => ?_) fun x hx => hb x (List.mem_cons_of_mem _ hx)
    replace hv : Function.update m e.1 e.2 key = some v := hv
    by_cases hkey : key = e.1
    · rw [hkey, Function.update_self] at hv
      exact hb e (List.mem_cons_self ..) v hv
    · rw [Function.update_of_ne hkey] at hv
      exact hm key v hv

theorem readsBytes_reached {m : Bytes → Option Value} (hm : ReadsBytes m) {op : Op} (hop : op.IsBytes)
    (x : Mem Store) : ReadsBytes (op.reached p x m) := by
  unfold Op.reached
  split
  · exact hm
  · next b hb =>
    split
    · rw [apply_of_batch hb]
      exact readsBytes_applyMap hm (hop b hb)
    · exact hm

/-- A read keeps the layers that the store runs on, whatever call of it fails. -/
theorem keepsApi_of_op_eq_none (hp : p.Lawful) {c : Call} (hc : c.op = none) :
    KeepsApi (fun s d => Running p s d L) (c.run p) := by
  have hget : ∀ key, Keeps (fun s d => Running p s d L) (Store.getValue p key) := fun key env s d h =>
    h.does_getValue hp (fun _ h' => ⟨h', trivial⟩) fun _ _ _ h' => h'
  cases c with
  | get key => exact (keeps_tableGet (hget key)).discard
  | contains key => exact ((keeps_tableGet (hget key)).bind fun _ => .pure _).discard
  | getBatch keys => exact (keeps_getBatch hget keys).discard
  | txnGet calls key =>
    exact ((KeepsApi.core (keeps_txnGet (hget key) _)).bind fun _ => .ofResult _).discard
  | scan => exact (keeps_rangeBounds _ _).discard
  | range start stop => exact (keeps_rangeBounds _ _).discard
  | scanPrefix start => exact (keeps_scanPrefix start).discard
  | _ => cases hc

/-- **The invariant of a run**: the store runs on layers that read as bytes. -/
theorem TableRun.reads (hp : p.Lawful) (h : TableRun p dir s d) :
    ∃ L, Running p s d L ∧ ReadsBytes L.get := by
  induction h with
  | run hrun =>
    obtain ⟨L, hagrees, hbytes⟩ := hrun.agrees hp
    exact ⟨L, hagrees.toFollows.running, fun key v hv => hbytes.get hv⟩
  | opened hfree hwhole hrun hbytes =>
    obtain ⟨tables, htables⟩ := hwhole
    obtain ⟨L, hL, -⟩ := (does_openWithDir_whole htables hfree).of_ok hrun
    refine ⟨L, hL, fun key v hv => hbytes key v ?_⟩
    have hread := Reads.returns_getValue hp ⟨L, hL, rfl⟩ key
    rwa [hv] at hread
  | @ended s d c env n x _ hfits hrun ih =>
    obtain ⟨L, hL, hbytes⟩ := ih
    cases hc : c.op with
    | some op =>
      rw [Call.Ends, run_of_op dir hc] at hrun
      have hends : op.Ends p dir ⟨s, d, env, n⟩ x := by
        rcases hrun with hok | ⟨e, herr⟩
        · exact Or.inl (core_eq_ok hok)
        · refine Or.inr ?_
          unfold core at herr
          cases hop : op.run p dir ⟨s, d, env, n⟩ with
          | ok r y => rw [hop] at herr; cases herr
          | error e' y =>
            rw [hop] at herr
            cases e' with
            | err e' => cases herr; exact ⟨e', rfl⟩
            | panic => cases herr
            | crash => cases herr
      obtain ⟨L', hL', hget⟩ := hL.reads_reached hp (op_ne_reopen hc) (hfits op hc L hL) hends
      refine ⟨L', hL', ?_⟩
      rw [hget]
      exact readsBytes_reached hbytes (isBytes_op hc) _
    | none =>
      have hkeep := keepsApi_of_op_eq_none (L := L) hp hc ⟨s, d, env, n⟩ hL
      have hend : Running p x.self x.disk L := by
        rcases hrun with hok | ⟨e, herr⟩
        · exact wp.of_ok (Q := fun _ y => Running p y.self y.disk L) hok hkeep
        · exact wp.of_error (E := fun _ y => Running p y.self y.disk L) herr hkeep
      exact ⟨L, hend, hbytes⟩

/-- **Prefix scans are exact.** The bound of every prefix is the least key above all keys that begin with
it, if there is one; and in every state of a table whose calls fit, a prefix scan returns the pairs of the
full scan whose keys begin with the prefix. -/
theorem prefix_scans_exact (hp : p.Lawful) :
    (∀ start, PrefixBound start) ∧ ∀ s d, TableRun p dir s d → PrefixScansExact p s d := by
  refine ⟨prefixBound, fun s d h => ?_⟩
  obtain ⟨L, hL, hbytes⟩ := h.reads hp
  exact hL.prefixScansExact hp hbytes

set_option synthInstance.maxSize 1000 in
/-- A put, and another one that the file system has no room for. -/
theorem prefix_scans_exact_failed : ∃ s d, TableRun Prost.wire "db" s d ∧
    s.data.toList = [([97, 255], .value (.bytes [1]))] ∧ PrefixScansExact Prost.wire s d := by
  have hruns : wp (Store.openWithDir Prost.wire "db")
      ⟨Store.fresh "db" ⟨walName, false⟩, Disk.empty, Env.quiet, 0⟩
      (fun _ x => Op.Fits Prost.wire x.self.memory (.setValue [97, 255] (.bytes [1])) ∧
        x.self.sstables.length = 0 ∧
        wp ((Call.put [97, 255] [1]).run Prost.wire) ⟨x.self, x.disk, Env.quiet, 0⟩
          (fun _ y => Op.Fits Prost.wire y.self.memory (.setValue [98] (.bytes [2])) ∧
            y.self.sstables.length = 0 ∧
            wp ((Call.put [98] [2]).run Prost.wire) ⟨y.self, y.disk, Env.failsOn ⟨.write, walName⟩, 0⟩
              (fun _ _ => False)
              fun e z => e = .err (.io noSpace) ∧ z.self.data.toList = [([97, 255], .value (.bytes [1]))])
          fun _ _ => False)
      fun _ _ => False := by decide +kernel
  obtain ⟨_, x, hopen, hfits, hnil, hruns⟩ := hruns.returns
  obtain ⟨_, y, hput, hfits', hnil', hruns⟩ := hruns.returns
  obtain ⟨_, z, hfail, rfl, hdata⟩ := hruns.stops
  have hput' : TableRun Prost.wire "db" y.self y.disk := by
    refine .ended (.run (.opened hopen)) ?_ (Or.inl hput)
    rintro op hop
    cases hop
    exact sessionFits_of_memory hnil hfits
  have hrun : TableRun Prost.wire "db" z.self z.disk := by
    refine .ended hput' ?_ (Or.inr ⟨_, hfail⟩)
    rintro op hop
    cases hop
    exact sessionFits_of_memory hnil' hfits'
  exact ⟨_, _, hrun, hdata, (prefix_scans_exact wire_lawful).2 _ _ hrun⟩

theorem put_ok {value : Bytes} {x y : Mem Store} {msg : String}
    (h : Store.setValue p key (.bytes value) x = .ok msg y) : Table.put p key value x = .ok () y := by
  unfold Table.put
  rw [bind_ok (core_ok h)]
  rfl

/-- A put of 4 GiB returns, and then a scan of its prefix fails. -/
theorem scanPrefix_fails_big : ∃ x y z,
    Store.openWithDir Prost.wire "db" ⟨Store.fresh "db" ⟨walName, false⟩, Disk.empty, Env.quiet, 0⟩ = .ok () x ∧
      Table.put Prost.wire bigKey (List.replicate (2 ^ 32) 0) ⟨x.self, x.disk, Env.quiet, 0⟩ = .ok () y ∧
      Table.scanPrefix Prost.wire bigKey ⟨y.self, y.disk, Env.quiet, 0⟩ =
        .error (.err (.internal "SSTable block CRC mismatch at offset 0")) z ∧
      ¬ PrefixScansExact Prost.wire y.self y.disk := by
  have hopen : Returns (Store.openWithDir Prost.wire "db") (Store.fresh "db" ⟨walName, false⟩) Disk.empty
      fun _ s d => Agrees Prost.wire s d Layers.empty [] [] :=
    does_openWithDir wire_lawful stored_empty rfl fun _ _ h' => h'
  obtain ⟨_, x, hx, hagrees⟩ := hopen.run 0
  have hset : Returns (Store.setValue Prost.wire bigKey (bigValue (2 ^ 32))) x.self x.disk
      fun _ s d => Oversized (2 ^ 32) s d := by
    rw [setValue_eq]
    exact Does.bind ((returns_writeBatch_big rfl hagrees).mono (fun _ _ _ h => .pure h) fun _ _ _ he => he)
  obtain ⟨_, y, hy, hover⟩ := hset.run 0
  have hscan : Does Env.quiet (Store.scanRange Prost.wire (.included bigKey) (prefixEnd bigKey)) y.self y.disk
      (fun _ _ _ => False) fun e _ _ => e = .err (crcMismatch 0) :=
    does_scanRange_big rfl hover rfl rfl fun _ => Env.not_faults_quiet
  obtain ⟨e, z, hz, rfl⟩ := ((hscan 0).mono (fun _ _ h => h.2) fun _ _ h => h.2).stops
  have hfails : Table.scanPrefix Prost.wire bigKey ⟨y.self, y.disk, Env.quiet, 0⟩ =
      .error (.err (.internal "SSTable block CRC mismatch at offset 0")) z := by
    rw [scanPrefix_eq]
    unfold Table.rangeBounds
    have hcore : core (Store.scanRange Prost.wire (.included bigKey) (prefixEnd bigKey))
        ⟨y.self, y.disk, Env.quiet, 0⟩ = .error (.ofStop (.err (crcMismatch 0))) z := by
      unfold core
      rw [hz]
    rw [bind_error hcore]
    rfl
  refine ⟨x, y, z, hx, put_ok hy, hfails, fun hexact => ?_⟩
  obtain ⟨pairs, -, hpairs⟩ := hexact.pairs
  exact wp.of_error (E := fun _ _ => False) hfails (hpairs bigKey 0)

end FerrumDB
