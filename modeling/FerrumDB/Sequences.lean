import FerrumDB.LogReplay

/-!
# Sequence numbers over the lifetime of a table

The counter of a store lives in memory, and opening a directory sets it to the last number its log
still holds. A `SequenceRun` keeps the numbers given to the entries of a run, as they are read off the
bytes that each operation appends to `wal.log` (`Op.given`). They increase exactly as long as nothing is
written after an opening that found the log empty although numbers had been given
(`sequences_increase_iff`): a flush empties the log, and the tables record no number.
-/

namespace FerrumDB

open CrashLogic

variable {s : Store} {d : Disk} {p : Prost} {dir : String} {log : List WalEntry} {n : UInt64}

/-! ## The numbers in the log -/

/-- The sequence numbers of the PUT and DELETE entries in a piece of the log. -/
def numbersIn (p : Prost) (bytes : Bytes) : List UInt64 :=
  match parseBuffer p bytes with
  | .ok (entries, _, _) => (entries.filter fun e => e.op = .put ∨ e.op = .delete).map WalEntry.sequence
  | .error _ => []

/-- The bytes that an operation appends to `wal.log`. They are read before a flush that the operation
may trigger empties the file. -/
def Op.appended (p : Prost) (op : Op) (x : Mem Store) : Bytes :=
  match op.batch with
  | none => []
  | some b =>
    match Store.recordBatch p b x with
    | .ok () y => (y.disk.bytesOf walName).drop (x.disk.bytesOf walName).length
    | .error _ _ => []

/-- The sequence numbers that the PUT and DELETE entries of an operation get. -/
def Op.given (p : Prost) (op : Op) (x : Mem Store) : List UInt64 := numbersIn p (op.appended p x)

/-- The numbers of a batch that was logged whole. -/
theorem numbersIn_batch (hp : p.Lawful) (b : Batch) (m : UInt64)
    (hlen : (logBytes p (batchLog n b ++ [commitEntry m])).length ≤ maxVecLen) :
    numbersIn p (logBytes p (batchLog n b ++ [commitEntry m])) = (batchLog n b).map WalEntry.sequence := by
  have hparse := parseBuffer_frames hp (t := []) (Or.inl rfl) (by rwa [List.append_nil])
  rw [List.append_nil] at hparse
  have hfilter : ∀ n, (batchLog n b).filter (fun e => e.op = .put ∨ e.op = .delete) = batchLog n b := by
    clear hlen hparse
    induction b with
    | nil => exact fun _ => rfl
    | cons e b ih =>
      intro n
      rw [batchLog, List.filter_cons_of_pos (by simpa using op_pendingEntry e.1 e.2 (n + 1)), ih]
  unfold numbersIn
  rw [hparse]
  dsimp only
  rw [List.filter_append, hfilter, List.filter_cons_of_neg (by simp), List.filter_nil, List.append_nil]

/-- **The numbers an operation gives** to its entries are those after the counter. -/
theorem given_eq (hp : p.Lawful) (hlog : s.OnLog d) (hcounted : s.Counted) {op : Op} {env : Env} {k : ℕ}
    {x : Mem Store} (hroom : s.sequence.toNat + (op.batch.getD []).length < 2 ^ 64)
    (hrun : op.run p dir ⟨s, d, env, k⟩ = .ok () x) :
    op.given p ⟨s, d, env, k⟩ = (batchLog s.sequence (op.batch.getD [])).map WalEntry.sequence := by
  unfold Op.given Op.appended
  cases hb : op.batch with
  | none => rfl
  | some b =>
    rw [hb] at hroom
    rw [run_of_batch hb, writeBatch_eq] at hrun
    dsimp only [Option.getD_some] at hroom ⊢
    cases hrec : Store.recordBatch p b ⟨s, d, env, k⟩ with
    | error e y =>
      rw [bind_error hrec] at hrun
      cases hrun
    | ok r y =>
      have hrecord : Does env (Store.recordBatch p b) s d (fun _ _ d' => d'.bytesOf walName = d.bytesOf walName ++
          logBytes p (batchLog s.sequence b ++ [commitEntry (batchEnd s.sequence b)])) fun _ _ _ => True := by
        refine does_recordBatch b hlog hcounted (fun _ w' d' bs _ _ hbs hbecomes => ?_)
          (fun _ _ _ _ _ _ _ _ _ => trivial) (Or.inl hroom)
        rw [hbecomes.bytes, hbs]
      have hbytes := hrecord.of_ok hrec
      dsimp only
      have hlen := y.disk.bytesOf_length_le walName
      rw [hbytes, List.length_append] at hlen
      rw [hbytes, List.drop_left]
      refine numbersIn_batch hp b _ ?_
      unfold maxFileLen at hlen
      unfold maxVecLen
      omega

/-! ## The numbers of one batch -/

/-- The entries of a batch take the numbers after `n`, one by one. -/
theorem toNat_batchLog (b : Batch) (h : n.toNat + b.length < 2 ^ 64) :
    ((batchLog n b).map WalEntry.sequence).map UInt64.toNat = List.range' (n.toNat + 1) b.length := by
  induction b generalizing n with
  | nil => rfl
  | cons e b ih =>
    rw [List.length_cons] at h
    have hsucc := toNat_succ (n := n) (by omega)
    have htail := ih (n := n + 1) (by omega)
    rw [hsucc] at htail
    rw [batchLog, List.map_cons, List.map_cons, sequence_pendingEntry, htail, List.length_cons,
      List.range'_succ, hsucc]

theorem mem_batchLog {b : Batch} (h : n.toNat + b.length < 2 ^ 64) {m : UInt64}
    (hm : m ∈ (batchLog n b).map WalEntry.sequence) : n < m ∧ m ≤ batchEnd n b := by
  have hmem := List.mem_map_of_mem (f := UInt64.toNat) hm
  rw [toNat_batchLog b h, List.mem_range'_1] at hmem
  rw [UInt64.lt_iff_toNat_lt, UInt64.le_iff_toNat_le, toNat_batchEnd b h]
  omega

theorem pairwise_batchLog {b : Batch} (h : n.toNat + b.length < 2 ^ 64) :
    ((batchLog n b).map WalEntry.sequence).Pairwise (· < ·) := by
  have hrange : (((batchLog n b).map WalEntry.sequence).map UInt64.toNat).Pairwise (· < ·) := by
    rw [toNat_batchLog b h]
    exact List.pairwise_lt_range'
  rw [List.pairwise_map] at hrange
  exact hrange.imp fun hlt => UInt64.lt_iff_toNat_lt.2 hlt

/-- The first number after zero is one. -/
theorem one_mem_batchLog {b : Batch} (hb : (batchLog 0 b).map WalEntry.sequence ≠ []) :
    (1 : UInt64) ∈ (batchLog 0 b).map WalEntry.sequence := by
  cases b with
  | nil => exact absurd rfl hb
  | cons e b =>
    rw [batchLog, List.map_cons, sequence_pendingEntry]
    exact List.mem_cons_self ..

/-! ## Runs -/

/-- The numbers given in a run so far; whether an entry has been written; whether an opening has found the
log empty after that; and whether an entry has been written since. -/
structure Numbering where
  given : List UInt64
  written : Bool
  lost : Bool
  reused : Bool

/-- An operation returned that gave these numbers to its entries. -/
def Numbering.acked (c : Numbering) (op : Op) (given : List UInt64) : Numbering where
  given := c.given ++ given
  written := c.written || op.batch.isSome
  lost := c.lost
  reused := c.reused || (c.lost && op.batch.isSome)

/-- The store is dropped, with `wal.log` as on the disk `d`, and the directory opened again. -/
def Numbering.reopened (c : Numbering) (d : Disk) : Numbering :=
  { c with lost := c.lost || (c.written && (d.bytesOf walName).isEmpty) }

/-- The runs from an empty directory in which every call returns. -/
inductive SequenceRun (p : Prost) (dir : String) : Store → Disk → Numbering → Prop
  | opened {s₀ : Store} {k : ℕ} {x : Mem Store}
      (run : Store.openWithDir p dir ⟨s₀, Disk.empty, Env.quiet, k⟩ = .ok () x) :
      SequenceRun p dir x.self x.disk ⟨[], false, false, false⟩
  | acked {s : Store} {d : Disk} {c : Numbering} {op : Op} {k : ℕ} {x : Mem Store}
      (before : SequenceRun p dir s d c) (session : op ≠ .reopen)
      (run : op.run p dir ⟨s, d, Env.quiet, k⟩ = .ok () x) :
      SequenceRun p dir x.self x.disk (c.acked op (op.given p ⟨s, d, Env.quiet, k⟩))
  | reopened {s s₀ : Store} {d : Disk} {c : Numbering} {k : ℕ} {x : Mem Store}
      (before : SequenceRun p dir s d c)
      (run : Store.openWithDir p dir ⟨s₀, { d with locked := false }, Env.quiet, k⟩ = .ok () x) :
      SequenceRun p dir x.self x.disk (c.reopened d)

/-- The numbers are as the counter `n` of the store says: below it, or, once it has been lost, above
it. -/
structure Numbering.Counts (c : Numbering) (n : UInt64) : Prop where
  positive : ∀ m ∈ c.given, 0 < m
  written : c.written = true ↔ c.given ≠ []
  increasing : c.reused = false → c.given.Pairwise (· < ·)
  repeated : c.reused = true → ¬ c.given.Pairwise (· < ·)
  below : c.lost = false → (∀ m ∈ c.given, m ≤ n) ∧ (c.given = [] → n = 0)
  restarted : c.lost = true → c.reused = false → n = 0 ∧ c.given ≠ []

theorem isSome_batch_iff {op : Op} {given : List UInt64}
    (hgiven : given = (batchLog n (op.batch.getD [])).map WalEntry.sequence) :
    op.batch.isSome = true ↔ given ≠ [] := by
  cases hb : op.batch with
  | none =>
    rw [hgiven, hb]
    exact ⟨nofun, fun h => absurd rfl h⟩
  | some b =>
    refine iff_of_true rfl ?_
    rw [hgiven, hb]
    cases hnil : b with
    | nil => exact absurd hnil (batch_ne_nil hb)
    | cons e b => exact List.cons_ne_nil _ _

/-- Numbers given while the counter is known are above all earlier ones. -/
theorem Numbering.Counts.pairwise_append {c : Numbering} (h : c.Counts n) {b : Batch}
    (hroom : n.toNat + b.length < 2 ^ 64) (hc : c.reused = false) (hlost : c.lost = false ∨ b = []) :
    (c.given ++ (batchLog n b).map WalEntry.sequence).Pairwise (· < ·) := by
  refine List.pairwise_append.2 ⟨h.increasing hc, pairwise_batchLog hroom, fun i hi j hj => ?_⟩
  rcases hlost with hlost | rfl
  · have hle := (h.below hlost).1 i hi
    have hlt := (mem_batchLog hroom hj).1
    rw [UInt64.lt_iff_toNat_lt] at hlt ⊢
    rw [UInt64.le_iff_toNat_le] at hle
    omega
  · cases hj

/-- The first number after the loss is one, and an earlier one was at least that. -/
theorem Numbering.Counts.not_pairwise_append {c : Numbering} (h : c.Counts n) {b : Batch} (hc : c.reused = false)
    (hlost : c.lost = true) (hb : (batchLog n b).map WalEntry.sequence ≠ []) :
    ¬ (c.given ++ (batchLog n b).map WalEntry.sequence).Pairwise (· < ·) := by
  intro hpair
  obtain ⟨-, -, hacross⟩ := List.pairwise_append.1 hpair
  obtain ⟨rfl, hne⟩ := h.restarted hlost hc
  obtain ⟨m, hm⟩ := List.exists_mem_of_ne_nil _ hne
  have hlt := hacross m hm 1 (one_mem_batchLog hb)
  have hpos := h.positive m hm
  rw [UInt64.lt_iff_toNat_lt] at hlt hpos
  have h0 : (0 : UInt64).toNat = 0 := rfl
  have h1 : (1 : UInt64).toNat = 1 := rfl
  omega

/-- **Step.** An operation that returned moves the counter on to its last number. -/
theorem Numbering.Counts.acked {c : Numbering} (h : c.Counts n) {op : Op} {given : List UInt64}
    (hgiven : given = (batchLog n (op.batch.getD [])).map WalEntry.sequence)
    (hroom : n.toNat + (op.batch.getD []).length < 2 ^ 64) :
    (c.acked op given).Counts (batchEnd n (op.batch.getD [])) := by
  have hsome := isSome_batch_iff hgiven
  have hnil : given = [] → op.batch.getD [] = [] := by
    rintro rfl
    cases hb : op.batch.getD [] with
    | nil => rfl
    | cons e b =>
      rw [hb] at hgiven
      cases hgiven
  have hmem : ∀ m ∈ given, n < m ∧ m ≤ batchEnd n (op.batch.getD []) := by
    intro m hm
    rw [hgiven] at hm
    exact mem_batchLog hroom hm
  have hle := le_batchEnd (n := n) (op.batch.getD []) hroom
  have hend : given = [] → batchEnd n (op.batch.getD []) = n := fun hg => by rw [hnil hg]; rfl
  constructor
  case positive =>
    intro m hm
    rcases List.mem_append.1 hm with hm | hm
    · exact h.positive m hm
    · have hlt := (hmem m hm).1
      rw [UInt64.lt_iff_toNat_lt] at hlt ⊢
      exact lt_of_le_of_lt (Nat.zero_le _) hlt
  case written =>
    show (c.written || op.batch.isSome) = true ↔ c.given ++ given ≠ []
    rw [Bool.or_eq_true, h.written, hsome, ← not_and_or, ← List.append_eq_nil_iff]
  case increasing =>
    intro hreused
    have hreused : (c.reused || (c.lost && op.batch.isSome)) = false := hreused
    rw [Bool.or_eq_false_iff, Bool.and_eq_false_iff] at hreused
    show (c.given ++ given).Pairwise (· < ·)
    rw [hgiven]
    refine h.pairwise_append hroom hreused.1 (hreused.2.imp_right fun hnone => hnil ?_)
    by_contra hne
    rw [hsome.2 hne] at hnone
    cases hnone
  case repeated =>
    intro hreused
    show ¬ (c.given ++ given).Pairwise (· < ·)
    cases hc : c.reused with
    | true => exact fun hpair => h.repeated hc (List.pairwise_append.1 hpair).1
    | false =>
      have hreused : (c.reused || (c.lost && op.batch.isSome)) = true := hreused
      rw [hc, Bool.false_or, Bool.and_eq_true] at hreused
      have hne := hsome.1 hreused.2
      rw [hgiven] at hne ⊢
      exact h.not_pairwise_append hc hreused.1 hne
  case below =>
    intro hlost
    have hlost : c.lost = false := hlost
    constructor
    · intro m hm
      rcases List.mem_append.1 hm with hm | hm
      · have hbelow := (h.below hlost).1 m hm
        rw [UInt64.le_iff_toNat_le] at hbelow hle ⊢
        omega
      · exact (hmem m hm).2
    · intro hemp
      obtain ⟨hc, hg⟩ := List.append_eq_nil_iff.1 hemp
      rw [hend hg]
      exact (h.below hlost).2 hc
  case restarted =>
    intro hlost hreused
    have hreused : (c.reused || (c.lost && op.batch.isSome)) = false := hreused
    have hlost : c.lost = true := hlost
    rw [hlost, Bool.true_and, Bool.or_eq_false_iff] at hreused
    have hg : given = [] := by
      by_contra hne
      rw [hsome.2 hne] at hreused
      cases hreused.2
    obtain ⟨hn, hne⟩ := h.restarted hlost hreused.1
    rw [hend hg]
    refine ⟨hn, fun hemp => hne ?_⟩
    exact (List.append_eq_nil_iff.1 hemp).1

/-- The counter after an opening is that of the log. -/
theorem Numbering.Counts.reopened {c : Numbering} (h : c.Counts n) (hm : Mirrors p log n s d) :
    (c.reopened d).Counts (lastSequence log) := by
  have hle := hm.lastSequence_le
  have hzero : n = 0 → lastSequence log = 0 := by
    rintro rfl
    exact UInt64.toNat_inj.1 (Nat.le_zero.1 (UInt64.le_iff_toNat_le.1 hle))
  refine ⟨h.positive, h.written, h.increasing, h.repeated, fun hlost => ?_, fun hlost hreused => ?_⟩
  · -- the log holds the last number, or no number has been given
    have hlost : (c.lost || (c.written && (d.bytesOf walName).isEmpty)) = false := hlost
    rw [Bool.or_eq_false_iff, Bool.and_eq_false_iff] at hlost
    obtain ⟨hbelow, hempty⟩ := h.below hlost.1
    refine ⟨fun m hmem => ?_, fun hemp => hzero (hempty hemp)⟩
    have hlog : log ≠ [] := by
      rintro rfl
      rcases hlost.2 with hwritten | hbytes
      · rw [h.written.2 (List.ne_nil_of_mem (l := c.given) hmem)] at hwritten
        cases hwritten
      · rw [hm.bytes] at hbytes
        cases hbytes
    rw [hm.last hlog]
    exact hbelow m hmem
  · have hreused : c.reused = false := hreused
    by_cases hbefore : c.lost = true
    · obtain ⟨hn, hne⟩ := h.restarted hbefore hreused
      exact ⟨hzero hn, hne⟩
    · have hlost : (c.lost || (c.written && (d.bytesOf walName).isEmpty)) = true := hlost
      rw [Bool.not_eq_true] at hbefore
      rw [hbefore, Bool.false_or, Bool.and_eq_true] at hlost
      have hbytes : d.bytesOf walName = [] := by simpa using hlost.2
      have hlen := length_le_logBytes (p := p) log
      rw [hm.bytes, List.append_nil, List.append_nil] at hbytes
      rw [hbytes, List.length_nil] at hlen
      obtain rfl : log = [] := List.length_eq_zero_iff.1 (by omega)
      exact ⟨rfl, h.written.1 hlost.1⟩

/-- **The invariant of a run.** -/
theorem SequenceRun.counts (hp : p.Lawful) {c : Numbering} (h : SequenceRun p dir s d c) :
    ∃ log n, Mirrors p log n s d ∧ c.Counts n := by
  induction h with
  | @opened s₀ k x run =>
    have hopen : Does Env.quiet (Store.openWithDir p dir) s₀ Disk.empty _ _ :=
      does_openWithDir_mirrors hp (stored_empty (p := p)).toLogStored rfl
    exact ⟨_, _, hopen.of_ok run, nofun, ⟨nofun, fun h => absurd rfl h⟩, fun _ => .nil, nofun,
      fun _ => ⟨nofun, fun _ => rfl⟩, nofun⟩
  | @acked s d c op k x _ hopen run ih =>
    obtain ⟨log, n, hm, hc⟩ := ih
    have hop : Does Env.quiet (op.run p dir) s d _ _ := does_op_mirrors hm Env.quiet_crashesAtClear hopen
    have hadv := hop.of_ok run
    obtain ⟨log', hm'⟩ := hadv.mirrors
    refine ⟨log', _, hm', hc.acked ?_ hadv.room⟩
    rw [given_eq hp hm.toOnLog hm.counted (by rw [hm.sequence]; exact hadv.room) run, hm.sequence]
  | @reopened s s₀ d c k x _ run ih =>
    obtain ⟨log, n, hm, hc⟩ := ih
    have hopen : Does Env.quiet (Store.openWithDir p dir) s₀ { d with locked := false } _ _ :=
      does_openWithDir_mirrors hp (hm.toLogStored.frame rfl) rfl
    exact ⟨log, _, hopen.of_ok run, hc.reopened hm⟩

/-- **Sequence numbers increase** over the sessions of a table exactly as long as no entry is written
after an opening that found the log empty although numbers had been given. -/
theorem sequences_increase_iff (hp : p.Lawful) {c : Numbering} (h : SequenceRun p dir s d c) :
    c.given.Pairwise (· < ·) ↔ c.reused = false := by
  obtain ⟨log, n, -, hc⟩ := h.counts hp
  cases hr : c.reused with
  | true => exact iff_of_false (hc.repeated hr) nofun
  | false => exact iff_of_true (hc.increasing hr) rfl

/-- The put of a key. -/
def sampleKey (k : UInt8) : Op := .setValue [k] (.integer 5)

theorem sampleKey_ne_reopen (k : UInt8) : sampleKey k ≠ .reopen := nofun

set_option synthInstance.maxSize 1000 in
/-- A put, a drop and an opening, and another put: the log still held the first number. -/
theorem sequences_increase_reopen : ∃ s d c, SequenceRun Prost.wire "db" s d c ∧ c.reused = false ∧
    c.given = [1, 2] ∧ (c.given.Pairwise (· < ·) ↔ c.reused = false) := by
  have hruns : wp (Store.openWithDir Prost.wire "db")
      ⟨Store.fresh "db" ⟨walName, false⟩, Disk.empty, Env.quiet, 0⟩
      (fun _ x => (sampleKey 1).given Prost.wire ⟨x.self, x.disk, Env.quiet, 0⟩ = [1] ∧
        wp ((sampleKey 1).run Prost.wire "db") ⟨x.self, x.disk, Env.quiet, 0⟩
        (fun _ y => y.disk.bytesOf walName ≠ [] ∧ wp (Store.openWithDir Prost.wire "db")
            ⟨Store.fresh "db" ⟨walName, false⟩, { y.disk with locked := false }, Env.quiet, 0⟩
          (fun _ z => (sampleKey 2).given Prost.wire ⟨z.self, z.disk, Env.quiet, 0⟩ = [2] ∧
            wp ((sampleKey 2).run Prost.wire "db") ⟨z.self, z.disk, Env.quiet, 0⟩ (fun _ _ => True)
              fun _ _ => False)
          fun _ _ => False)
        fun _ _ => False)
      fun _ _ => False := by decide +kernel
  obtain ⟨_, x, hopen, hgiven, hruns⟩ := hruns.returns
  obtain ⟨_, y, hput, hbytes, hruns⟩ := hruns.returns
  obtain ⟨_, z, hreopen, hgiven', hruns⟩ := hruns.returns
  obtain ⟨_, w, hput', -⟩ := hruns.returns
  have hrun := ((SequenceRun.opened hopen).acked (sampleKey_ne_reopen 1) hput).reopened hreopen
  have hrun := hrun.acked (sampleKey_ne_reopen 2) hput'
  have hkept : (y.disk.bytesOf walName).isEmpty = false := by simpa using hbytes
  refine ⟨_, _, _, hrun, ?_, ?_, sequences_increase_iff wire_lawful hrun⟩
  · simp [Numbering.acked, Numbering.reopened, hkept]
  · simp [Numbering.acked, Numbering.reopened, hgiven, hgiven']

set_option synthInstance.maxSize 1000 in
/-- A put, a flush, a drop and an opening, and another put: both puts get the number one. -/
theorem sequence_number_reused : ∃ s d c, SequenceRun Prost.wire "db" s d c ∧ c.given = [1, 1] ∧
    ¬ c.given.Pairwise (· < ·) := by
  have hruns : wp (Store.openWithDir Prost.wire "db")
      ⟨Store.fresh "db" ⟨walName, false⟩, Disk.empty, Env.quiet, 0⟩
      (fun _ x => (sampleKey 1).given Prost.wire ⟨x.self, x.disk, Env.quiet, 0⟩ = [1] ∧
        wp ((sampleKey 1).run Prost.wire "db") ⟨x.self, x.disk, Env.quiet, 0⟩
        (fun _ y => wp (Op.flush.run Prost.wire "db") ⟨y.self, y.disk, Env.quiet, 0⟩
          (fun _ z => wp (Store.openWithDir Prost.wire "db")
              ⟨Store.fresh "db" ⟨walName, false⟩, { z.disk with locked := false }, Env.quiet, 0⟩
            (fun _ v => (sampleKey 2).given Prost.wire ⟨v.self, v.disk, Env.quiet, 0⟩ = [1] ∧
              wp ((sampleKey 2).run Prost.wire "db") ⟨v.self, v.disk, Env.quiet, 0⟩ (fun _ _ => True)
                fun _ _ => False)
            fun _ _ => False)
          fun _ _ => False)
        fun _ _ => False)
      fun _ _ => False := by decide +kernel
  obtain ⟨_, x, hopen, hgiven, hruns⟩ := hruns.returns
  obtain ⟨_, y, hput, hruns⟩ := hruns.returns
  obtain ⟨_, z, hflush, hruns⟩ := hruns.returns
  obtain ⟨_, v, hreopen, hgiven', hruns⟩ := hruns.returns
  obtain ⟨_, w, hput', -⟩ := hruns.returns
  have hsession : Op.flush ≠ .reopen := nofun
  have hrun := ((SequenceRun.opened hopen).acked (sampleKey_ne_reopen 1) hput).acked hsession hflush
  have hrun := (hrun.reopened hreopen).acked (sampleKey_ne_reopen 2) hput'
  have hnone : Op.flush.given Prost.wire ⟨y.self, y.disk, Env.quiet, 0⟩ = [] := rfl
  have hnumbers : (((((⟨[], false, false, false⟩ : Numbering).acked (sampleKey 1) [1]).acked .flush []).reopened
      z.disk).acked (sampleKey 2) [1]).given = [1, 1] := rfl
  rw [hgiven, hnone, hgiven'] at hrun
  refine ⟨_, _, _, hrun, hnumbers, ?_⟩
  rw [hnumbers]
  decide

end FerrumDB
