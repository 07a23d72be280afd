import FerrumDB.Table
import FerrumDB.CrashSafety
import FerrumDB.FlushCrash
import FerrumDB.Store.Scan
import FerrumDB.WriteFaults

/-!
# Only bytes come back

The table API puts `Value::Bytes` into the log and the memtable and nothing else, and flushes, merges,
crashes and reopenings move values without changing them. So every layer of a table that is only used
through the API holds bytes (`Layers.HoldsBytes`, `ByteRun.agrees`), and no read meets a value of another
kind (`only_bytes_come_back`).
-/

namespace FerrumDB

open CrashLogic FramedLog Overlay

variable {env : Env} {s : Store} {d : Disk} {L L' : Layers} {p : Prost} {dir : String}

/-! ## Layers of bytes -/

def Value.IsBytes (v : Value) : Prop := ∃ b, v = .bytes b

def Entry.IsBytes (e : Entry) : Prop := ∀ v, e = .value v → v.IsBytes

/-- A log record whose value, if it has one, decodes to bytes. -/
def WalEntry.IsBytes (e : WalEntry) : Prop :=
  ∀ msg, e.value = some msg → ∃ b, Value.fromProto msg = .ok (.bytes b)

def BatchIsBytes (b : Batch) : Prop := ∀ e ∈ b, ∀ v, e.2 = some v → v.IsBytes

/-- All values of the layers are bytes, those of the log and the shadowed ones included. -/
structure Layers.HoldsBytes (L : Layers) : Prop where
  data : ∀ key e, layer L.data key = some e → e.IsBytes
  log : ∀ e ∈ L.log, e.IsBytes
  tables : ∀ t ∈ L.tables, ∀ key e, layer t.2 key = some e → e.IsBytes

theorem holdsBytes_empty : Layers.empty.HoldsBytes where
  data key e he := by
    have hnone : layer Layers.empty.data key = none := Std.ExtTreeMap.getElem?_empty
    rw [hnone] at he
    cases he
  log := nofun
  tables := nofun

theorem isBytes_entryOf {v : Option Value} (h : ∀ w, v = some w → w.IsBytes) : (entryOf v).IsBytes := by
  intro w hw
  cases v with
  | none => cases hw
  | some w => cases hw; exact h _ rfl

theorem isBytes_applyBatch {b : Batch} (hb : BatchIsBytes b) {m : Memtable}
    (hm : ∀ key e, layer m key = some e → e.IsBytes) :
    ∀ key e, layer (applyBatch m b) key = some e → e.IsBytes := by
  induction b generalizing m with
  | nil => exact hm
  | cons x b ih =>
    refine ih (fun y hy => hb y (List.mem_cons_of_mem _ hy)) ?_
    intro key e he
    unfold layer at he
    rw [Std.ExtTreeMap.getElem?_insert] at he
    split at he
    · cases he
      exact isBytes_entryOf (hb x (List.mem_cons_self ..))
    · exact hm key e he

theorem isBytes_batchLog {b : Batch} (hb : BatchIsBytes b) (sequence : UInt64) :
    ∀ e ∈ batchLog sequence b, e.IsBytes := by
  induction b generalizing sequence with
  | nil => nofun
  | cons x b ih =>
    intro e he
    rcases List.mem_cons.1 he with rfl | he
    · intro msg hmsg
      obtain ⟨key, v⟩ := x
      cases v with
      | none => cases hmsg
      | some v =>
        cases hmsg
        obtain ⟨bytes, rfl⟩ := hb _ (List.mem_cons_self ..) v rfl
        exact ⟨bytes, Value.fromProto_toProto _⟩
    · exact ih (fun y hy => hb y (List.mem_cons_of_mem _ hy)) _ e he

theorem Layers.HoldsBytes.write (h : L.HoldsBytes) {b : Batch} (hb : BatchIsBytes b) :
    (L.write b).HoldsBytes where
  data := isBytes_applyBatch hb h.data
  log e he := by
    rcases List.mem_append.1 he with he | he
    · exact h.log e he
    rcases List.mem_append.1 he with he | he
    · exact isBytes_batchLog hb _ e he
    · rw [List.mem_singleton.1 he]
      exact nofun
  tables := h.tables

/-- The memtable may be in a table and in the log at the same time. -/
theorem Layers.HoldsBytes.tabled (h : L.HoldsBytes) :
    Layers.HoldsBytes { L with tables := (L.nextId, L.data) :: L.tables } where
  data := h.data
  log := h.log
  tables t ht := by
    rcases List.mem_cons.1 ht with rfl | ht
    · exact h.data
    · exact h.tables t ht

theorem Layers.HoldsBytes.flushTable (h : L.HoldsBytes) : L.flushTable.HoldsBytes where
  data := holdsBytes_empty.data
  log := nofun
  tables := h.tabled.tables

theorem Layers.HoldsBytes.compact (h : L.HoldsBytes) : L.compact.HoldsBytes := by
  unfold Layers.compact
  split
  · exact h
  split
  · exact ⟨h.data, h.log, nofun⟩
  · refine ⟨h.data, h.log, fun t ht key e he => ?_⟩
    rw [List.mem_singleton.1 ht, layer_mergedTables, Option.filter_eq_some_iff] at he
    obtain ⟨l, hl, hkey⟩ := exists_of_first he.1
    obtain ⟨u, hu, rfl⟩ := List.mem_map.1 hl
    exact h.tables u hu key e hkey

theorem Layers.HoldsBytes.flush (h : L.HoldsBytes) : L.flush.HoldsBytes := by
  unfold Layers.flush Layers.maybeCompact
  split
  · exact h
  split
  · exact h.flushTable.compact
  · exact h.flushTable

theorem Layers.HoldsBytes.commit (h : L.HoldsBytes) {b : Batch} (hb : BatchIsBytes b) :
    (L.commit b).HoldsBytes := by
  unfold Layers.commit Layers.maybeFlush
  split
  · exact (h.write hb).flush
  · exact h.write hb

theorem Layers.HoldsBytes.reopen (h : L.HoldsBytes) : L.reopen.HoldsBytes := ⟨h.data, h.log, h.tables⟩

/-- An operation that writes, if at all, bytes. -/
def Op.IsBytes (op : Op) : Prop := ∀ b, op.batch = some b → BatchIsBytes b

/-- **Step.** -/
theorem Layers.HoldsBytes.step (h : L.HoldsBytes) {op : Op} (hop : op.IsBytes) : (op.step L).HoldsBytes := by
  cases hb : op.batch with
  | some b =>
    rw [step_of_batch hb]
    exact h.commit (hop b hb)
  | none =>
    cases op with
    | setValue key value => cases hb
    | deleteValue key => cases hb
    | getValue key => exact h
    | commit calls =>
      have hsame : (Op.commit calls).step L = L := by
        unfold Op.batch at hb
        dsimp only at hb
        split at hb
        · next hemp => exact if_pos hemp
        · cases hb
      rw [hsame]
      exact h
    | rollback calls => exact h
    | flush => exact h.flush
    | compact => exact h.compact
    | setMemtableBudget bytes => exact ⟨h.data, h.log, h.tables⟩
    | reopen => exact h.reopen

/-- The same after a crash in the operation. -/
theorem Layers.HoldsBytes.crashesTo (h : L.HoldsBytes) {op : Op} (hop : op.IsBytes)
    (hcrash : L.CrashesTo op L') : L'.HoldsBytes := by
  induction hcrash with
  | before => exact h
  | logged hb => exact h.write (hop _ hb)
  | tabled _ ih => exact ih.tabled
  | flushed _ ih => exact ih.flushTable

/-- Every key reads as bytes. -/
theorem Layers.HoldsBytes.get (h : L.HoldsBytes) {key : Bytes} {v : Value} (hv : L.get key = some v) :
    v.IsBytes := by
  unfold Layers.get resolve at hv
  obtain ⟨e, he, hlive⟩ := Option.bind_eq_some_iff.1 hv
  obtain ⟨l, hl, hkey⟩ := exists_of_first he
  have hbytes : e.IsBytes := by
    rcases List.mem_cons.1 hl with rfl | hl
    · exact h.data key e hkey
    · obtain ⟨t, ht, rfl⟩ := List.mem_map.1 hl
      exact h.tables t ht key e hkey
  cases e with
  | value w => cases hlive; exact hbytes _ rfl
  | tombstone => cases hlive

/-! ## Calls of the API -/

/-- The calls of a transaction on the store below. -/
def storeCalls (calls : List (Bytes × Option Bytes)) : Batch := calls.map fun e => (e.1, e.2.map .bytes)

/-- The operation on the store that a writing call is. -/
def Call.op : Call → Option Op
  | .put key value => some (.setValue key (.bytes value))
  | .delete key => some (.deleteValue key)
  | .putBatch entries => some (.commit (entries.map fun e => (e.1, some (.bytes e.2))))
  | .commit calls => some (.commit (storeCalls calls))
  | .rollback calls => some (.rollback (storeCalls calls))
  | _ => none

theorem inner_after (calls : List (Bytes × Option Bytes)) :
    (Txn.after calls).inner = buffered (storeCalls calls) := by
  induction calls using List.reverseRecOn with
  | nil => rfl
  | append_singleton calls e ih =>
    obtain ⟨key, v⟩ := e
    unfold Txn.after buffered storeCalls at *
    rw [List.map_append, List.foldl_append, List.foldl_append, ← ih]
    cases v <;> rfl

theorem foldl_setValue (entries : List (Bytes × Bytes)) :
    entries.foldl (fun tx e => tx.setValue e.1 (.bytes e.2)) Store.beginTransaction =
      buffered (entries.map fun e => (e.1, some (.bytes e.2))) := by
  unfold buffered
  rw [List.foldl_map]

theorem core_discard {α : Type} (m : Prog Store α) : (do let _ ← core m) = core (discard m) := by
  funext x
  show EStateM.bind (core m) _ x = core (EStateM.map _ m) x
  unfold core EStateM.bind EStateM.map
  dsimp only
  cases m x <;> rfl

theorem run_of_op (dir : String) {c : Call} {op : Op} (h : c.op = some op) : c.run p = core (op.run p dir) := by
  cases c with
  | put key value => cases h; exact core_discard _
  | delete key => cases h; exact core_discard _
  | putBatch entries =>
    cases h
    show Table.putBatch p entries = _
    unfold Table.putBatch
    rw [foldl_setValue]
    rfl
  | commit calls =>
    cases h
    show core _ = _
    rw [inner_after]
    rfl
  | rollback calls => cases h; rfl
  | _ => cases h

/-- What a transaction holds for a key was put there by one of its calls. -/
theorem mem_of_pending {calls : Batch} {key : Bytes} {v : Option Value}
    (h : (buffered calls).pending[key]? = some v) : (key, v) ∈ calls := by
  induction calls using List.reverseRecOn with
  | nil => cases h.symm.trans Std.ExtTreeMap.getElem?_empty
  | append_singleton calls e ih =>
    rw [pending_concat, Std.ExtTreeMap.getElem?_insert] at h
    split at h
    · next heq =>
      have hkey : e.1 = key := Std.compare_eq_iff_eq.1 heq
      refine List.mem_append.2 (Or.inr (List.mem_singleton.2 ?_))
      rw [← Option.some.inj h, ← hkey]
    · exact List.mem_append.2 (Or.inl (ih h))

theorem isBytes_storeCalls (calls : List (Bytes × Option Bytes)) : BatchIsBytes (storeCalls calls) := by
  intro e he v hv
  obtain ⟨x, -, rfl⟩ := List.mem_map.1 he
  obtain ⟨bytes, -, rfl⟩ := Option.map_eq_some_iff.1 hv
  exact ⟨bytes, rfl⟩

theorem isBytes_commit {calls : Batch} (h : BatchIsBytes calls) : (Op.commit calls).IsBytes := by
  intro b hb
  unfold Op.batch at hb
  dsimp only at hb
  split at hb
  · cases hb
  · cases hb
    intro e he v hv
    have hmem := mem_of_pending (Std.ExtTreeMap.mem_toList_iff_getElem?_eq_some.1 he)
    exact h _ hmem v hv

/-- **The API writes bytes.** -/
theorem isBytes_op {c : Call} {op : Op} (h : c.op = some op) : op.IsBytes := by
  cases c with
  | put key value =>
    cases h
    rintro b hb e he v hv
    cases hb
    rw [List.mem_singleton.1 he] at hv
    cases hv
    exact ⟨value, rfl⟩
  | delete key =>
    cases h
    rintro b hb e he v hv
    cases hb
    rw [List.mem_singleton.1 he] at hv
    cases hv
  | putBatch entries =>
    cases h
    refine isBytes_commit fun e he v hv => ?_
    obtain ⟨x, -, rfl⟩ := List.mem_map.1 he
    cases hv
    exact ⟨x.2, rfl⟩
  | commit calls => cases h; exact isBytes_commit (isBytes_storeCalls calls)
  | rollback calls => cases h; exact nofun
  | _ => cases h

/-! ## Reads -/

theorem fromApp_ne_unexpectedValue (e : AppError) : Error.fromApp e ≠ .unexpectedValue := by
  cases e <;> exact nofun

theorem ofStop_ne_unexpectedValue (e : Stop) : Failure.ofStop e ≠ .err .unexpectedValue := by
  cases e with
  | err e => exact fun h => fromApp_ne_unexpectedValue e (Failure.err.inj h)
  | panic => exact nofun
  | crash => exact nofun

/-- Run from `s` and `d`, the call returns with `Q`, or fails, but not with `UnexpectedValue`, and leaves
the disk alone. -/
def Reading {α : Type} (env : Env) (c : Api α) (s : Store) (d : Disk) (Q : α → Store → Prop) : Prop :=
  ∀ clock, wp c ⟨s, d, env, clock⟩ (fun r x => x.env = env ∧ x.disk = d ∧ Q r x.self)
    fun e x => e ≠ .err .unexpectedValue ∧ x.disk = d

section Reading

variable {α β : Type} {Q : α → Store → Prop}

theorem Reading.pure {r : α} (h : Q r s) : Reading env (pure r) s d Q := fun _ => ⟨rfl, rfl, h⟩

theorem Reading.bind {c : Api β} {f : β → Api α} {R : β → Store → Prop} (h : Reading env c s d R)
    (hf : ∀ r s', R r s' → Reading env (f r) s' d Q) : Reading env (c >>= f) s d Q := by
  intro clock
  refine (h clock).seq fun r x hx => ?_
  obtain ⟨s', d', env', clock'⟩ := x
  obtain ⟨rfl, rfl, hr⟩ := hx
  exact hf r s' hr clock'

theorem Reading.discard {c : Api α} {Q : Unit → Store → Prop} (h : Reading env c s d fun _ s' => Q () s') :
    Reading env (discard c) s d Q := by
  intro clock
  exact (wp_map c _ _ _ _).2 (h clock)

theorem Reading.core {m : Prog Store α}
    (h : Does env m s d (fun r s' d' => d' = d ∧ Q r s') fun _ _ d' => d' = d) :
    Reading env (core m) s d Q := by
  intro clock
  have hm := h clock
  unfold wp FerrumDB.core at *
  cases hrun : m ⟨s, d, env, clock⟩ with
  | ok r x =>
    rw [hrun] at hm
    exact hm
  | error e x =>
    rw [hrun] at hm
    exact ⟨ofStop_ne_unexpectedValue e, hm.2⟩

theorem Reading.ofResult {r : Except Error α} {a : α} (hr : r = .ok a) (h : Q a s) :
    Reading env (ofResult r) s d Q := by
  rw [hr]
  exact .pure h

end Reading

/-- A value of bytes, or none. -/
theorem asBytes_of_isBytes {v : Option Value} (h : ∀ w, v = some w → w.IsBytes) :
    ∃ r, asBytes v = .ok r := by
  cases v with
  | none => exact ⟨none, rfl⟩
  | some w =>
    obtain ⟨bytes, rfl⟩ := h w rfl
    exact ⟨some bytes, rfl⟩

theorem bytesPairs_of_isBytes {pairs : List (Bytes × Value)} (h : ∀ e ∈ pairs, e.2.IsBytes)
    (out : List (Bytes × Bytes)) : ∃ r, bytesPairs pairs out = .ok r := by
  induction pairs generalizing out with
  | nil => exact ⟨out, rfl⟩
  | cons e pairs ih =>
    obtain ⟨key, v⟩ := e
    obtain ⟨bytes, rfl⟩ := h _ (List.mem_cons_self ..)
    exact ih (fun x hx => h x (List.mem_cons_of_mem _ hx)) _

theorem reading_get (hp : p.Lawful) (h : Agrees p s d L [] []) (hbytes : L.HoldsBytes) (key : Bytes) :
    Reading env (Table.get p key) s d fun _ s' => Agrees p s' d L [] [] := by
  have hfollows : ∀ s', Follows p s' d L → Agrees p s' d L [] [] := fun _ h' =>
    { h', h.toLogStored with }
  have hread : Reading env (core (Store.getValue p key)) s d fun r s' =>
      r = L.get key ∧ Agrees p s' d L [] [] := .core
    (does_getValue hp h.toFollows (fun s' h' => ⟨rfl, rfl, hfollows s' h'⟩) fun _ _ _ _ => rfl)
  refine hread.bind fun r s' hr => ?_
  obtain ⟨rfl, h'⟩ := hr
  obtain ⟨r, hr⟩ := asBytes_of_isBytes fun w hw => hbytes.get hw
  exact .ofResult hr h'

theorem reading_getBatch (hp : p.Lawful) (h : Agrees p s d L [] []) (hbytes : L.HoldsBytes)
    (keys : List Bytes) : Reading env (Table.getBatch p keys) s d fun _ s' => Agrees p s' d L [] [] := by
  induction keys generalizing s with
  | nil => exact .pure h
  | cons key keys ih =>
    refine (reading_get hp h hbytes key).bind fun _ s' h' => ?_
    exact (ih h').bind fun _ _ h'' => .pure h''

theorem reading_txnGet (hp : p.Lawful) (h : Agrees p s d L [] []) (hbytes : L.HoldsBytes)
    (calls : List (Bytes × Option Bytes)) (key : Bytes) :
    Reading env ((Txn.after calls).get p key) s d fun _ s' => Agrees p s' d L [] [] := by
  have hread : Reading env (Table.get p key) s d fun _ s' => Agrees p s' d L [] [] :=
    reading_get hp h hbytes key
  unfold Txn.get Transaction.getValue
  rw [inner_after]
  cases hk : (buffered (storeCalls calls)).pending[key]? with
  | none => exact hread
  | some v =>
    obtain ⟨r, hr⟩ := asBytes_of_isBytes fun w hw =>
      isBytes_storeCalls calls _ (mem_of_pending hk) w hw
    exact .ofResult hr h

theorem reading_rangeBounds (hp : p.Lawful) (h : Agrees p s d L [] []) (hbytes : L.HoldsBytes) (lo hi : Bound) :
    Reading env (Table.rangeBounds p lo hi) s d fun _ s' => Agrees p s' d L [] [] := by
  have hrunning := h.toFollows.running
  have hread : Reading env (core (Store.scanRange p lo hi)) s d fun r s' =>
      r = L.scan lo hi ∧ Agrees p s' d L [] [] := by
    refine .core ?_
    by_cases hscan : s.Scannable lo hi
    · exact does_scanRange hp hrunning hscan ⟨rfl, rfl, h⟩ fun _ _ => rfl
    · exact does_scanRange_panics hp hrunning hscan rfl fun _ _ => rfl
  refine hread.bind fun r s' hr => ?_
  obtain ⟨rfl, h'⟩ := hr
  have hpairs : ∀ e ∈ L.scan lo hi, e.2.IsBytes := fun e he => hbytes.get (mem_scan.1 he).2
  obtain ⟨r, hr⟩ := bytesPairs_of_isBytes hpairs []
  exact .ofResult hr h'

/-- **Reads** of a table of bytes. -/
theorem reading_of_op_eq_none (hp : p.Lawful) (h : Agrees p s d L [] []) (hbytes : L.HoldsBytes) {c : Call}
    (hc : c.op = none) : Reading env (c.run p) s d fun _ s' => Agrees p s' d L [] [] := by
  cases c with
  | get key => exact (reading_get hp h hbytes key).discard
  | contains key => exact ((reading_get hp h hbytes key).bind fun _ _ h' => .pure h').discard
  | getBatch keys => exact (reading_getBatch hp h hbytes keys).discard
  | txnGet calls key => exact (reading_txnGet hp h hbytes calls key).discard
  | scan => exact (reading_rangeBounds hp h hbytes _ _).discard
  | range start stop => exact (reading_rangeBounds hp h hbytes _ _).discard
  | scanPrefix start =>
    have hrange : ∀ hi, Reading env (Table.rangeBounds p (.included start) hi) s d fun _ s' =>
        Agrees p s' d L [] [] := reading_rangeBounds hp h hbytes (.included start)
    show Reading env (discard (Table.scanPrefix p start)) s d _
    unfold Table.scanPrefix
    cases prefixUpperBound start with
    | some u => exact (hrange (.excluded u)).discard
    | none => exact (hrange .unbounded).discard
  | _ => cases hc

/-! ## Runs -/

/-- A writing call fits the layers that the store follows. -/
def Call.Fits (p : Prost) (s : Store) (d : Disk) (c : Call) : Prop := ∀ op, c.op = some op → StepFits p s d op

/-- A run of calls that fit on a table that starts empty: new, or deleted and made again. Between two
calls the table may be dropped and opened again, and the process may stop between two calls or at any
call on the log, in the middle of a write at any byte. No I/O call returns an error. -/
inductive ByteRun (p : Prost) (dir : String) : Store → Disk → Prop
  | opened {s₀ : Store} {n : ℕ} {x : Mem Store}
      (run : Store.openWithDir p dir ⟨s₀, Disk.empty, Env.quiet, n⟩ = .ok () x) : ByteRun p dir x.self x.disk
  | returned {s : Store} {d : Disk} {c : Call} {env : Env} {n : ℕ} {x : Mem Store} (before : ByteRun p dir s d)
      (onLog : env.Spares offLog) (fits : c.Fits p s d) (run : c.run p ⟨s, d, env, n⟩ = .ok () x) :
      ByteRun p dir x.self x.disk
  | reopened {s : Store} {d : Disk} {n : ℕ} {x : Mem Store} (before : ByteRun p dir s d)
      (run : Op.reopen.run p dir ⟨s, d, Env.quiet, n⟩ = .ok () x) : ByteRun p dir x.self x.disk
  | idle {s s₀ : Store} {d : Disk} {n : ℕ} {y : Mem Store} (before : ByteRun p dir s d)
      (keep : FileName → ℕ)
      (reopen : Store.openWithDir p dir ⟨s₀, d.crash keep, Env.quiet, n⟩ = .ok () y) :
      ByteRun p dir y.self y.disk
  | crashed {s s₀ : Store} {d : Disk} {c : Call} {env : Env} {n k : ℕ} {x y : Mem Store}
      (before : ByteRun p dir s d) (onLog : env.Spares offLog) (fits : c.Fits p s d)
      (run : c.run p ⟨s, d, env, n⟩ = .error .crash x) (keep : FileName → ℕ)
      (reopen : Store.openWithDir p dir ⟨s₀, x.disk.crash keep, Env.quiet, k⟩ = .ok () y) :
      ByteRun p dir y.self y.disk

theorem core_ok {α : Type} {m : Prog Store α} {x y : Mem Store} {r : α} (h : m x = .ok r y) :
    core m x = .ok r y := by
  unfold core
  rw [h]

theorem core_eq_ok {α : Type} {m : Prog Store α} {x y : Mem Store} {r : α} (h : core m x = .ok r y) :
    m x = .ok r y := by
  unfold core at h
  cases hm : m x with
  | ok a z => rw [hm] at h; cases h; rfl
  | error e z => rw [hm] at h; cases h

theorem core_eq_crash {α : Type} {m : Prog Store α} {x y : Mem Store} (h : core m x = .error .crash y) :
    m x = .error .crash y := by
  unfold core at h
  cases hm : m x with
  | ok a z => rw [hm] at h; cases h
  | error e z =>
    rw [hm] at h
    cases e <;> cases h
    rfl

theorem op_ne_reopen {c : Call} {op : Op} (h : c.op = some op) : op ≠ .reopen := by
  cases c <;> cases h <;> exact nofun

/-- **The invariant of a run**: the store agrees with layers of bytes. -/
theorem ByteRun.agrees (hp : p.Lawful) (h : ByteRun p dir s d) :
    ∃ L, Agrees p s d L [] [] ∧ L.HoldsBytes := by
  induction h with
  | opened hrun => exact ⟨_, stored_empty.agrees_of_open hp rfl hrun, holdsBytes_empty.reopen⟩
  | @returned s d c env n x _ henv hfits hrun ih =>
    obtain ⟨L, hagrees, hbytes⟩ := ih
    cases hc : c.op with
    | some op =>
      rw [run_of_op dir hc] at hrun
      have hop : Does env (op.run p dir) _ _ _ _ := does_op_crashesTo hp hagrees (op_ne_reopen hc) henv
        (hfits op hc L hagrees.toFollows)
      exact ⟨op.step L, hop.of_ok (core_eq_ok hrun), hbytes.step (isBytes_op hc)⟩
    | none =>
      have hread := (reading_of_op_eq_none hp hagrees hbytes hc n).of_ok hrun
      exact ⟨L, by rw [hread.2.1]; exact hread.2.2, hbytes⟩
  | reopened _ hrun ih =>
    obtain ⟨L, hagrees, hbytes⟩ := ih
    have hop : Returns (Op.reopen.run p dir) _ _ _ := returns_op hp hagrees trivial
    exact ⟨L.reopen, hop.of_ok hrun, hbytes.reopen⟩
  | idle _ keep hopen ih =>
    obtain ⟨L, hagrees, hbytes⟩ := ih
    obtain ⟨junk, t, hst⟩ := hagrees.stored.crash keep
    exact ⟨L.reopen, hst.agrees_of_open hp rfl hopen, hbytes.reopen⟩
  | @crashed s s₀ d c env n k x y _ henv hfits hrun keep hopen ih =>
    obtain ⟨L, hagrees, hbytes⟩ := ih
    have hleft : ∃ L' junk t, Stored p (x.disk.crash keep) L' junk t ∧ L'.HoldsBytes := by
      cases hc : c.op with
      | some op =>
        rw [run_of_op dir hc] at hrun
        have hop : Does env (op.run p dir) _ _ _ _ := does_op_crashesTo hp hagrees (op_ne_reopen hc) henv
          (hfits op hc L hagrees.toFollows)
        obtain ⟨L', junk, t, hst, hreached⟩ := hop.of_error (core_eq_crash hrun) rfl keep
        exact ⟨L', junk, t, hst, hbytes.crashesTo (isBytes_op hc) hreached⟩
      | none =>
        have hread := (reading_of_op_eq_none hp hagrees hbytes hc n).of_error hrun
        obtain ⟨junk, t, hst⟩ := hagrees.stored.crash keep
        exact ⟨L, junk, t, by rw [hread.2]; exact hst, hbytes⟩
    obtain ⟨L', junk, t, hst, hbytes'⟩ := hleft
    exact ⟨L'.reopen, hst.agrees_of_open hp rfl hopen, hbytes'.reopen⟩

/-- Every value in the memtable, in the committed entries of the log and in the records of the tables is
bytes, and no call, whatever happens to its I/O, fails with `UnexpectedValue`. -/
structure OnlyBytes (p : Prost) (s : Store) (d : Disk) : Prop where
  memtable : ∀ (key : Bytes) (v : Value), s.data[key]? = some (Entry.value v) → v.IsBytes
  log : ∃ entries committed offset, parseBuffer p (d.bytesOf walName) = .ok (entries, committed, offset) ∧
    ∀ e ∈ entries.take committed, e.IsBytes
  tables : ∀ t ∈ s.sstables, Returns (t.readAllEntries p) s d fun entries _ _ => ∀ e ∈ entries, e.2.IsBytes
  expected : ∀ (c : Call) env n, wp (c.run p) ⟨s, d, env, n⟩ (fun _ _ => True)
    fun e _ => e ≠ .err .unexpectedValue

theorem Agrees.onlyBytes (hp : p.Lawful) (h : Agrees p s d L [] []) (hbytes : L.HoldsBytes) :
    OnlyBytes p s d where
  memtable key v hv := by
    rw [h.data] at hv
    exact hbytes.data key _ hv v rfl
  log := by
    have hlog : d.bytesOf walName = logBytes p L.log ++ [] := by rw [h.bytes, List.append_nil L.log]
    have hlen := d.bytesOf_length_le walName
    rw [hlog] at hlen
    have hframes := parseBuffer_frames hp (torn_nil p.encodeEntry maxVecLen) hlen
    rw [← hlog] at hframes
    exact ⟨_, _, _, hframes, fun e he => hbytes.log e (List.mem_of_mem_take he)⟩
  tables t ht := by
    obtain ⟨x, hx, hread⟩ := h.toFollows.running.returns_readAllEntries hp ht
    refine hread.mono (fun _ _ _ hr e he => ?_) fun _ _ _ hfalse => hfalse
    rw [hr] at he
    exact hbytes.tables x hx e.1 e.2 (Std.ExtTreeMap.mem_toList_iff_getElem?_eq_some.1 he)
  expected c env n := by
    cases hc : c.op with
    | some op =>
      rw [run_of_op "" hc]
      unfold wp core
      cases op.run p "" ⟨s, d, env, n⟩ with
      | ok r x => exact trivial
      | error e x => exact ofStop_ne_unexpectedValue e
    | none => exact (reading_of_op_eq_none hp h hbytes hc n).mono (fun _ _ _ => trivial) fun _ _ he => he.1

/-- **Only bytes come back** from a table that is only used through the API, as long as the lengths
fit. -/
theorem only_bytes_come_back (hp : p.Lawful) (h : ByteRun p dir s d) : OnlyBytes p s d := by
  obtain ⟨L, hagrees, hbytes⟩ := h.agrees hp
  exact hagrees.onlyBytes hp hbytes

theorem Env.crashesWriting_spares (written : ℕ) : (Env.crashesWriting walName written).Spares offLog := by
  intro n c hc
  unfold Env.crashesWriting
  refine if_neg fun h => hc ?_
  rw [h]

set_option synthInstance.maxSize 1000 in
/-- A put of the empty value, a batch that is cut in the log, and a reopening. -/
theorem only_bytes_come_back_crash : ∃ s d, ByteRun Prost.wire "db" s d ∧
    s.data.toList = [([1], .value (.bytes []))] ∧ OnlyBytes Prost.wire s d := by
  have hruns : wp (Store.openWithDir Prost.wire "db")
      ⟨Store.fresh "db" ⟨walName, false⟩, Disk.empty, Env.quiet, 0⟩
      (fun _ x => Op.Fits Prost.wire x.self.memory (.setValue [1] (.bytes [])) ∧ x.self.sstables.length = 0 ∧
        wp ((Call.put [1] []).run Prost.wire) ⟨x.self, x.disk, Env.quiet, 0⟩
          (fun _ y => Op.Fits Prost.wire y.self.memory (.commit [([2], some (.bytes [7]))]) ∧
            y.self.sstables.length = 0 ∧
            wp ((Call.putBatch [([2], [7])]).run Prost.wire)
              ⟨y.self, y.disk, Env.crashesWriting walName 12, 0⟩ (fun _ _ => False)
              fun e z => e = .crash ∧
                wp (Store.openWithDir Prost.wire "db")
                  ⟨Store.fresh "db" ⟨walName, false⟩, z.disk.crash fun _ => 12, Env.quiet, 0⟩
                  (fun _ w => w.self.data.toList = [([1], .value (.bytes []))]) fun _ _ => False)
          fun _ _ => False)
      fun _ _ => False := by decide +kernel
  obtain ⟨_, x, hopen, hfits, hnil, hruns⟩ := hruns.returns
  obtain ⟨_, y, hput, hfits', hnil', hruns⟩ := hruns.returns
  obtain ⟨_, z, hbatch, rfl, hruns⟩ := hruns.stops
  obtain ⟨_, w, hreopen, hdata⟩ := hruns.returns
  have hrun : ByteRun Prost.wire "db" w.self w.disk := by
    refine .crashed (.returned (.opened hopen) (Env.quiet_spares _) ?_ hput) (Env.crashesWriting_spares 12) ?_
      hbatch _ hreopen
    · rintro op hop
      cases hop
      exact stepFits_of_memory hnil hfits
    · rintro op hop
      cases hop
      exact stepFits_of_memory hnil' hfits'
  exact ⟨_, _, hrun, hdata, only_bytes_come_back wire_lawful hrun⟩

end FerrumDB
