import FerrumDB.Refinement

/-!
# Writes that fail

A `FaultRun` is a run in which appends to the log may fail. A failed write leaves frames behind, and a
session goes on: the next COMMIT adopts whole frames, and a broken frame hides everything after it. The
`Ledger` of a run says which writes the log gives back. The keys that a failed write wrote stay as they
were (`failed_writes_stay_failed`), and acknowledged writes are recovered (`acked_writes_recovered`),
exactly if the ledger agrees with the acknowledged writes.
-/

namespace FerrumDB

open CrashLogic FramedLog Overlay

variable {env : Env} {s : Store} {d d' : Disk} {L : Layers} {p : Prost} {dir : String}
  {m : Bytes → Option Value} {tears : Prop}

/-! ## Failing appends -/

/-- Only appends to the log fail, and the process never stops. -/
structure Env.FailsAppends (env : Env) : Prop where
  appends : ∀ n c f, env n c = some f → c = ⟨.openAppend, walName⟩ ∨ c = ⟨.write, walName⟩
  errors : ∀ n c f, env n c = some f → f.stop ≠ .crash

theorem Env.FailsAppends.spares (h : env.FailsAppends) {P : IoCall → Prop}
    (happ : ¬ P ⟨.openAppend, walName⟩) (hwrite : ¬ P ⟨.write, walName⟩) : env.Spares P := by
  intro n c hc
  cases hf : env n c with
  | none => rfl
  | some f =>
    rcases h.appends n c f hf with rfl | rfl
    · exact absurd hc happ
    · exact absurd hc hwrite

theorem Env.FailsAppends.sparesOffLog (h : env.FailsAppends) : env.Spares offLog :=
  h.spares (fun hc => hc rfl) fun hc => hc rfl

theorem Env.FailsAppends.sparesClear (h : env.FailsAppends) : env.Spares clearCalls :=
  h.spares (fun hc => by rcases hc.2 with h | h <;> cases h) fun hc => by
    rcases hc.2 with h | h <;> cases h

/-- What a call added to the log. -/
def appended (d d' : Disk) : Bytes := (d'.bytesOf walName).drop (d.bytesOf walName).length

theorem appended_eq {u : Bytes} (h : d'.bytesOf walName = d.bytesOf walName ++ u) :
    appended d d' = u := by
  unfold appended
  rw [h, List.drop_left]

/-- How many whole frames of `es` the bytes `u` start with, and the bytes after them. -/
def framesIn (p : Prost) : List WalEntry → Bytes → ℕ × Bytes
  | [], u => (0, u)
  | e :: es, u =>
    if frame p e <+: u then
      let rest := framesIn p es (u.drop (frame p e).length)
      (rest.1 + 1, rest.2)
    else (0, u)

/-- A batch cut inside a frame `x`: the frames before it are whole, a part `pre` of it follows. -/
theorem framesIn_eq {es es₁ es₂ : List WalEntry} {c x : WalEntry} {pre : Bytes}
    (hsplit : es ++ [c] = es₁ ++ x :: es₂) (hpre : pre.length < (frame p x).length) :
    framesIn p es (logBytes p es₁ ++ pre) = (es₁.length, pre) ∧ es₁ <+: es := by
  induction es₁ generalizing es with
  | nil =>
    refine ⟨?_, List.nil_prefix⟩
    cases es with
    | nil => rfl
    | cons e es =>
      obtain ⟨rfl, -⟩ := List.cons.inj hsplit
      have hnot : ¬ frame p e <+: pre := fun h => by have := h.length_le; omega
      exact if_neg hnot
  | cons e₁ es₁ ih =>
    cases es with
    | nil =>
      obtain ⟨-, htail⟩ := List.cons.inj hsplit
      simp at htail
    | cons e es =>
      obtain ⟨rfl, htail⟩ := List.cons.inj hsplit
      obtain ⟨hrest, hle⟩ := ih htail
      refine ⟨?_, List.cons_prefix_cons.2 ⟨rfl, hle⟩⟩
      rw [logBytes_cons, List.append_assoc, framesIn, if_pos (List.prefix_append _ _), List.drop_left,
        hrest]
      rfl

/-! ## Ledgers -/

/-- The end of the log: whole frames, a broken frame, or frames behind a broken one. -/
inductive Tail where
  | whole | torn | buried
  deriving DecidableEq

/-- What the log of a session gives back: the map that the tables and the log up to its last COMMIT
make, the writes of failed batches whose frames follow that COMMIT, and how the log ends. `later` are
the keys acknowledged since the first failed write. -/
structure Ledger where
  recovered : Bytes → Option Value
  left : Batch
  tail : Tail
  later : Option (List Bytes)

/-- The log gives back what was acknowledged. -/
def Ledger.clean (m : Bytes → Option Value) : Ledger := ⟨m, [], .whole, none⟩

/-- The operation flushes the memtable, which empties the log. -/
def Op.empties (s : Store) (op : Op) : Bool :=
  match op.batch, op with
  | some b, _ =>
    decide (s.memtableMaxBytes ≤ OrderedMap.total entryFootprint (applyBatch s.data b)) &&
      !(applyBatch s.data b).isEmpty
  | none, .flush => !s.data.isEmpty
  | none, _ => false

/-- The keys an operation writes. -/
def Op.keys (op : Op) : List Bytes := (op.batch.getD []).map Prod.fst

/-- After an acknowledged operation: its COMMIT adopts the writes left behind, unless it is itself
behind a broken frame; a flush starts a new log. -/
def Ledger.acked (v : Ledger) (s : Store) (op : Op) (m : Bytes → Option Value) : Ledger :=
  let later := v.later.map fun keys => keys ++ op.keys
  if op.empties s then { Ledger.clean m with later }
  else
    match op.batch, v.tail with
    | some b, .whole => ⟨applyMap (applyMap v.recovered v.left) b, [], .whole, later⟩
    | some _, _ => { v with tail := .buried, later }
    | none, _ => { v with later }

/-- After a failed write of `b` that added the bytes `u` to the log. -/
def Ledger.failed (v : Ledger) (p : Prost) (s : Store) (b : Batch) (u : Bytes) : Ledger :=
  let later := some (v.later.getD [])
  match v.tail with
  | .whole =>
    let (n, rest) := framesIn p (batchLog s.sequence b) u
    { v with left := v.left ++ b.take n, tail := if rest = [] then .whole else .torn, later }
  | tail => { v with tail := if u = [] then tail else .buried, later }

/-! ## Runs with failing appends -/

/-- A run of operations that fit, in which appends to the log may fail; `tears` allows them to leave a
part of the failing frame. `m` is the map that the last opening gave, after the operations
acknowledged since. -/
inductive FaultRun (p : Prost) (dir : String) (tears : Prop) :
    Store → Disk → (Bytes → Option Value) → Ledger → Prop
  | opened {s₀ : Store} {n : ℕ} {x : Mem Store}
      (run : Store.openWithDir p dir ⟨s₀, Disk.empty, Env.quiet, n⟩ = .ok () x) :
      FaultRun p dir tears x.self x.disk (fun _ => none) (.clean fun _ => none)
  | acked {s : Store} {d : Disk} {m : Bytes → Option Value} {v : Ledger} {op : Op} {env : Env} {n : ℕ}
      {x : Mem Store} (before : FaultRun p dir tears s d m v) (session : op ≠ .reopen)
      (appends : env.FailsAppends) (fits : StepFits p s d op)
      (run : op.run p dir ⟨s, d, env, n⟩ = .ok () x) :
      FaultRun p dir tears x.self x.disk (op.apply m) (v.acked s op (op.apply m))
  | failed {s : Store} {d : Disk} {m : Bytes → Option Value} {v : Ledger} {op : Op} {b : Batch}
      {env : Env} {n : ℕ} {e : AppError} {x : Mem Store} (before : FaultRun p dir tears s d m v)
      (write : op.batch = some b) (appends : env.FailsAppends) (fits : StepFits p s d op)
      (run : op.run p dir ⟨s, d, env, n⟩ = .error (.err e) x)
      (part : tears ∨ (framesIn p (batchLog s.sequence b) (appended d x.disk)).2 = []) :
      FaultRun p dir tears x.self x.disk m (v.failed p s b (appended d x.disk))
  | reopened {s s₀ : Store} {d : Disk} {m : Bytes → Option Value} {v : Ledger} {n : ℕ} {x : Mem Store}
      (before : FaultRun p dir tears s d m v) (readable : v.tail ≠ .buried)
      (run : Store.openWithDir p dir ⟨s₀, { d with locked := false }, Env.quiet, n⟩ = .ok () x) :
      FaultRun p dir tears x.self x.disk v.recovered (.clean v.recovered)

/-- Without broken frames the log stays whole. -/
theorem FaultRun.whole {v : Ledger} (h : FaultRun p dir False s d m v) : v.tail = .whole := by
  induction h with
  | opened _ => rfl
  | @acked s d m v op env n x _ _ _ _ _ ih =>
    unfold Ledger.acked
    split
    · rfl
    · rw [ih]
      cases op.batch <;> rfl
  | failed _ _ _ _ _ part ih =>
    unfold Ledger.failed
    rw [ih]
    exact if_pos (part.resolve_left id)
  | reopened _ _ _ _ => rfl

/-! ## The ledger of a state -/

/-- The log file is as the ledger says: `log` and its COMMITs give `data`, the entries `es` of failed
writes follow, and then a part `t` of a frame. -/
structure Ledger.Describes (p : Prost) (v : Ledger) (d : Disk) (L : Layers) (log : List WalEntry)
    (data : Memtable) (es : List WalEntry) (t : Bytes) : Prop extends LogStored p d log data es t where
  left : Logs es v.left
  recovered : v.recovered = Layers.get { L with data }
  whole : v.tail = .whole → t = []

/-- The store reads as `m`, and the ledger describes its log as long as nothing is behind a broken
frame. -/
def Tracks (p : Prost) (s : Store) (d : Disk) (m : Bytes → Option Value) (v : Ledger) : Prop :=
  ∃ L, Follows p s d L ∧ L.get = m ∧
    (v.tail ≠ .buried → ∃ log data es t, v.Describes p d L log data es t)

theorem describes_clean (hlog : LogStored p d L.log L.data [] []) (later : Option (List Bytes)) :
    Ledger.Describes p { Ledger.clean L.get with later } d L L.log L.data [] [] :=
  { hlog with left := logs_nil, recovered := rfl, whole := fun _ => rfl }

theorem Agrees.tracks (h : Agrees p s d L [] []) (later : Option (List Bytes)) :
    Tracks p s d L.get { Ledger.clean L.get with later } :=
  ⟨L, h.toFollows, rfl, fun _ => ⟨_, _, _, _, describes_clean h.toLogStored later⟩⟩

theorem applyMap_append (m : Bytes → Option Value) (b b' : Batch) :
    applyMap m (b ++ b') = applyMap (applyMap m b) b' := List.foldl_append

/-- **Adoption.** A batch and its COMMIT on a log of whole frames bring the writes left behind with
them. -/
theorem Ledger.Describes.write {v : Ledger} {log es : List WalEntry} {data : Memtable} {t : Bytes}
    (h : v.Describes p d L log data es t) (hwhole : v.tail = .whole) (b : Batch)
    (later : Option (List Bytes)) {bs : Bytes}
    (hbs : bs = d.bytesOf walName ++
      logBytes p (batchLog L.sequence b ++ [commitEntry (batchEnd L.sequence b)]))
    (hb : d.Becomes walName bs bs.length d') :
    Ledger.Describes p ⟨applyMap (applyMap v.recovered v.left) b, [], .whole, later⟩ d' (L.write b)
      (log ++ ((es ++ batchLog L.sequence b) ++ [commitEntry (batchEnd L.sequence b)]))
      (applyBatch data (v.left ++ b)) [] [] := by
  have hbytes : bs = logBytes p
      (log ++ ((es ++ batchLog L.sequence b) ++ [commitEntry (batchEnd L.sequence b)])) := by
    rw [hbs, h.bytes, h.whole hwhole, List.append_nil, ← logBytes_append]
    simp only [List.append_assoc]
  have hlogs : Logs (es ++ batchLog L.sequence b) (v.left ++ b) := h.left.append (logs_batchLog _ b)
  exact {
    bytes := by rw [hb.bytes, hbytes, List.append_nil, List.append_nil]
    synced := by rw [hb.synced, hbytes]
    closed := closed_write _ _ _
    unmarked := fun e he => by cases he
    torn := torn_nil _ _
    replays := h.replays.write h.closed hlogs _
    left := logs_nil
    recovered := by
      rw [h.recovered, ← applyMap_append]
      exact (resolve_applyBatch data (v.left ++ b) _).symm
    whole := fun _ => rfl }

theorem empties_iff (h : Follows p s d L) {op : Op} {b : Batch} (hb : op.batch = some b) :
    op.empties s = true ↔ (L.write b).Flushes := by
  unfold Op.empties
  rw [hb]
  dsimp only
  rw [h.data, h.budget, Bool.and_eq_true, decide_eq_true_iff, Bool.not_eq_true']
  exact Iff.rfl

theorem Ledger.acked_of_empties {op : Op} (h : op.empties s = true) (v : Ledger) :
    v.acked s op m = { Ledger.clean m with later := v.later.map fun keys => keys ++ op.keys } :=
  if_pos h

/-- An acknowledged batch that stays in the log. -/
theorem Tracks.logged {v : Ledger}
    (hv : v.tail ≠ .buried → ∃ log data es t, v.Describes p d L log data es t) {op : Op} {b : Batch}
    (hb : op.batch = some b) (hstay : ¬ op.empties s = true) {s' : Store} {bs : Bytes}
    (h' : Follows p s' d' (L.write b))
    (hbs : bs = d.bytesOf walName ++
      logBytes p (batchLog L.sequence b ++ [commitEntry (batchEnd L.sequence b)]))
    (hbecomes : d.Becomes walName bs bs.length d') :
    Tracks p s' d' (op.apply L.get) (v.acked s op (op.apply L.get)) := by
  refine ⟨L.write b, h', by rw [get_write, apply_of_batch hb], fun htail => ?_⟩
  unfold Ledger.acked at htail ⊢
  rw [if_neg hstay, hb] at htail ⊢
  cases hw : v.tail with
  | whole =>
    rw [hw] at htail
    obtain ⟨log, data, es, t, hdesc⟩ := hv (by rw [hw]; exact nofun)
    exact ⟨_, _, _, _, hdesc.write hw b _ hbs hbecomes⟩
  | torn => rw [hw] at htail; exact absurd rfl htail
  | buried => rw [hw] at htail; exact absurd rfl htail

/-- **A failed write** leaves the frames of its first writes, and a part of the frame after them. -/
theorem Tracks.cut {v : Ledger} (hv : v.tail ≠ .buried → ∃ log data es t, v.Describes p d L log data es t)
    (henv : env.FailsAppends) {b : Batch} (hbatch : L.BatchFits p b) (hseq : s.sequence = L.sequence)
    {s' : Store} {u : Bytes} (hcut : WriteCut p s' d d' L u) {e : Stop} (he : e ≠ .crash)
    (hlog : LogCut env p (d.bytesOf walName).length
      (batchLog L.sequence b ++ [commitEntry (batchEnd L.sequence b)]) e u) :
    Tracks p s' d' L.get (v.failed p s b u) := by
  refine ⟨_, hcut.follows, rfl, fun htail => ?_⟩
  cases hlog with
  | sync _ hf =>
    exact absurd hf (henv.spares (P := (· = ⟨.sync, walName⟩)) (fun hc => by cases hc)
      fun hc => by cases hc).not_faults
  | frame es₁ es₂ x pre hsplit hu hcutx =>
    have hpre := hcutx.proper he
    obtain ⟨hframes, hes₁⟩ := framesIn_eq hsplit hpre
    unfold Ledger.failed at htail ⊢
    rw [hseq] at htail ⊢
    cases hw : v.tail with
    | whole =>
      obtain ⟨log, data, es, t, hdesc⟩ := hv (by rw [hw]; exact nofun)
      have ht : t = [] := hdesc.whole hw
      have hlogs : Logs es₁ (b.take es₁.length) := by
        have := List.forall₂_take es₁.length (logs_batchLog L.sequence b)
        rwa [← List.prefix_iff_eq_take.1 hes₁] at this
      dsimp only
      rw [hu, hframes]
      refine ⟨log, data, es ++ es₁, pre, ?_⟩
      have hlen := hbatch.entries
      rw [hsplit, logBytes_append, logBytes_cons, List.length_append, List.length_append] at hlen
      exact {
        bytes := by
          rw [hcut.log.bytes, hdesc.bytes, ht, hu, List.append_nil, ← List.append_assoc,
            ← logBytes_append, List.append_assoc]
        synced := by rw [hcut.log.synced]; exact hdesc.synced
        closed := hdesc.closed
        unmarked := (hdesc.left.append hlogs).unmarked
        torn := Or.inr ⟨x, by show (frame p x).length ≤ _; omega, hcutx.isPrefix, hpre⟩
        replays := hdesc.replays
        left := hdesc.left.append hlogs
        recovered := hdesc.recovered
        whole := fun h => by
          by_contra hne
          dsimp only at h
          rw [if_neg hne] at h
          cases h }
    | torn =>
      rw [hw] at htail
      dsimp only at htail ⊢
      by_cases hnil : u = []
      · obtain ⟨log, data, es, t, hdesc⟩ := hv (by rw [hw]; exact nofun)
        refine ⟨log, data, es, t, ?_⟩
        exact {
          bytes := by rw [hcut.log.bytes, hnil, List.append_nil]; exact hdesc.bytes
          synced := by rw [hcut.log.synced]; exact hdesc.synced
          closed := hdesc.closed
          unmarked := hdesc.unmarked
          torn := hdesc.torn
          replays := hdesc.replays
          left := hdesc.left
          recovered := hdesc.recovered
          whole := fun h => by rw [if_pos hnil] at h; cases h }
      · rw [if_neg hnil] at htail
        exact absurd rfl htail
    | buried =>
      rw [hw] at htail
      dsimp only at htail
      split at htail <;> exact absurd rfl htail

/-- An operation that leaves the log alone leaves the ledger alone. -/
theorem Tracks.leavesLog {v : Ledger}
    (hv : v.tail ≠ .buried → ∃ log data es t, v.Describes p d L log data es t) {op : Op}
    (hb : op.batch = none) (hstay : ¬ op.empties s = true) {s' : Store}
    (h : LeavesLog p s' d d' L (op.step L)) :
    Tracks p s' d' (op.apply L.get) (v.acked s op (op.apply L.get)) := by
  refine ⟨op.step L, h.toFollows, get_step L op, fun htail => ?_⟩
  unfold Ledger.acked at htail ⊢
  rw [if_neg hstay, hb] at htail ⊢
  obtain ⟨log, data, es, t, hdesc⟩ := hv htail
  refine ⟨log, data, es, t, { hdesc.toLogStored.frame h.wal with
    left := hdesc.left, recovered := ?_, whole := hdesc.whole }⟩
  rw [show Ledger.recovered _ = v.recovered from rfl, hdesc.recovered]
  funext key
  exact resolve_congr_tail (h.older key).symm

/-- **One operation.** The ledger follows, whether the operation is acknowledged or fails. -/
theorem does_op_ledger (hp : p.Lawful) {v : Ledger} (h : Follows p s d L)
    (hv : v.tail ≠ .buried → ∃ log data es t, v.Describes p d L log data es t) {op : Op}
    (hopen : op ≠ .reopen) (henv : env.FailsAppends) (hfits : op.TablesFit p L) :
    Does env (op.run p dir) s d
      (fun _ s' d' => Tracks p s' d' (op.apply L.get) (v.acked s op (op.apply L.get)))
      fun e s' d' => e ≠ .crash → ∀ b, op.batch = some b →
        Tracks p s' d' L.get (v.failed p s b (appended d d')) := by
  cases hb : op.batch with
  | some b =>
    have hbatch := hfits.1 b hb
    have hempties := empties_iff h hb
    refine does_batch_op hb (does_writeBatch h hbatch.sequence (fun s' d' bs h' hbs hbecomes => ?_)
      fun e s' d' u hcut hlog he b' hb' => ?_)
    · refine does_maybeFlush hp h' hbatch.flush henv.sparesOffLog (fun hnot _ => ?_)
        (fun s'' d'' hflushes h'' => ?_) fun e _ _ he _ => (henv.sparesClear.not_faults he).elim
      · exact Tracks.logged hv hb (fun he => hnot (hempties.1 he)) h' hbs hbecomes
      · have hget : (L.write b).maybeFlush.get = op.apply L.get := by
          rw [get_maybeFlush, get_write, apply_of_batch hb]
        rw [Ledger.acked_of_empties (hempties.2 hflushes), ← hget]
        exact h''.tracks _
    · cases hb'
      rw [appended_eq hcut.log.bytes]
      exact Tracks.cut hv henv hbatch h.sequence hcut he hlog
  | none =>
    refine does_other_op hp h hb hopen hfits henv.sparesOffLog (fun s' d' hidle hl => ?_)
      (fun s' d' hflush hne h' => ?_) fun e _ _ _ he _ => (henv.sparesClear.not_faults he).elim
    · refine Tracks.leavesLog hv hb (fun hempties => ?_) hl
      unfold Op.empties at hempties
      rw [hb] at hempties
      cases op with
      | flush =>
        have := hidle rfl
        rw [← h.data] at this
        simp [this] at hempties
      | _ => cases hempties
    · subst hflush
      have hempties : Op.flush.empties s = true := by
        show (!s.data.isEmpty) = true
        rw [h.data, hne]
        rfl
      rw [Ledger.acked_of_empties hempties, ← get_step L .flush]
      exact h'.tracks _

/-! ## Runs -/

/-- Opening the directory gives back what the ledger says. -/
theorem Ledger.Describes.stored {v : Ledger} {log es : List WalEntry} {data : Memtable} {t : Bytes}
    (h : v.Describes p d L log data es t) (hL : Follows p s d L) :
    Stored p { d with locked := false } { L with data, log } es t where
  table := hL.table
  descending := hL.descending
  ids := hL.ids
  files := hL.files
  bytes := h.bytes
  synced := h.synced
  closed := h.closed
  unmarked := h.unmarked
  torn := h.torn
  replays := h.replays

/-- **The invariant of a run.** -/
theorem FaultRun.tracks (hp : p.Lawful) {v : Ledger} (h : FaultRun p dir tears s d m v) :
    Tracks p s d m v := by
  induction h with
  | opened hrun =>
    have hagrees := stored_empty.agrees_of_open hp rfl hrun
    have := hagrees.tracks none
    rwa [get_reopen, get_empty] at this
  | @acked s d m v op env n x _ hopen henv hfits hrun ih =>
    obtain ⟨L, hL, rfl, hv⟩ := ih
    have hop : Does env (op.run p dir) _ _ _ _ := does_op_ledger hp hL hv hopen henv (hfits L hL)
    exact hop.of_ok hrun
  | @failed s d m v op b env n e x _ hb henv hfits hrun _ ih =>
    obtain ⟨L, hL, rfl, hv⟩ := ih
    have hopen : op ≠ .reopen := fun ho => by rw [ho] at hb; cases hb
    have hop : Does env (op.run p dir) _ _ _ _ := does_op_ledger hp hL hv hopen henv (hfits L hL)
    exact hop.of_error hrun nofun b hb
  | @reopened s s₀ d m v n x _ htail hrun ih =>
    obtain ⟨L, hL, rfl, hv⟩ := ih
    obtain ⟨log, data, es, t, hdesc⟩ := hv htail
    have hagrees := (hdesc.stored hL).agrees_of_open hp rfl hrun
    have hget : v.recovered = Layers.get (Layers.reopen { L with data, log }) := hdesc.recovered
    rw [hget]
    exact hagrees.tracks none

/-- After a drop, the directory opens to the map of the ledger. -/
theorem Tracks.reopens (hp : p.Lawful) {v : Ledger} (h : Tracks p s d m v) (htail : v.tail ≠ .buried) :
    Reopens p dir { d with locked := false } v.recovered := by
  obtain ⟨L, hL, rfl, hv⟩ := h
  obtain ⟨log, data, es, t, hdesc⟩ := hv htail
  have hget : v.recovered = Layers.get { L with data, log } := hdesc.recovered
  rw [hget]
  exact (hdesc.stored hL).reopens hp rfl

def noSpace : String := "No space left on device (os error 28)"

/-- The `k`-th call fails, a write to the log, with `written` bytes of it in the file. -/
def Env.failsAt (k written : ℕ) : Env := fun n c =>
  if n = k ∧ c = ⟨.write, walName⟩ then some (.error noSpace written) else none

theorem Env.failsAt_failsAppends (k written : ℕ) : (Env.failsAt k written).FailsAppends where
  appends n c f h := by
    unfold Env.failsAt at h
    split at h
    · next hc => exact Or.inr hc.2
    · cases h
  errors n c f h := by
    unfold Env.failsAt at h
    split at h
    · cases h; exact nofun
    · cases h

theorem Env.quiet_failsAppends : Env.quiet.FailsAppends where
  appends n c f h := by cases h
  errors n c f h := by cases h

/-- The layers of a store without tables, the log apart. -/
def Store.memory (s : Store) : Layers :=
  ⟨s.data, s.memtableMaxBytes, [], s.sequence, [], s.nextSstableId⟩

theorem Running.fits_of_memory (h : Running p s d L) (hnil : s.sstables.length = 0) {op : Op}
    (hfits : op.Fits p s.memory) : op.TablesFit p L := by
  have htables : L.tables = [] := List.length_eq_zero_iff.1 (h.handles.length_eq.symm.trans hnil)
  have hmemory : L = { s.memory with log := L.log } := by
    unfold Store.memory
    rw [h.data, h.budget, h.sequence, h.nextId, ← htables]
  rw [hmemory]
  exact hfits.tablesFit.withLog L.log

theorem stepFits_of_memory (hnil : s.sstables.length = 0) {op : Op} (hfits : op.Fits p s.memory) :
    StepFits p s d op := fun _ hL => hL.running.fits_of_memory hnil hfits

/-- **A failed write stays failed** exactly if no later COMMIT adopted frames of it that change a read.
Before the drop every key reads as the acknowledged operations say, and after it as the ledger says. -/
theorem failed_writes_stay_failed (hp : p.Lawful) {v : Ledger} (h : FaultRun p dir False s d m v) :
    (∀ key, Returns (Store.getValue p key) s d fun r _ _ => r = m key) ∧
      (Reopens p dir { d with locked := false } m ↔ v.recovered = m) := by
  have htracks := h.tracks hp
  have htail : v.tail ≠ .buried := by rw [h.whole]; exact nofun
  refine ⟨fun key => ?_, (htracks.reopens hp htail).reopens_iff⟩
  obtain ⟨L, hL, rfl, -⟩ := htracks
  exact does_getValue hp hL (fun _ _ => rfl) fun _ he => absurd he Env.not_faults_quiet

def samplePut (n : UInt8) : Op := .setValue [n] (.integer 1)

theorem samplePut_ne_reopen (n : UInt8) : samplePut n ≠ .reopen := nofun

/-- A put whose COMMIT fails, and the same put again. -/
theorem failed_writes_stay_failed_retry : ∃ s d v,
    FaultRun Prost.wire "db" False s d ((samplePut 1).apply fun _ => none) v ∧
      v.recovered = (samplePut 1).apply (fun _ => none) ∧
      Reopens Prost.wire "db" { d with locked := false } ((samplePut 1).apply fun _ => none) := by
  have hruns : wp (Store.openWithDir Prost.wire "db")
      ⟨Store.fresh "db" ⟨walName, false⟩, Disk.empty, Env.quiet, 0⟩
      (fun _ x => (samplePut 1).Fits Prost.wire x.self.memory ∧ x.self.sstables.length = 0 ∧
        wp ((samplePut 1).run Prost.wire "db") ⟨x.self, x.disk, Env.failsAt 2 0, 0⟩ (fun _ _ => False)
          fun e y => e = .err (.ioError noSpace) ∧ (samplePut 1).Fits Prost.wire y.self.memory ∧
            y.self.sstables.length = 0 ∧
            framesIn Prost.wire (batchLog x.self.sequence [([1], some (.integer 1))])
              (appended x.disk y.disk) = (1, []) ∧
            wp ((samplePut 1).run Prost.wire "db") ⟨y.self, y.disk, Env.quiet, 0⟩
              (fun _ _ => (samplePut 1).empties y.self = false) fun _ _ => False)
      fun _ _ => False := by decide +kernel
  obtain ⟨_, x, hopen, hfits, hnil, hruns⟩ := hruns.returns
  obtain ⟨_, y, hfail, rfl, hfits', hnil', hframes, hruns⟩ := hruns.stops
  obtain ⟨_, z, hput, hempties⟩ := hruns.returns
  have hfailed : FaultRun Prost.wire "db" False y.self y.disk _ _ :=
    .failed (.opened hopen) rfl (Env.failsAt_failsAppends 2 0) (stepFits_of_memory hnil hfits)
      hfail (Or.inr (by rw [hframes]))
  have hacked := hfailed.acked (samplePut_ne_reopen 1) Env.quiet_failsAppends
    (stepFits_of_memory hnil' hfits') hput
  refine ⟨_, _, _, hacked, ?adopts, (failed_writes_stay_failed wire_lawful hacked).2.2 ?adopts⟩
  unfold Ledger.acked Ledger.failed
  rw [if_neg (by rw [hempties]; exact nofun), hframes]
  show applyMap (applyMap (fun _ => none) [([1], some (.integer 1))]) [([1], some (.integer 1))] = _
  exact Function.update_idem _ _ _

set_option synthInstance.maxSize 1000 in
/-- The COMMIT of a put of the key 1 fails with nothing of it written, and a put of the key 2 is
acknowledged: the key 1 is absent before the drop and present after it. -/
theorem failed_write_adopted : wp (Store.openWithDir Prost.wire "db")
    ⟨Store.fresh "db" ⟨walName, false⟩, Disk.empty, Env.quiet, 0⟩
    (fun _ x => wp (Store.setValue Prost.wire [1] (.integer 1)) ⟨x.self, x.disk, Env.failsAt 2 0, 0⟩
      (fun _ _ => False)
      fun e y => e = .err (.ioError noSpace) ∧
        wp (do
            discard (Store.setValue Prost.wire [2] (.integer 1))
            let before ← Store.getValue Prost.wire [1]
            Store.drop
            Store.openWithDir Prost.wire "db"
            return (before, ← Store.getValue Prost.wire [1])) ⟨y.self, y.disk, Env.quiet, 0⟩
          (fun r _ => r = (none, some (.integer 1))) fun _ _ => False)
    fun _ _ => False := by decide +kernel

/-- **Acknowledged writes survive earlier failed ones**, as long as none is behind a broken frame,
exactly if the ledger has their keys right. -/
theorem acked_writes_recovered (hp : p.Lawful) {v : Ledger} (h : FaultRun p dir True s d m v)
    (htail : v.tail ≠ .buried) : Recovers p dir { d with locked := false } (v.later.getD []) m ↔
      ∀ key ∈ v.later.getD [], v.recovered key = m key :=
  ((h.tracks hp).reopens hp htail).recovers_iff _

set_option synthInstance.maxSize 1000 in
/-- A put that fails inside its first frame, and another one whose flush empties the log. -/
theorem acked_writes_recovered_flush : ∃ s d m v, FaultRun Prost.wire "db" True s d m v ∧
    v.later = some [[2]] ∧ Recovers Prost.wire "db" { d with locked := false } [[2]] m := by
  have hruns : wp (Store.openWithDir Prost.wire "db")
      ⟨Store.fresh "db" ⟨walName, false⟩, Disk.empty, Env.quiet, 0⟩
      (fun _ x => x.self.sstables.length = 0 ∧
        wp ((Op.setMemtableBudget 0).run Prost.wire "db") ⟨x.self, x.disk, Env.quiet, 0⟩
          (fun _ y => (samplePut 1).Fits Prost.wire y.self.memory ∧ y.self.sstables.length = 0 ∧
            wp ((samplePut 1).run Prost.wire "db") ⟨y.self, y.disk, Env.failsAt 1 3, 0⟩ (fun _ _ => False)
              fun e z => e = .err (.ioError noSpace) ∧ (samplePut 2).Fits Prost.wire z.self.memory ∧
                z.self.sstables.length = 0 ∧ (samplePut 2).empties z.self = true ∧
                wp ((samplePut 2).run Prost.wire "db") ⟨z.self, z.disk, Env.quiet, 0⟩ (fun _ _ => True)
                  fun _ _ => False)
          fun _ _ => False)
      fun _ _ => False := by decide +kernel
  obtain ⟨_, x, hopen, hnil, hruns⟩ := hruns.returns
  obtain ⟨_, y, hbudget, hfits, hnil', hruns⟩ := hruns.returns
  obtain ⟨_, z, hfail, rfl, hfits', hnil'', hempties, hruns⟩ := hruns.stops
  obtain ⟨_, w, hput, -⟩ := hruns.returns
  have hsession : Op.setMemtableBudget 0 ≠ .reopen := nofun
  have hset : FaultRun Prost.wire "db" True y.self y.disk _ _ :=
    (FaultRun.opened hopen).acked hsession Env.quiet_failsAppends
      (stepFits_of_memory hnil trivial) hbudget
  have hfailed := hset.failed rfl (Env.failsAt_failsAppends 1 3)
    (stepFits_of_memory hnil' hfits) hfail (Or.inl trivial)
  have hacked := hfailed.acked (samplePut_ne_reopen 2) Env.quiet_failsAppends
    (stepFits_of_memory hnil'' hfits') hput
  rw [Ledger.acked_of_empties hempties] at hacked
  refine ⟨_, _, _, _, hacked, rfl, ?_⟩
  exact (acked_writes_recovered wire_lawful hacked nofun).2 fun _ _ => rfl

set_option synthInstance.maxSize 1000 in
/-- The first frame of a put of the key 1 is cut after one byte, and a put of the key 2 is acknowledged:
after the next opening it is gone. -/
theorem acked_write_lost : wp (Store.openWithDir Prost.wire "db")
    ⟨Store.fresh "db" ⟨walName, false⟩, Disk.empty, Env.quiet, 0⟩
    (fun _ x => wp (Store.setValue Prost.wire [1] (.integer 1)) ⟨x.self, x.disk, Env.failsAt 1 1, 0⟩
      (fun _ _ => False)
      fun e y => e = .err (.ioError noSpace) ∧
        wp (do
            discard (Store.setValue Prost.wire [2] (.integer 1))
            let before ← Store.getValue Prost.wire [2]
            Store.drop
            Store.openWithDir Prost.wire "db"
            return (before, ← Store.getValue Prost.wire [2])) ⟨y.self, y.disk, Env.quiet, 0⟩
          (fun r _ => r = (some (.integer 1), none)) fun _ _ => False)
    fun _ _ => False := by decide +kernel

end FerrumDB
