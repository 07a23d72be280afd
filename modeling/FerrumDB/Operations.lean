import FerrumDB.Store.Open

/-!
# Operations on a table

An operation is a call on the open table, or dropping the store and opening the directory again. It
has a meaning on the layers (`Op.step`) and on a plain map (`Op.apply`), and the two agree
(`get_step`). Operations that write go through one batch (`Op.batch`, `does_batch_op`); the others
leave the log alone, but for a flush, which empties it (`does_other_op`).
-/

namespace FerrumDB

open Overlay

variable {env : Env} {s : Store} {d : Disk} {L : Layers} {p : Prost} {dir : String}

/-! ## Operations -/

/-- The transaction after the calls `calls` on it: `some v` is `set_value`, `none` `delete_value`. -/
def buffered (calls : Batch) : Transaction :=
  calls.foldl (fun tx e =>
    match e.2 with
    | some v => tx.setValue e.1 v
    | none => tx.deleteValue e.1) Store.beginTransaction

inductive Op where
  | setValue (key : Bytes) (value : Value)
  | deleteValue (key : Bytes)
  | getValue (key : Bytes)
  | commit (calls : Batch)
  | rollback (calls : Batch)
  | flush
  | compact
  | setMemtableBudget (bytes : ℕ)
  | reopen

/-- Run an operation on the store. -/
def Op.run (p : Prost) (dir : String) : Op → Prog Store Unit
  | .setValue key value => discard (Store.setValue p key value)
  | .deleteValue key => discard (Store.deleteValue p key)
  | .getValue key => discard (Store.getValue p key)
  | .commit calls => Transaction.commit p (buffered calls)
  | .rollback calls => Transaction.rollback (buffered calls)
  | .flush => Store.flush p
  | .compact => Store.compact p
  | .setMemtableBudget bytes => Store.setMemtableBudget bytes
  | .reopen => do
    Store.drop
    Store.openWithDir p dir

/-- Open the table and run operations. -/
def runOps (p : Prost) (dir : String) (ops : List Op) : Prog Store Unit := do
  Store.openWithDir p dir
  forM ops (Op.run p dir)

/-- What an operation does to a plain map. -/
def Op.apply (m : Bytes → Option Value) : Op → Bytes → Option Value
  | .setValue key value => Function.update m key (some value)
  | .deleteValue key => Function.update m key none
  | .commit calls => applyMap m calls
  | _ => m

/-- The map after the operations, applied in order to the empty map. -/
def mapOf (ops : List Op) : Bytes → Option Value := ops.foldl Op.apply fun _ => none

/-! ## Operations on the layers -/

/-- The layers of an empty table. -/
def Layers.empty : Layers := ⟨∅, DEFAULT_MEMTABLE_MAX_BYTES, [], 0, [], 1⟩

def Op.step (L : Layers) : Op → Layers
  | .setValue key value => L.commit [(key, some value)]
  | .deleteValue key => L.commit [(key, none)]
  | .getValue _ => L
  | .commit calls =>
    if (buffered calls).pending.isEmpty then L else L.commit (buffered calls).pending.toList
  | .rollback _ => L
  | .flush => L.flush
  | .compact => L.compact
  | .setMemtableBudget bytes => { L with budget := bytes }
  | .reopen => L.reopen

/-- Every length and counter the operation writes fits its field. -/
def Op.Fits (p : Prost) (L : Layers) : Op → Prop
  | .setValue key value => L.CommitFits p [(key, some value)]
  | .deleteValue key => L.CommitFits p [(key, none)]
  | .commit calls =>
    (buffered calls).pending.isEmpty = false → L.CommitFits p (buffered calls).pending.toList
  | .flush => L.FlushFits p
  | .compact => L.CompactFits p
  | _ => True

/-- Every operation of a run fits. -/
def RunFits (p : Prost) : Layers → List Op → Prop
  | _, [] => True
  | L, op :: ops => op.Fits p L ∧ RunFits p (op.step L) ops

/-- The batch an operation writes, if it writes. -/
def Op.batch : Op → Option Batch
  | .setValue key value => some [(key, some value)]
  | .deleteValue key => some [(key, none)]
  | .commit calls =>
    if (buffered calls).pending.isEmpty then none else some (buffered calls).pending.toList
  | _ => none

/-- The sequence numbers of the batch, its log entries in memory, and the table of a flush it triggers
fit. -/
structure Layers.BatchFits (p : Prost) (b : Batch) (L : Layers) : Prop where
  sequence : L.sequence.toNat + b.length < 2 ^ 64
  entries : (logBytes p (batchLog L.sequence b ++ [commitEntry (batchEnd L.sequence b)])).length ≤ maxVecLen
  flush : (L.write b).bytes ≥ (L.write b).budget → (L.write b).FlushFits p

/-- Every length and counter the operation writes fits its field, the length of the log apart. -/
def Op.TablesFit (p : Prost) (L : Layers) (op : Op) : Prop :=
  (∀ b, op.batch = some b → L.BatchFits p b) ∧ (op = .flush → L.FlushFits p) ∧
    (op = .compact → L.CompactFits p)

/-- The operation fits the layers that the store follows. -/
def StepFits (p : Prost) (s : Store) (d : Disk) (op : Op) : Prop :=
  ∀ L, Follows p s d L → op.TablesFit p L

instance (L : Layers) (op : Op) : Decidable (op.Fits p L) := by
  cases op <;> unfold Op.Fits <;> infer_instance

instance decidableRunFits (L : Layers) : (ops : List Op) → Decidable (RunFits p L ops)
  | [] => inferInstanceAs (Decidable True)
  | op :: ops =>
    have := decidableRunFits (op.step L) ops
    inferInstanceAs (Decidable (_ ∧ _))

/-! ## The layers of a store -/

/-- The tables a store follows are determined by their files. -/
theorem tables_unique (hp : p.Lawful) {hs : List SsTable} {ts ts' : List (ℕ × Memtable)}
    (h : List.Forall₂ (SsTable.HandleOf p) hs ts) (h' : List.Forall₂ (SsTable.HandleOf p) hs ts')
    (hfiles : ∀ x ∈ ts, ∃ f, d.files[sstName x.1]? = some f ∧ f.Holds p x.2.toList)
    (hfiles' : ∀ x ∈ ts', ∃ f, d.files[sstName x.1]? = some f ∧ f.Holds p x.2.toList) : ts' = ts := by
  induction h generalizing ts' with
  | nil => exact List.forall₂_nil_left_iff.1 h'
  | @cons tb x hs ts hr _ ih =>
    obtain ⟨x', ts', hr', htail, rfl⟩ := List.forall₂_cons_left_iff.1 h'
    obtain ⟨f, hf, hholds⟩ := hfiles x (List.mem_cons_self ..)
    obtain ⟨f', hf', hholds'⟩ := hfiles' x' (List.mem_cons_self ..)
    have hread : Returns (tb.readAllEntries p) () d fun r _ _ => r = x.2.toList :=
      does_readAllEntries hp (by rw [hr.path]; exact hf) hholds hr.serves.index rfl
        fun _ he => absurd he Env.not_faults_quiet
    have hread' : Returns (tb.readAllEntries p) () d fun r _ _ => r = x'.2.toList :=
      does_readAllEntries hp (by rw [hr'.path]; exact hf') hholds' hr'.serves.index rfl
        fun _ he => absurd he Env.not_faults_quiet
    have hid : x'.1 = x.1 := sstName_injective (hr'.path.symm.trans hr.path)
    have hmap : x'.2 = x.2 := Std.ExtTreeMap.toList_inj.1 (hread'.unique hread)
    rw [ih htail (fun y hy => hfiles y (List.mem_cons_of_mem _ hy))
      fun y hy => hfiles' y (List.mem_cons_of_mem _ hy), Prod.ext hid hmap]

/-- The layers a store runs on are determined, the log apart. -/
theorem Running.layers_eq (hp : p.Lawful) {L' : Layers} (h : Running p s d L) (h' : Running p s d L') :
    L' = { L with log := L'.log } := by
  have htables := tables_unique hp h.handles h'.handles h.table h'.table
  obtain ⟨data, budget, log, sequence, tables, nextId⟩ := L
  obtain ⟨data', budget', log', sequence', tables', nextId'⟩ := L'
  have hdata : data' = data := h'.data.symm.trans h.data
  have hbudget : budget' = budget := h'.budget.symm.trans h.budget
  have hsequence : sequence' = sequence := h'.sequence.symm.trans h.sequence
  have hnext : nextId' = nextId := h'.nextId.symm.trans h.nextId
  dsimp only at htables
  rw [hdata, hbudget, hsequence, hnext, htables]

/-- The log of the layers does not matter. -/
theorem Op.TablesFit.withLog {op : Op} (hfits : op.TablesFit p L) (log : List WalEntry) :
    op.TablesFit p { L with log } := by
  refine ⟨fun b hb => ?_, fun hop hne => ?_, fun hop hlen hne => ?_⟩
  · have hbatch := hfits.1 b hb
    refine ⟨hbatch.sequence, hbatch.entries, fun hfull hne => ?_⟩
    have hflush := hbatch.flush hfull hne
    exact ⟨⟨hflush.table.table, hflush.table.nextId⟩, hflush.compact⟩
  · have hflush := hfits.2.1 hop hne
    exact ⟨⟨hflush.table.table, hflush.table.nextId⟩, hflush.compact⟩
  · have hcompact := hfits.2.2 hop hlen hne
    exact ⟨hcompact.table, hcompact.nextId⟩

/-- An operation that fits the layers fits the store. -/
theorem Op.TablesFit.stepFits (hp : p.Lawful) {op : Op} (hfits : op.TablesFit p L) (h : Follows p s d L) :
    StepFits p s d op := by
  intro L' h'
  rw [h.running.layers_eq hp h'.running]
  exact hfits.withLog L'.log

/-! ## Transactions as batches -/

theorem pending_concat (calls : Batch) (e : Bytes × Option Value) :
    (buffered (calls ++ [e])).pending = (buffered calls).pending.insert e.1 e.2 := by
  obtain ⟨key, v⟩ := e
  unfold buffered
  rw [List.foldl_append]
  cases v <;> rfl

/-- A buffered key reads as its last call says, any other key as before. -/
theorem applyMap_buffered (m : Bytes → Option Value) (calls : Batch) (key : Bytes) :
    applyMap m calls key = ((buffered calls).pending[key]?).getD (m key) := by
  induction calls using List.reverseRecOn with
  | nil => rfl
  | append_singleton calls e ih =>
    have happ : applyMap m (calls ++ [e]) = Function.update (applyMap m calls) e.1 e.2 := by
      unfold applyMap; rw [List.foldl_append]; rfl
    rw [happ, pending_concat, Std.ExtTreeMap.getElem?_insert]
    by_cases hk : key = e.1
    · subst hk
      rw [Function.update_self, if_pos (Std.compare_eq_iff_eq.2 rfl)]
      rfl
    · rw [Function.update_of_ne hk, ih, if_neg (by rw [Std.compare_eq_iff_eq]; exact Ne.symm hk)]

theorem applyMap_of_not_mem (m : Bytes → Option Value) {b : Batch} {key : Bytes}
    (h : ∀ e ∈ b, e.1 ≠ key) : applyMap m b key = m key := by
  induction b generalizing m with
  | nil => rfl
  | cons e b ih =>
    show applyMap (Function.update m e.1 e.2) b key = _
    rw [ih _ fun e' he' => h e' (List.mem_cons_of_mem _ he'),
      Function.update_of_ne (h e (List.mem_cons_self ..)).symm]

theorem applyMap_of_mem (m : Bytes → Option Value) {b : Batch} {key : Bytes} {v : Option Value}
    (hb : b.Pairwise fun x y => x.1 ≠ y.1) (h : (key, v) ∈ b) : applyMap m b key = v := by
  induction b generalizing m with
  | nil => cases h
  | cons e b ih =>
    obtain ⟨hne, hb⟩ := List.pairwise_cons.1 hb
    show applyMap (Function.update m e.1 e.2) b key = _
    rcases List.mem_cons.1 h with rfl | h
    · rw [applyMap_of_not_mem _ fun y hy => (hne y hy).symm, Function.update_self]
    · exact ih _ hb h

/-- The commit order does not matter: keys are distinct. -/
theorem applyMap_toList (m : Bytes → Option Value)
    (pending : Std.ExtTreeMap Bytes (Option Value) compare) (key : Bytes) :
    applyMap m pending.toList key = (pending[key]?).getD (m key) := by
  cases hk : pending[key]? with
  | none =>
    refine applyMap_of_not_mem m fun e he heq => ?_
    rw [← heq, Std.ExtTreeMap.mem_toList_iff_getElem?_eq_some.1 he] at hk
    cases hk
  | some v =>
    refine applyMap_of_mem m ?_ (Std.ExtTreeMap.mem_toList_iff_getElem?_eq_some.2 hk)
    exact pending.distinct_keys_toList.imp fun hne heq => hne (Std.compare_eq_iff_eq.2 heq)

/-- **A committed batch does what its calls do in order.** -/
theorem applyMap_pending (m : Bytes → Option Value) (calls : Batch) :
    applyMap m (buffered calls).pending.toList = applyMap m calls := by
  funext key
  rw [applyMap_toList, applyMap_buffered]

/-! ## The step and the run -/

/-- Reads of the layers are those of the map. -/
theorem get_step (L : Layers) (op : Op) : (op.step L).get = op.apply L.get := by
  cases op with
  | setValue key value => exact get_commit _ L
  | deleteValue key => exact get_commit _ L
  | getValue key => rfl
  | commit calls =>
    show (if _ then L else _).get = applyMap L.get calls
    by_cases hemp : (buffered calls).pending.isEmpty = true
    · rw [if_pos hemp]
      have hpending : (buffered calls).pending = ∅ := Std.ExtTreeMap.isEmpty_iff.1 hemp
      funext key
      rw [applyMap_buffered, hpending, Std.ExtTreeMap.getElem?_empty]
      rfl
    · rw [if_neg hemp, get_commit, applyMap_pending]
  | rollback calls => rfl
  | flush => exact get_flush L
  | compact => exact get_compact L
  | setMemtableBudget bytes => rfl
  | reopen => rfl

theorem get_steps (ops : List Op) (L : Layers) : (ops.foldl Op.step L).get = ops.foldl Op.apply L.get := by
  induction ops generalizing L with
  | nil => rfl
  | cons op ops ih => rw [List.foldl_cons, List.foldl_cons, ih, get_step]

/-! ## Writing operations -/

/-- An operation that writes is the write of its batch. -/
theorem run_of_batch {op : Op} {b : Batch} (h : op.batch = some b) :
    op.run p dir = Store.writeBatch p b := by
  cases op with
  | setValue key value =>
    cases h
    show discard (Store.setValue p key value) = _
    rw [setValue_eq]
    simp [discard, Functor.discard, map_const]
  | deleteValue key =>
    cases h
    show discard (Store.deleteValue p key) = _
    rw [deleteValue_eq]
    simp [discard, Functor.discard, map_const]
  | commit calls =>
    show Transaction.commit p (buffered calls) = _
    unfold Op.batch at h
    dsimp only at h
    rw [commit_eq]
    split at h
    · cases h
    · next hemp =>
      cases h
      exact if_neg hemp
  | _ => cases h

/-- A batch has an entry. -/
theorem batch_ne_nil {op : Op} {b : Batch} (h : op.batch = some b) : b ≠ [] := by
  cases op with
  | setValue key value => cases h; exact List.cons_ne_nil _ _
  | deleteValue key => cases h; exact List.cons_ne_nil _ _
  | commit calls =>
    unfold Op.batch at h
    dsimp only at h
    split at h
    · cases h
    · next hemp =>
      cases h
      rintro hnil
      exact hemp (by rw [← Std.ExtTreeMap.isEmpty_toList, hnil]; rfl)
  | _ => cases h

theorem does_batch_op {op : Op} {b : Batch} (h : op.batch = some b) {Q : Unit → Store → Disk → Prop}
    {E : Stop → Store → Disk → Prop} (hw : Does env (Store.writeBatch p b) s d Q E) :
    Does env (op.run p dir) s d Q E := by
  rw [run_of_batch h]
  exact hw

theorem step_of_batch {op : Op} {b : Batch} (h : op.batch = some b) : op.step L = L.commit b := by
  cases op with
  | setValue key value => cases h; rfl
  | deleteValue key => cases h; rfl
  | commit calls =>
    unfold Op.batch at h
    dsimp only at h
    split at h
    · cases h
    · next hemp => cases h; exact if_neg hemp
  | _ => cases h

/-- An operation that does not write leaves the map alone. -/
theorem apply_of_batch_eq_none {op : Op} (h : op.batch = none) (m : Bytes → Option Value) :
    op.apply m = m := by
  cases op with
  | setValue key value => cases h
  | deleteValue key => cases h
  | commit calls =>
    have hemp : (buffered calls).pending.isEmpty = true := by
      unfold Op.batch at h
      dsimp only at h
      split at h
      · next hemp => exact hemp
      · cases h
    funext key
    show applyMap m calls key = m key
    rw [applyMap_buffered, Std.ExtTreeMap.isEmpty_iff.1 hemp, Std.ExtTreeMap.getElem?_empty]
    rfl
  | _ => rfl

theorem apply_of_batch {op : Op} {b : Batch} (h : op.batch = some b) (m : Bytes → Option Value) :
    op.apply m = applyMap m b := by
  cases op with
  | setValue key value => cases h; rfl
  | deleteValue key => cases h; rfl
  | commit calls =>
    unfold Op.batch at h
    dsimp only at h
    split at h
    · cases h
    · cases h; exact (applyMap_pending m calls).symm
  | _ => cases h

/-! ## The other operations -/

/-- The memory and the tables are those of the operation's layers, and the log is untouched. -/
structure LeavesLog (p : Prost) (s : Store) (d d' : Disk) (L L' : Layers) : Prop extends
    Follows p s d' L' where
  wal : d'.files[walName]? = d.files[walName]?
  log : L'.log = L.log
  memtable : L'.data = L.data
  older : ∀ key, resolve Entry.live (L'.tables.map fun t => layer t.2) key =
    resolve Entry.live (L.tables.map fun t => layer t.2) key

theorem Follows.leavesLog (h : Follows p s d L) : LeavesLog p s d d L L :=
  { h with wal := rfl, log := rfl, memtable := rfl, older := fun _ => rfl }

/-- **The other operations**, when only calls on the log may fault: they run through and leave the log
alone, but for a flush, which empties it or is stopped in doing so. -/
theorem does_other_op (hp : p.Lawful) (h : Follows p s d L) {op : Op} (hop : op.batch = none)
    (hopen : op ≠ .reopen) (hfits : op.TablesFit p L) (henv : env.Spares offLog)
    {Q : Unit → Store → Disk → Prop} {E : Stop → Store → Disk → Prop}
    (hQ : ∀ s' d', (op = .flush → L.data.isEmpty = true) → LeavesLog p s' d d' L (op.step L) → Q () s' d')
    (hflush : ∀ s' d', op = .flush → L.data.isEmpty = false → Agrees p s' d' (op.step L) [] [] →
      Q () s' d')
    (hclear : ∀ e s' d', op = .flush → env.Faults clearCalls e → ClearCut p s' d d' L →
      E e s' d') :
    Does env (op.run p dir) s d Q E := by
  cases op with
  | setValue key value => cases hop
  | deleteValue key => cases hop
  | reopen => exact absurd rfl hopen
  | getValue key =>
    refine Does.bind (does_getValue hp h (fun s' h' => .pure (hQ s' d nofun h'.leavesLog))
      fun e he s' _ => ?_)
    exact ((sparesCompact henv L).merge.not_faults (he.mono fun c hc => Or.inl hc)).elim
  | commit calls =>
    have hemp : (buffered calls).pending.isEmpty = true := by
      unfold Op.batch at hop
      dsimp only at hop
      split at hop
      · next hemp => exact hemp
      · cases hop
    have hstep : (Op.commit calls).step L = L := if_pos hemp
    show Does env (Transaction.commit p (buffered calls)) _ _ _ _
    rw [commit_eq, if_pos hemp]
    rw [hstep] at hQ
    exact .pure (hQ s d nofun h.leavesLog)
  | rollback calls => exact .pure (hQ s d nofun h.leavesLog)
  | flush =>
    refine does_flush_store hp h (hfits.2.1 rfl) (sparesCompact henv _) (fun hemp => ?_)
      (fun s' d' hne h' => hflush s' d' rfl hne h')
      (fun e _ he => ((sparesCompact henv L).merge.not_faults (he.mono fun c hc => Or.inr hc)).elim)
      fun e s' d' _ he hc => hclear e s' d' rfl he hc
    have hsame : Op.flush.step L = L := if_pos hemp
    rw [hsame] at hQ
    exact hQ s d (fun _ => hemp) h.leavesLog
  | compact =>
    obtain ⟨hlog, hdata⟩ := compact_log L
    refine does_compact_through hp h (hfits.2.2 rfl) (sparesCompact henv _) fun s' d' h' hwal =>
      hQ s' d' nofun { h' with wal := hwal, log := hlog, memtable := hdata, older := fun key => ?_ }
    exact below_compact L key
  | setMemtableBudget bytes =>
    have h' : Follows p { s with memtableMaxBytes := bytes } d { L with budget := bytes } :=
      { h.toTablesStored, h.toImplements with
        budget := rfl, path := h.path, live := h.live, locked := h.locked }
    have hq := hQ _ d nofun { h' with wal := rfl, log := rfl, memtable := rfl, older := fun _ => rfl }
    exact fun _ => ⟨rfl, hq⟩

end FerrumDB
