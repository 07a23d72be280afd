import FerrumDB.Oversize

/-!
# Transactions

Reading a key through a transaction, reading it after the commit, and reading it after the calls one
by one give one answer, although the commit logs the calls in key order under one COMMIT and flushes
once, and the calls one by one may flush and compact in between (`transaction_agrees`). A rollback
changes nothing.
-/

namespace FerrumDB

variable {p : Prost} {s : Store} {d : Disk} {L : Layers}

/-- A call on a transaction as an operation on the store. -/
def Op.ofCall (e : Bytes × Option Value) : Op :=
  match e.2 with
  | some v => .setValue e.1 v
  | none => .deleteValue e.1

theorem apply_ofCall (m : Bytes → Option Value) (e : Bytes × Option Value) :
    (Op.ofCall e).apply m = Function.update m e.1 e.2 := by
  obtain ⟨key, v⟩ := e
  cases v <;> rfl

theorem foldl_apply_ofCall (m : Bytes → Option Value) (calls : Batch) :
    (calls.map Op.ofCall).foldl Op.apply m = applyMap m calls := by
  induction calls generalizing m with
  | nil => rfl
  | cons e calls ih => rw [List.map_cons, List.foldl_cons, ih, apply_ofCall]; rfl

/-- A transaction reads every key as it reads just before its commit, just after it, and after the
same calls one by one; and a rollback leaves the store and its directory as they were. -/
def TransactionAgrees (p : Prost) (dir : String) (calls : Batch) (s : Store) (d : Disk) : Prop :=
  (∀ key, ∃ v,
    Returns ((buffered calls).getValue p key) s d (fun r _ _ => r = v) ∧
    Returns (do Transaction.commit p (buffered calls); Store.getValue p key) s d (fun r _ _ => r = v) ∧
    Returns (do forM (calls.map Op.ofCall) (Op.run p dir); Store.getValue p key) s d
      (fun r _ _ => r = v)) ∧
  Returns (Transaction.rollback (buffered calls)) s d fun _ s' d' => s' = s ∧ d' = d

/-- A transaction reads its own calls first, then the store. -/
theorem returns_transaction_getValue (hp : p.Lawful) (h : Agrees p s d L [] []) (calls : Batch)
    (key : Bytes) :
    Returns ((buffered calls).getValue p key) s d fun r _ _ => r = applyMap L.get calls key := by
  have hread := applyMap_buffered L.get calls key
  unfold Transaction.getValue
  cases hk : (buffered calls).pending[key]? with
  | some v =>
    rw [hk] at hread
    exact .pure hread.symm
  | none =>
    rw [hk] at hread
    refine does_getValue hp h.toFollows (fun _ _ => hread.symm) fun _ he => ?_
    exact absurd he Env.not_faults_quiet

theorem runFits_append {ops ops' : List Op} (h : RunFits p L (ops ++ ops')) :
    RunFits p L ops ∧ RunFits p (ops.foldl Op.step L) ops' := by
  induction ops generalizing L with
  | nil => exact ⟨trivial, h⟩
  | cons op ops ih =>
    obtain ⟨hop, hrest⟩ := h
    obtain ⟨h1, h2⟩ := ih hrest
    exact ⟨⟨hop, h1⟩, h2⟩

theorem returns_ops_getValue (hp : p.Lawful) {dir : String} (h : Agrees p s d L [] []) (ops : List Op)
    (hfits : RunFits p L ops) (key : Bytes) :
    Returns (do forM ops (Op.run p dir); Store.getValue p key) s d
      fun r _ _ => r = ops.foldl Op.apply L.get key := by
  refine (returns_ops hp ops h hfits).seq fun _ s' d' h' => ?_
  refine does_getValue hp h'.toFollows (fun _ _ => ?_) fun _ he => absurd he Env.not_faults_quiet
  rw [get_steps]

/-- **A transaction is its calls in order, and its reads predict its commit**, after every run, when
the lengths of both ways fit. -/
theorem transaction_agrees (hp : p.Lawful) (dir : String) (ops : List Op) (calls : Batch)
    (hcommit : RunFits p Layers.empty (ops ++ [.commit calls]))
    (hcalls : RunFits p Layers.empty (ops ++ calls.map Op.ofCall)) (s : Store) :
    Returns (runOps p dir ops) s Disk.empty fun _ s' d' => TransactionAgrees p dir calls s' d' := by
  obtain ⟨hops, hcommit⟩ := runFits_append hcommit
  obtain ⟨-, hcalls⟩ := runFits_append hcalls
  refine (returns_runOps hp ops hops s).mono (fun _ s' d' h => ⟨fun key => ?_, .pure ⟨rfl, rfl⟩⟩)
    fun _ _ _ he => he
  refine ⟨applyMap (ops.foldl Op.step Layers.empty).get calls key,
    returns_transaction_getValue hp h calls key, ?_, ?_⟩
  · have hafter : Returns (do forM _ (Op.run p dir); _) _ _ _ := returns_ops_getValue hp h [.commit calls] hcommit key
    rw [List.forM_cons, List.forM_nil, bind_assoc] at hafter
    exact hafter
  · have hafter : Returns (do forM _ (Op.run p dir); _) _ _ _ := returns_ops_getValue hp h (calls.map Op.ofCall) hcalls key
    rw [foldl_apply_ofCall] at hafter
    exact hafter

/-- A key twice, a deletion, and a budget at which the single calls flush in between. -/
def sampleCalls : Batch :=
  [([2], some (.boolean true)), ([1], none), ([2], some (.integer 7)), ([], some (.text "fe"))]

theorem transaction_agrees_sampleCalls :
    (RunFits Prost.wire Layers.empty
        ([.setValue [1] (.integer 1), .setMemtableBudget 6] ++ [.commit sampleCalls]) ∧
      RunFits Prost.wire Layers.empty
        ([.setValue [1] (.integer 1), .setMemtableBudget 6] ++ sampleCalls.map Op.ofCall)) ∧
    Returns (runOps Prost.wire "db" [.setValue [1] (.integer 1), .setMemtableBudget 6])
      (Store.fresh "db" ⟨walName, false⟩) Disk.empty
      fun _ s' d' => TransactionAgrees Prost.wire "db" sampleCalls s' d' :=
  have hfits : RunFits Prost.wire Layers.empty
        ([.setValue [1] (.integer 1), .setMemtableBudget 6] ++ [.commit sampleCalls]) ∧
      RunFits Prost.wire Layers.empty
        ([.setValue [1] (.integer 1), .setMemtableBudget 6] ++ sampleCalls.map Op.ofCall) := by
    decide +kernel
  ⟨hfits, transaction_agrees wire_lawful "db" _ sampleCalls hfits.1 hfits.2 _⟩

/-- A value of 4 GiB reads back through the transaction, and no longer once it is committed. -/
theorem not_transactionAgrees_big : Returns (runOps Prost.wire "db" [])
    (Store.fresh "db" ⟨walName, false⟩) Disk.empty
      fun _ s' d' => ¬ TransactionAgrees Prost.wire "db" (bigBatch (2 ^ 32)) s' d' := by
  have hopen : Returns (runOps Prost.wire "db" _) _ _ _ := returns_runOps wire_lawful [] trivial (Store.fresh "db" ⟨walName, false⟩)
  refine hopen.mono (fun _ s' d' h hagree => ?_) fun _ _ _ he => he
  obtain ⟨v, -, hafter, -⟩ := hagree.1 bigKey
  have hlist : (buffered (bigBatch (2 ^ 32))).pending.toList = bigBatch (2 ^ 32) := by
    have hperm := OrderedMap.toList_insert_perm_of_none
      (m := (∅ : Std.ExtTreeMap Bytes (Option Value) compare)) (k := bigKey)
      (v := some (bigValue (2 ^ 32))) Std.ExtTreeMap.getElem?_empty
    rw [Std.ExtTreeMap.toList_eq_nil_iff.2 rfl] at hperm
    exact List.perm_singleton.1 hperm.symm
  have hne : (buffered (bigBatch (2 ^ 32))).pending.isEmpty = false := by
    rw [← Std.ExtTreeMap.isEmpty_toList, hlist]; rfl
  refine hafter.not_stops (E := fun _ _ _ => True) ?_
  rw [commit_eq, hne, if_neg (by simp), hlist]
  refine Does.bind ((returns_writeBatch_big rfl h).mono (fun _ s'' d'' h'' => ?_) fun _ _ _ he => he.elim)
  exact does_getValue_big rfl h'' (fun _ => trivial) fun _ => Env.not_faults_quiet

end FerrumDB
