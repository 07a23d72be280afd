import FerrumDB.Sessions
import FerrumDB.ScanLayouts
import FerrumDB.Transactions

/-!
# What compaction keeps

A compaction that succeeds leaves at most one table, of the live entries among the newest of each key,
and changes no read (`Running.compacts`). It may drop tombstones because nothing older remains, so it
does not matter when it happens: runs that differ in their compactions only hold the same pairs in their
tables after a final one (`compaction_keeps_newest`).
-/

namespace FerrumDB

open CrashLogic Overlay

variable {env : Env} {s s' : Store} {d d' : Disk} {L L' : Layers} {p : Prost} {dir : String}

/-! ## One compaction -/

/-- The entry of the newest table that mentions the key. -/
def Layers.newest (L : Layers) (key : Bytes) : Option Entry := first (L.tables.map fun t => layer t.2) key

/-- What the tables alone say. -/
def Layers.below (L : Layers) (key : Bytes) : Option Value :=
  resolve Entry.live (L.tables.map fun t => layer t.2) key

/-- The store `s'` after a compaction of `s`, whose layers are `L`: every key reads as before, and there
is one table, of the live entries among the newest, in key order, or none if there are no such entries. -/
structure CompactsTo (p : Prost) (L : Layers) (s : Store) (d : Disk) (s' : Store) (d' : Disk) : Prop where
  reads : SameReads p s d s' d'
  one : s'.sstables.length ≤ 1
  none : s'.sstables = [] ↔ ∀ key v, L.newest key ≠ some (.value v)
  table : ∀ t ∈ s'.sstables, ∃ entries, Returns (t.readAllEntries p) s' d' (fun r _ _ => r = entries) ∧
    Ascending entries ∧ ∀ key e, (key, e) ∈ entries ↔ e.isValue = true ∧ L.newest key = some e

theorem mem_mergedTables {key : Bytes} {e : Entry} :
    (key, e) ∈ (mergedTables L.tables).toList ↔ e.isValue = true ∧ L.newest key = some e := by
  have h := layer_mergedTables L.tables key
  unfold layer at h
  unfold Layers.newest
  rw [Std.ExtTreeMap.mem_toList_iff_getElem?_eq_some, h, Option.filter_eq_some_iff]
  exact And.comm

/-- The tables of compacted layers. -/
theorem compact_tables (h : 2 ≤ L.tables.length) :
    (L.compact.tables = [] ∧ (mergedTables L.tables).isEmpty = true) ∨
      (L.compact.tables = [(L.nextId, mergedTables L.tables)] ∧ (mergedTables L.tables).isEmpty = false) := by
  unfold Layers.compact
  rw [if_neg (by omega)]
  cases hemp : (mergedTables L.tables).isEmpty with
  | true => exact Or.inl ⟨rfl, rfl⟩
  | false => exact Or.inr ⟨rfl, rfl⟩

theorem length_compact_tables (L : Layers) : L.compact.tables.length ≤ 1 := by
  by_cases h : 2 ≤ L.tables.length
  · rcases compact_tables h with ⟨htables, -⟩ | ⟨htables, -⟩
    · rw [htables]; exact Nat.zero_le 1
    · rw [htables]; exact Nat.le_refl 1
  · have hsame : L.compact = L := if_pos (by omega)
    rw [hsame]
    omega

theorem isEmpty_mergedTables : (mergedTables L.tables).isEmpty = true ↔
    ∀ key v, L.newest key ≠ some (.value v) := by
  constructor
  · intro hemp key v hv
    have hmem : (key, Entry.value v) ∈ (mergedTables L.tables).toList := mem_mergedTables.2 ⟨rfl, hv⟩
    rw [Std.ExtTreeMap.toList_eq_nil_iff.2 (Std.ExtTreeMap.isEmpty_iff.1 hemp)] at hmem
    cases hmem
  · intro hnone
    rw [← Std.ExtTreeMap.isEmpty_toList, List.isEmpty_iff, List.eq_nil_iff_forall_not_mem]
    rintro ⟨key, e⟩ hmem
    obtain ⟨hvalue, hnewest⟩ := mem_mergedTables.1 hmem
    cases e with
    | value v => exact hnone key v hnewest
    | tombstone => cases hvalue

/-- **A compaction that succeeds** keeps the newest live entries and nothing else. -/
theorem Running.compacts (hp : p.Lawful) (h : Running p s d L) (hlen : 2 ≤ s.sstables.length)
    (h' : Running p s' d' L.compact) : CompactsTo p L s d s' d' := by
  have hlen : 2 ≤ L.tables.length := by rwa [← h.handles.length_eq]
  have hlen' := h'.handles.length_eq
  have hcases := compact_tables hlen
  refine ⟨fun key v => ?_, ?_, ?_, fun t ht => ?_⟩
  · have hread := Reads.returns_getValue hp ⟨L, h, rfl⟩ key
    have hread' := Reads.returns_getValue hp ⟨L.compact, h', get_compact L⟩ key
    constructor
    · intro hv
      rwa [hread.unique hv] at hread'
    · intro hv
      rwa [hread'.unique hv] at hread
  · rw [hlen']
    exact length_compact_tables L
  · rw [← isEmpty_mergedTables, ← List.length_eq_zero_iff, hlen']
    rcases hcases with ⟨htables, hemp⟩ | ⟨htables, hemp⟩
    · rw [htables, hemp]; simp
    · rw [htables, hemp]; simp
  · obtain ⟨x, hx, hread⟩ := h'.returns_readAllEntries hp ht
    rcases hcases with ⟨htables, -⟩ | ⟨htables, -⟩
    · rw [htables] at hx; cases hx
    · rw [htables] at hx
      rw [List.mem_singleton.1 hx] at hread
      exact ⟨_, hread, ascending_toList _, fun key e => mem_mergedTables⟩

/-! ## The schedule of compactions -/

/-- The layers differ in how their tables are stacked and numbered only. -/
structure Restacked (L L' : Layers) : Prop where
  data : L.data = L'.data
  budget : L.budget = L'.budget
  log : L.log = L'.log
  sequence : L.sequence = L'.sequence
  below : L.below = L'.below

theorem Restacked.refl (L : Layers) : Restacked L L := ⟨rfl, rfl, rfl, rfl, rfl⟩

theorem Restacked.symm (h : Restacked L L') : Restacked L' L :=
  ⟨h.data.symm, h.budget.symm, h.log.symm, h.sequence.symm, h.below.symm⟩

theorem Restacked.trans {L'' : Layers} (h : Restacked L L') (h' : Restacked L' L'') : Restacked L L'' :=
  ⟨h.data.trans h'.data, h.budget.trans h'.budget, h.log.trans h'.log, h.sequence.trans h'.sequence,
    h.below.trans h'.below⟩

/-- A compaction only restacks the tables. -/
theorem restacked_compact (L : Layers) : Restacked L.compact L where
  data := (compact_log L).2
  budget := by unfold Layers.compact; split_ifs <;> rfl
  log := (compact_log L).1
  sequence := by unfold Layers.compact; split_ifs <;> rfl
  below := funext fun key => below_compact L key

theorem restacked_maybeCompact (L : Layers) : Restacked L.maybeCompact L := by
  unfold Layers.maybeCompact
  split
  · exact restacked_compact L
  · exact .refl L

theorem Restacked.flush (h : Restacked L L') : Restacked L.flush L'.flush := by
  unfold Layers.flush
  rw [h.data]
  split
  · exact h
  · have htable : Restacked L.flushTable L'.flushTable :=
      ⟨rfl, h.budget, rfl, h.sequence, funext fun key => by
        show resolve Entry.live (layer L.data :: _) key = resolve Entry.live (layer L'.data :: _) key
        rw [h.data]
        exact resolve_congr_tail (congrFun h.below key)⟩
    exact (restacked_maybeCompact _).trans (htable.trans (restacked_maybeCompact _).symm)

theorem Restacked.write (h : Restacked L L') (b : Batch) : Restacked (L.write b) (L'.write b) := by
  refine ⟨?_, h.budget, ?_, ?_, h.below⟩
  · show applyBatch L.data b = applyBatch L'.data b
    rw [h.data]
  · show L.log ++ _ = L'.log ++ _
    rw [h.log, h.sequence]
  · show batchEnd L.sequence b = batchEnd L'.sequence b
    rw [h.sequence]

theorem Restacked.commit (h : Restacked L L') (b : Batch) : Restacked (L.commit b) (L'.commit b) := by
  have hw := h.write b
  have hbytes : (L.write b).bytes = (L'.write b).bytes := by
    unfold Layers.bytes
    rw [hw.data]
  unfold Layers.commit Layers.maybeFlush
  rw [hbytes, hw.budget]
  split
  · exact hw.flush
  · exact hw

/-- **Step.** An operation does the same to restacked layers. -/
theorem Restacked.step (h : Restacked L L') (op : Op) : Restacked (op.step L) (op.step L') := by
  cases op with
  | setValue key value => exact h.commit _
  | deleteValue key => exact h.commit _
  | getValue key => exact h
  | commit calls =>
    show Restacked (if _ then L else _) (if _ then L' else _)
    split
    · exact h
    · exact h.commit _
  | rollback calls => exact h
  | flush => exact h.flush
  | compact => exact (restacked_compact L).trans (h.trans (restacked_compact L').symm)
  | setMemtableBudget bytes => exact ⟨h.data, rfl, h.log, h.sequence, h.below⟩
  | reopen => exact ⟨h.data, rfl, h.log, congrArg lastSequence h.log, h.below⟩

/-- The operations of a run other than compactions. -/
def Op.isCompact : Op → Bool
  | .compact => true
  | _ => false

def withoutCompacts (ops : List Op) : List Op := ops.filter fun op => !op.isCompact

/-- **Run.** Without its compactions a run ends in restacked layers. -/
theorem Restacked.run (h : Restacked L L') (ops : List Op) :
    Restacked (ops.foldl Op.step L) ((withoutCompacts ops).foldl Op.step L') := by
  induction ops generalizing L L' with
  | nil => exact h
  | cons op ops ih =>
    unfold withoutCompacts at ih ⊢
    cases hop : op.isCompact with
    | true =>
      rw [List.filter_cons_of_neg (by simp [hop]), List.foldl_cons]
      refine ih ?_
      cases op with
      | compact => exact (restacked_compact L).trans h
      | _ => cases hop
    | false =>
      rw [List.filter_cons_of_pos (by simp [hop]), List.foldl_cons, List.foldl_cons]
      exact ih (h.step op)

/-- A table of the store holds the pair. -/
def HeldInTables (p : Prost) (s : Store) (d : Disk) (key : Bytes) (v : Value) : Prop :=
  ∃ t ∈ s.sstables, ∃ entries, Returns (t.readAllEntries p) s d (fun r _ _ => r = entries) ∧
    (key, .value v) ∈ entries

/-- With one table at most, the pairs held are those that the tables read as. -/
theorem Running.heldInTables (hp : p.Lawful) (h : Running p s d L) (hone : L.tables.length ≤ 1) {key : Bytes}
    {v : Value} : HeldInTables p s d key v ↔ L.below key = some v := by
  have hlen := h.handles.length_eq
  have hbelow : ∀ x ∈ L.tables, L.below key = some v ↔ (key, Entry.value v) ∈ x.2.toList := by
    intro x hx
    have htables : L.tables = [x] := by
      obtain ⟨y, hy⟩ := List.length_eq_one_iff.1 (Nat.le_antisymm hone (List.length_pos_of_mem hx))
      rw [hy] at hx
      rw [hy, List.mem_singleton.1 hx]
    unfold Layers.below resolve
    rw [htables, List.map_singleton, first_cons, first_nil, Option.or_none, Option.bind_eq_some_iff,
      Std.ExtTreeMap.mem_toList_iff_getElem?_eq_some]
    constructor
    · rintro ⟨e, he, hv⟩
      cases e with
      | value w => cases hv; exact he
      | tombstone => cases hv
    · intro hkey
      exact ⟨_, hkey, rfl⟩
  constructor
  · rintro ⟨t, ht, entries, hread, hmem⟩
    obtain ⟨x, hx, hread'⟩ := h.returns_readAllEntries hp ht
    rw [hread.unique hread'] at hmem
    exact (hbelow x hx).2 hmem
  · intro hv
    have hsome : s.sstables ≠ [] := by
      intro hnil
      have htables : L.tables = [] := List.length_eq_zero_iff.1 (by rw [← hlen, hnil]; rfl)
      unfold Layers.below at hv
      rw [htables] at hv
      cases hv
    obtain ⟨t, ht⟩ := List.exists_mem_of_ne_nil _ hsome
    obtain ⟨x, hx, hread⟩ := h.returns_readAllEntries hp ht
    exact ⟨t, ht, _, hread, (hbelow x hx).1 hv⟩

/-- What a run that ends with a compaction holds in its tables. -/
theorem returns_heldInTables (hp : p.Lawful) {ops : List Op} (hfits : RunFits p Layers.empty (ops ++ [.compact]))
    (s : Store) : Returns (runOps p dir (ops ++ [.compact])) s Disk.empty fun _ s' d' => ∀ key v,
      HeldInTables p s' d' key v ↔ ((withoutCompacts ops).foldl Op.step Layers.empty).below key = some v := by
  refine (returns_runOps hp _ hfits s).mono (fun _ s' d' h => ?_) fun _ _ _ he => he
  rw [List.foldl_append] at h
  have hrun := Restacked.run (.refl Layers.empty) ops
  have hbelow := ((restacked_compact _).trans hrun).below
  intro key v
  rw [← hbelow]
  exact h.toFollows.running.heldInTables hp (length_compact_tables _)

/-- **Compaction keeps exactly the newest live entries, and its schedule does not matter**, as long as the
lengths fit. -/
theorem compaction_keeps_newest (hp : p.Lawful) :
    (∀ s d L env n y, Running p s d L → 2 ≤ s.sstables.length → L.CompactFits p →
      Store.compact p ⟨s, d, env, n⟩ = .ok () y → CompactsTo p L s d y.self y.disk) ∧
    ∀ dir dir' ops ops' s s', RunFits p Layers.empty (ops ++ [.compact]) →
      RunFits p Layers.empty (ops' ++ [.compact]) → withoutCompacts ops = withoutCompacts ops' →
      Returns (runOps p dir (ops ++ [.compact])) s Disk.empty fun _ s₁ d₁ =>
        Returns (runOps p dir' (ops' ++ [.compact])) s' Disk.empty fun _ s₂ d₂ =>
          ∀ key v, HeldInTables p s₁ d₁ key v ↔ HeldInTables p s₂ d₂ key v := by
  constructor
  · intro s d L env n y h hlen hfits hrun
    have hcompact : Does env (Store.compact p) s d (fun _ s' d' => Running p s' d' L.compact)
        fun _ _ _ => True := h.does_compact hp hfits (fun _ _ h' => h') fun _ _ _ _ => trivial
    exact h.compacts hp hlen (hcompact.of_ok hrun)
  · intro dir dir' ops ops' s s' hfits hfits' hsame
    refine (returns_heldInTables hp hfits s).mono (fun _ s₁ d₁ h₁ => ?_) fun _ _ _ he => he
    refine (returns_heldInTables hp hfits' s').mono (fun _ s₂ d₂ h₂ => ?_) fun _ _ _ he => he
    intro key v
    rw [h₁ key v, h₂ key v, hsame]

/-- Three flushes, the second of a deletion. -/
def sampleFlushes : List Op :=
  [.setValue [1] (.integer 1), .setValue [2] (.text "fe"), .flush, .deleteValue [1], .flush,
    .setValue [3] (.boolean true), .flush]

/-- The same flushes, with a compaction after the second that drops the deletion. -/
def sampleCompacts : List Op :=
  [.setValue [1] (.integer 1), .setValue [2] (.text "fe"), .flush, .deleteValue [1], .flush, .compact,
    .setValue [3] (.boolean true), .flush]

theorem compaction_keeps_newest_sampleFlushes :
    (Returns (runOps Prost.wire "db" sampleFlushes) (Store.fresh "db" ⟨walName, false⟩) Disk.empty
      fun _ s d => ∀ n y, Store.compact Prost.wire ⟨s, d, Env.quiet, n⟩ = .ok () y →
        ∃ L, CompactsTo Prost.wire L s d y.self y.disk) ∧
    Returns (runOps Prost.wire "db" (sampleFlushes ++ [.compact])) (Store.fresh "db" ⟨walName, false⟩)
      Disk.empty fun _ s₁ d₁ =>
        Returns (runOps Prost.wire "db" (sampleCompacts ++ [.compact])) (Store.fresh "db" ⟨walName, false⟩)
          Disk.empty fun _ s₂ d₂ =>
            ∀ key v, HeldInTables Prost.wire s₁ d₁ key v ↔ HeldInTables Prost.wire s₂ d₂ key v := by
  obtain ⟨hone, hschedule⟩ := compaction_keeps_newest wire_lawful
  have hfits : RunFits Prost.wire Layers.empty (sampleFlushes ++ [.compact]) := by decide +kernel
  have hfits' : RunFits Prost.wire Layers.empty (sampleCompacts ++ [.compact]) := by decide +kernel
  refine ⟨?_, hschedule "db" "db" _ _ _ _ hfits hfits' rfl⟩
  obtain ⟨hops, hcompact, -⟩ := runFits_append hfits
  refine (returns_runOps wire_lawful _ hops _).mono (fun _ s d h n y hrun => ?_) fun _ _ _ he => he
  have hrunning := h.toFollows.running
  refine ⟨_, hone s d _ Env.quiet n y hrunning ?_ hcompact hrun⟩
  rw [hrunning.handles.length_eq]
  decide +kernel

end FerrumDB
