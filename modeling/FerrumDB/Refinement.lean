import FerrumDB.Reopening
import FerrumDB.Wire

/-!
# The store refines a key-value map

A run is a sequence of operations on a table, reopening it included. A run that fits keeps the store
and the layers in agreement (`returns_ops`), and reads of the layers are those of the map.
`store_refines_map` puts the two together.
-/

namespace FerrumDB

variable {s : Store} {d : Disk} {L : Layers} {p : Prost} {dir : String}

/-- Dropping the store leaves its directory, unlocked. -/
theorem Agrees.dropped {junk : List WalEntry} {t : Bytes} (h : Agrees p s d L junk t) :
    Stored p { d with locked := false } L junk t :=
  { h.stored with }

theorem room_of_writeFits {b : Batch} (h : Agrees p s d L [] []) (hfits : L.WriteFits p b) :
    (d.bytesOf walName).length +
      (logBytes p (batchLog L.sequence b ++ [commitEntry (batchEnd L.sequence b)])).length ≤ maxFileLen := by
  have hroom := hfits.log
  rw [h.bytes, List.append_nil, List.append_nil]
  rwa [Layers.write, logBytes_append, List.length_append] at hroom

theorem returns_writeBatch (hp : p.Lawful) (h : Agrees p s d L [] []) {b : Batch}
    (hfits : L.CommitFits p b) :
    Returns (Store.writeBatch p b) s d fun _ s' d' => Agrees p s' d' (L.commit b) [] [] :=
  does_writeBatch_clean hp h hfits.write.sequence hfits.flush (Env.quiet_spares _) (fun _ _ h' => h')
    (fun _ _ _ _ _ hc => Env.not_faults_quiet (hc.fault (room_of_writeFits h hfits.write)))
    fun _ _ _ _ he _ _ => Env.not_faults_quiet he

theorem Op.Fits.tablesFit {op : Op} (h : op.Fits p L) : op.TablesFit p L := by
  have hcommit : ∀ b, L.CommitFits p b → L.BatchFits p b := by
    intro b hb
    have hlog := hb.write.log
    rw [Layers.write, logBytes_append, List.length_append] at hlog
    refine ⟨hb.write.sequence, ?_, hb.flush⟩
    unfold maxFileLen at hlog
    unfold maxVecLen
    omega
  cases op with
  | setValue key value => exact ⟨fun b hb => by cases hb; exact hcommit _ h, nofun, nofun⟩
  | deleteValue key => exact ⟨fun b hb => by cases hb; exact hcommit _ h, nofun, nofun⟩
  | commit calls =>
    refine ⟨fun b hb => ?_, nofun, nofun⟩
    unfold Op.batch at hb
    dsimp only at hb
    split at hb
    · cases hb
    · next hemp => cases hb; exact hcommit _ (h (by simpa using hemp))
  | flush => exact ⟨nofun, fun _ => h, nofun⟩
  | compact => exact ⟨nofun, nofun, fun _ => h⟩
  | _ => exact ⟨nofun, nofun, nofun⟩

theorem Op.Fits.commitFits {op : Op} (h : op.Fits p L) {b : Batch} (hb : op.batch = some b) :
    L.CommitFits p b := by
  cases op with
  | setValue key value => cases hb; exact h
  | deleteValue key => cases hb; exact h
  | commit calls =>
    unfold Op.batch at hb
    dsimp only at hb
    split at hb
    · cases hb
    · next hemp => cases hb; exact h (by simpa using hemp)
  | _ => cases hb

/-- **Step.** An operation that fits keeps the agreement. -/
theorem returns_op (hp : p.Lawful) (h : Agrees p s d L [] []) {op : Op} (hfits : op.Fits p L) :
    Returns (op.run p dir) s d fun _ s' d' => Agrees p s' d' (op.step L) [] [] := by
  cases hb : op.batch with
  | some b =>
    rw [step_of_batch hb]
    exact does_batch_op hb (returns_writeBatch hp h (hfits.commitFits hb))
  | none =>
    by_cases hopen : op = .reopen
    · subst hopen
      have hdrop : Returns Store.drop s d fun _ s' d' => s' = s ∧ d' = { d with locked := false } :=
        fun _ => ⟨rfl, rfl, rfl⟩
      refine hdrop.seq fun _ s' d' ⟨hs, hd⟩ => ?_
      subst hs hd
      exact does_openWithDir hp h.dropped rfl fun s' d' h' => h'
    · refine does_other_op hp h.toFollows hb hopen hfits.tablesFit (Env.quiet_spares _)
        (fun s' d' _ hq => ?_) (fun s' d' _ _ h' => h') fun e s' d' _ he => absurd he Env.not_faults_quiet
      have hstored := h.toLogStored.frame hq.wal
      rw [← hq.log, ← hq.memtable] at hstored
      exact { hq.toFollows, hstored with }

/-- **Run.** -/
theorem returns_ops (hp : p.Lawful) (ops : List Op) (h : Agrees p s d L [] [])
    (hfits : RunFits p L ops) :
    Returns (forM ops (Op.run p dir)) s d fun _ s' d' => Agrees p s' d' (ops.foldl Op.step L) [] [] := by
  induction ops generalizing s d L with
  | nil => exact .pure h
  | cons op ops ih =>
    rw [List.forM_cons]
    exact (returns_op hp h hfits.1).seq fun _ s' d' h' => ih h' hfits.2

/-- An empty directory holds the layers of an empty table. -/
theorem stored_empty : Stored p Disk.empty Layers.empty [] [] where
  table x hx := by cases hx
  descending := List.Pairwise.nil
  ids x hx := by cases hx
  files name f hname := by simp [Disk.empty] at hname
  bytes := by simp [Disk.empty, Disk.bytesOf, Layers.empty]
  synced := Nat.zero_le _
  closed := FramedLog.closed_nil isCommit
  unmarked e he := by cases he
  torn := FramedLog.torn_nil _ _
  replays := replays_nil

theorem returns_runOps (hp : p.Lawful) (ops : List Op) (hfits : RunFits p Layers.empty ops)
    (s : Store) : Returns (runOps p dir ops) s Disk.empty fun _ s' d' =>
      Agrees p s' d' (ops.foldl Op.step Layers.empty) [] [] := by
  have hopen : Returns (Store.openWithDir p dir) s Disk.empty fun _ s' d' =>
      Agrees p s' d' Layers.empty [] [] := does_openWithDir hp stored_empty rfl fun _ _ h' => h'
  refine hopen.seq fun _ s' d' h' => ?_
  exact returns_ops hp ops h' hfits

/-- **The store refines a map.** After any run whose lengths fit, every key reads as the map says
that the run's puts and deletes make of the empty one. -/
theorem store_refines_map (hp : p.Lawful) (dir : String) (ops : List Op)
    (hfits : RunFits p Layers.empty ops) (key : Bytes) (s : Store) :
    Returns (do runOps p dir ops; Store.getValue p key) s Disk.empty
      fun v _ _ => v = mapOf ops key := by
  refine (returns_runOps hp ops hfits s).seq fun _ s' d' h' => ?_
  refine does_getValue hp h'.toFollows (fun _ _ => ?_) fun e he _ _ => Env.not_faults_quiet he
  rw [get_steps]
  rw [get_empty]
  rfl

/-- A run with an automatic flush, a transaction, a compaction and two reopens. -/
def sampleOps : List Op :=
  [.setValue [] (.integer 1), .setValue [1] (.bytes [2, 3]), .setMemtableBudget 4, .deleteValue [],
    .commit [([2], some (.boolean true)), ([1], none), ([2], some (.integer 7))], .reopen,
    .setValue [3] (.text "fe"), .flush, .compact, .deleteValue [3], .rollback [([2], none)], .reopen]

theorem store_refines_map_sampleOps :
    RunFits Prost.wire Layers.empty sampleOps ∧
      Returns (do runOps Prost.wire "db" sampleOps; Store.getValue Prost.wire [2])
        (Store.fresh "db" ⟨walName, false⟩) Disk.empty fun v _ _ => v = mapOf sampleOps [2] :=
  have hfits : RunFits Prost.wire Layers.empty sampleOps := by decide +kernel
  ⟨hfits, store_refines_map wire_lawful "db" sampleOps hfits [2] _⟩

example : mapOf sampleOps [2] = some (.integer 7) := by decide

end FerrumDB
