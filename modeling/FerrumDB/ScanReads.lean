import FerrumDB.Store.Scan
import FerrumDB.Oversize

/-!
# Scans and point reads agree

In every state of a run whose lengths fit, a scan lists, in ascending key order, exactly the pairs
within its bounds that point reads return (`scans_agree`). A value that does not fit its field breaks
both reads of its table (`not_scansAgree_big`).
-/

namespace FerrumDB

variable {p : Prost}

/-- For all bounds that `BTreeMap::range` accepts, the scan returns a list with strictly ascending
keys, of the pairs within the bounds that `get_value` returns. -/
def ScansAgree (p : Prost) (s : Store) (d : Disk) : Prop :=
  ∀ lo hi, rangeAccepts lo hi = true →
    ∃ out, Returns (Store.scanRange p lo hi) s d (fun r _ _ => r = out) ∧
      (out.Pairwise fun x y => x.1 < y.1) ∧
      ∀ key v, (key, v) ∈ out ↔
        inBounds key lo hi = true ∧ Returns (Store.getValue p key) s d fun r _ _ => r = some v

theorem Agrees.returns_getValue {s : Store} {d : Disk} {L : Layers} {junk : List WalEntry} {t : Bytes}
    (hp : p.Lawful) (h : Agrees p s d L junk t) (key : Bytes) :
    Returns (Store.getValue p key) s d fun r _ _ => r = L.get key :=
  does_getValue hp h.toFollows (fun _ _ => rfl) fun _ he => absurd he Env.not_faults_quiet

/-- **Scans agree with point reads** after every run whose lengths fit. -/
theorem scans_agree (hp : p.Lawful) (dir : String) (ops : List Op)
    (hfits : RunFits p Layers.empty ops) (s : Store) :
    Returns (runOps p dir ops) s Disk.empty fun _ s' d' => ScansAgree p s' d' := by
  refine (returns_runOps hp ops hfits s).mono (fun _ s' d' h => ?_) fun _ _ _ he => he
  intro lo hi hacc
  refine ⟨(ops.foldl Op.step Layers.empty).scan lo hi, ?_, scan_ascending _, fun key v => ?_⟩
  · exact does_scanRange hp h.toFollows.running (Or.inr hacc) rfl fun _ he => absurd he Env.not_faults_quiet
  · have hget := h.returns_getValue hp key
    rw [mem_scan]
    constructor
    · rintro ⟨hin, hv⟩
      rw [hv] at hget
      exact ⟨hin, hget⟩
    · rintro ⟨hin, hv⟩
      exact ⟨hin, hget.unique hv⟩

theorem scans_agree_sampleOps :
    RunFits Prost.wire Layers.empty sampleOps ∧
      Returns (runOps Prost.wire "db" sampleOps) (Store.fresh "db" ⟨walName, false⟩) Disk.empty
        fun _ s' d' => ScansAgree Prost.wire s' d' :=
  have hfits : RunFits Prost.wire Layers.empty sampleOps := by decide +kernel
  ⟨hfits, scans_agree wire_lawful "db" sampleOps hfits _⟩

/-- A value of 4 GiB is written without an error, and then neither read returns. -/
theorem not_scansAgree_big : Returns (runOps Prost.wire "db" [.setValue bigKey (bigValue (2 ^ 32))])
    (Store.fresh "db" ⟨walName, false⟩) Disk.empty fun _ s' d' => ¬ ScansAgree Prost.wire s' d' := by
  refine (returns_runOps_big rfl).mono (fun _ s' d' h hagree => ?_) fun _ _ _ he => he
  obtain ⟨out, hscan, -⟩ := hagree .unbounded .unbounded rfl
  exact hscan.not_stops (E := fun _ _ _ => True)
    (does_scanRange_big rfl h rfl trivial fun _ => Env.not_faults_quiet)

end FerrumDB
