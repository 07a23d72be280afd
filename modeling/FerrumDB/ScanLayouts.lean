import FerrumDB.Sessions
import FerrumDB.ScanReads

/-!
# Scans and the physical layout

What a scan lists depends on what the keys read as, not on which layer holds them. But a memtable with
entries is asked through `BTreeMap::range`, which panics on bounds that an empty memtable and the tables
take for an empty range: two stores that read alike scan alike exactly if both memtables can be asked
(`scans_alike_iff`).
-/

namespace FerrumDB

open CrashLogic

variable {s s' : Store} {d d' : Disk} {p : Prost} {dir dir' : String} {m m' : Bytes → Option Value}
  {lo hi : Bound}

/-- Every key reads the same in both stores. -/
def SameReads (p : Prost) (s : Store) (d : Disk) (s' : Store) (d' : Disk) : Prop :=
  ∀ key v, Returns (Store.getValue p key) s d (fun r _ _ => r = v) ↔
    Returns (Store.getValue p key) s' d' fun r _ _ => r = v

/-- Both scans return the same list, an empty one if no key is within the bounds. -/
def ScansAlike (p : Prost) (lo hi : Bound) (s : Store) (d : Disk) (s' : Store) (d' : Disk) : Prop :=
  ∃ out, Returns (Store.scanRange p lo hi) s d (fun r _ _ => r = out) ∧
    Returns (Store.scanRange p lo hi) s' d' (fun r _ _ => r = out) ∧
    ((∀ key, inBounds key lo hi = false) → out = [])

theorem SameReads.get_eq (hp : p.Lawful) {L L' : Layers} (h : Running p s d L) (h' : Running p s' d' L')
    (hsame : SameReads p s d s' d') : L.get = L'.get := by
  funext key
  have hread := Reads.returns_getValue hp ⟨L, h, rfl⟩ key
  have hread' := Reads.returns_getValue hp ⟨L', h', rfl⟩ key
  exact ((hsame key _).1 hread).unique hread'

/-- Two sessions at the same map read alike. -/
theorem Session.sameReads (hp : p.Lawful) (h : Session p dir s d m) (h' : Session p dir' s' d' m) :
    SameReads p s d s' d' := by
  intro key v
  have hread := (h.reads hp).returns_getValue hp key
  have hread' := (h'.reads hp).returns_getValue hp key
  constructor
  · intro hv
    rwa [hread.unique hv] at hread'
  · intro hv
    rwa [hread'.unique hv] at hread

theorem Running.scannable_of_returns (hp : p.Lawful) {L : Layers} (h : Running p s d L)
    {Q : List (Bytes × Value) → Store → Disk → Prop} (hscan : Returns (Store.scanRange p lo hi) s d Q) :
    s.Scannable lo hi := by
  by_contra hnot
  exact hscan.not_stops (E := fun _ _ _ => True)
    (does_scanRange_panics hp h hnot trivial fun _ he => absurd he Env.not_faults_quiet)

/-- **Stores that read alike scan alike** exactly if both memtables can be asked for the bounds. -/
theorem scans_alike_iff (hp : p.Lawful) (h : Session p dir s d m) (h' : Session p dir' s' d' m')
    (hsame : SameReads p s d s' d') (lo hi : Bound) :
    ScansAlike p lo hi s d s' d' ↔ s.Scannable lo hi ∧ s'.Scannable lo hi := by
  obtain ⟨L, hL, -⟩ := h.reads hp
  obtain ⟨L', hL', -⟩ := h'.reads hp
  constructor
  · rintro ⟨out, hscan, hscan', -⟩
    exact ⟨hL.scannable_of_returns hp hscan, hL'.scannable_of_returns hp hscan'⟩
  · rintro ⟨hask, hask'⟩
    refine ⟨L.scan lo hi, ?_, ?_, fun hnone => scan_eq_nil hnone⟩
    · exact does_scanRange hp hL hask rfl fun _ he => absurd he Env.not_faults_quiet
    · rw [scan_eq_of_get_eq (hsame.get_eq hp hL hL')]
      exact does_scanRange hp hL' hask' rfl fun _ he => absurd he Env.not_faults_quiet

set_option synthInstance.maxSize 1000 in
/-- A store before and after a flush. -/
theorem scans_alike_iff_flush : ∃ s d s' d', SameReads Prost.wire s d s' d' ∧ s'.sstables.length = 1 ∧
    ∀ lo hi, ScansAlike Prost.wire lo hi s d s' d' ↔ s.Scannable lo hi ∧ s'.Scannable lo hi := by
  have hruns : wp (Store.openWithDir Prost.wire "db")
      ⟨Store.fresh "db" ⟨walName, false⟩, Disk.empty, Env.quiet, 0⟩
      (fun _ x => (samplePut 1).Fits Prost.wire x.self.memory ∧ x.self.sstables.length = 0 ∧
        wp ((samplePut 1).run Prost.wire "db") ⟨x.self, x.disk, Env.quiet, 0⟩
          (fun _ y => Op.flush.Fits Prost.wire y.self.memory ∧ y.self.sstables.length = 0 ∧
            wp (Op.flush.run Prost.wire "db") ⟨y.self, y.disk, Env.quiet, 0⟩
              (fun _ z => z.self.sstables.length = 1) fun _ _ => False)
          fun _ _ => False)
      fun _ _ => False := by decide +kernel
  obtain ⟨_, x, hopen, hfits, hnil, hruns⟩ := hruns.returns
  obtain ⟨_, y, hput, hfits', hnil', hruns⟩ := hruns.returns
  obtain ⟨_, z, hflush, hone⟩ := hruns.returns
  have hsession : Op.flush ≠ .reopen := nofun
  have hwritten := (session_new hopen).stepped (samplePut_ne_reopen 1) (sessionFits_of_memory hnil hfits)
    (Or.inl hput)
  have hflushed := hwritten.stepped hsession (sessionFits_of_memory hnil' hfits') (Or.inl hflush)
  rw [reached_of_batch_eq_none rfl] at hflushed
  have hsame := hwritten.sameReads wire_lawful hflushed
  exact ⟨_, _, _, _, hsame, hone, scans_alike_iff wire_lawful hwritten hflushed hsame⟩

set_option synthInstance.maxSize 1000 in
/-- A range whose start is after its end panics while its store has a key in the memtable, and is empty
once the key is flushed. -/
theorem inverted_range_panics : wp (Store.openWithDir Prost.wire "db")
    ⟨Store.fresh "db" ⟨walName, false⟩, Disk.empty, Env.quiet, 0⟩
    (fun _ x => wp (Store.setValue Prost.wire [1] (.integer 1)) ⟨x.self, x.disk, Env.quiet, 0⟩
      (fun _ y =>
        wp (Store.scanRange Prost.wire (.included [2]) (.excluded [1])) ⟨y.self, y.disk, Env.quiet, 0⟩
          (fun _ _ => False) (fun e _ => e = .panic) ∧
        wp (Store.flush Prost.wire) ⟨y.self, y.disk, Env.quiet, 0⟩
          (fun _ z => wp (Store.scanRange Prost.wire (.included [2]) (.excluded [1]))
            ⟨z.self, z.disk, Env.quiet, 0⟩ (fun r _ => r = []) fun _ _ => False)
          fun _ _ => False)
      fun _ _ => False)
    fun _ _ => False := by decide +kernel

end FerrumDB
