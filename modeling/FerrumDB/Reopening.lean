import FerrumDB.Operations

/-!
# What a directory opens to

`Reopens` says that opening a directory succeeds and that every key then reads as in a given map,
`Recovers` the same for some keys. A directory that holds layers opens to their reads
(`Stored.reopens`), and to no others (`Reopens.reopens_iff`).
-/

namespace FerrumDB

open Overlay

variable {s : Store} {d : Disk} {L : Layers} {p : Prost} {dir : String} {m r : Bytes → Option Value}
  {junk : List WalEntry} {t : Bytes}

/-- Opening the directory succeeds, and then every key reads as in `m`. -/
def Reopens (p : Prost) (dir : String) (d : Disk) (m : Bytes → Option Value) : Prop :=
  ∀ s, Returns (Store.openWithDir p dir) s d fun _ s' d' =>
    ∀ key, Returns (Store.getValue p key) s' d' fun r _ _ => r = m key

/-- Opening the directory succeeds, and then the keys `keys` read as in `m`. -/
def Recovers (p : Prost) (dir : String) (d : Disk) (keys : List Bytes) (m : Bytes → Option Value) : Prop :=
  ∀ s, Returns (Store.openWithDir p dir) s d fun _ s' d' =>
    ∀ key ∈ keys, Returns (Store.getValue p key) s' d' fun r _ _ => r = m key

/-- A directory that holds layers opens to a store that reads as they do. -/
theorem Stored.reopens (hp : p.Lawful) (h : Stored p d L junk t) (hfree : d.locked = false) :
    Reopens p dir d L.get := fun _ =>
  does_openWithDir hp h hfree fun _ _ h' _ =>
    does_getValue hp h'.toFollows (fun _ _ => rfl) fun _ he => absurd he Env.not_faults_quiet

/-- Opening a directory that holds layers, as a step of a run. -/
theorem Stored.agrees_of_open (hp : p.Lawful) (h : Stored p d L junk t) (hfree : d.locked = false) {n : ℕ} {y : Mem Store}
    (hrun : Store.openWithDir p dir ⟨s, d, Env.quiet, n⟩ = .ok () y) :
    Agrees p y.self y.disk L.reopen [] [] :=
  (does_openWithDir hp h hfree fun _ _ h' => h').of_ok (Q := fun _ s' d' => Agrees p s' d' L.reopen [] [])
    hrun

theorem get_empty : Layers.empty.get = fun _ => none := by
  funext key
  exact resolve_cons_none Std.ExtTreeMap.getElem?_empty

/-- A directory opens to one map. -/
theorem Reopens.recovers_iff (h : Reopens p dir d r) (keys : List Bytes) :
    Recovers p dir d keys m ↔ ∀ key ∈ keys, r key = m key := by
  constructor
  · intro hrec key hkey
    obtain ⟨_, x, hrun, hread⟩ := (h (Store.fresh dir ⟨walName, false⟩)).run 0
    have hread' := (hrec (Store.fresh dir ⟨walName, false⟩)).of_ok hrun key hkey
    exact (hread key).unique hread'
  · intro heq s
    refine (h s).mono (fun _ s' d' hread key hkey => ?_) fun _ _ _ he => he
    rw [← heq key hkey]
    exact hread key

theorem Reopens.reopens_iff (h : Reopens p dir d r) : Reopens p dir d m ↔ r = m := by
  constructor
  · intro hm
    funext key
    have hrec : Recovers p dir d [key] m := fun s =>
      (hm s).mono (fun _ _ _ hread k _ => hread k) fun _ _ _ he => he
    exact (h.recovers_iff [key]).1 hrec key (List.mem_singleton_self key)
  · intro heq
    rwa [← heq]

end FerrumDB
