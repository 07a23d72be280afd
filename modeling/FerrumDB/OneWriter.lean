import FerrumDB.Database.Handles
import FerrumDB.Wire

/-!
# One writer

A store holds the lock on the inode of its `LOCK` file, and `delete_table` removes that file without a look
at the lock. As long as no handle does so to a table that another one has open or is about to lock, no
second store can be open on the path, and no step of another handle touches the files (`one_writer`).
Without this condition two stores can be open on one path (`two_writers`).
-/

namespace FerrumDB

variable {p : Prost} {lossy : Path → String}

/-! ## All handles -/

section World

variable {H : Type} [DecidableEq H] {w : World H} {h h' : H} {a : Action} {root : Path}

/-- A handle has opened the lock file, and is about to lock it. -/
def World.Opening (w : World H) (i : Inode) : Prop := ∃ h name, (w.handles h).phase = .flock name i

/-- If the step removes a file of a directory with a lock file, nobody holds the lock; and if it removes
the lock file, nobody has opened it in order to lock it. -/
def World.Careful (w : World H) (h : H) (a : Action) : Prop :=
  ∀ name dir file f, (w.handles h).phase = .unlink name dir → a = .unlink file →
    (w.fs.files dir)["LOCK"]? = some f →
      w.fs.locked (w.fs.lock dir) = false ∧ (file = "LOCK" → ¬ w.Opening (w.fs.lock dir))

/-- The states of all runs of the handles, in any order of steps, in which every step is careful. -/
inductive World.Reached (p : Prost) (lossy : Path → String) (root : Path) : World H → Prop
  | new : World.Reached p lossy root (World.new root)
  | step {w : World H} {h : H} {a : Action} (before : World.Reached p lossy root w) (careful : w.Careful h a) :
      World.Reached p lossy root (w.step p lossy h a)

/-- The handles are in order, and no two hold one lock. -/
structure World.Ok (lossy : Path → String) (w : World H) : Prop where
  sound : w.fs.Sound
  handles : ∀ h, (w.handles h).Ok lossy w.fs
  apart : ∀ h h' i, (w.handles h).Owns i → (w.handles h').Owns i → h = h'

omit [DecidableEq H] in
theorem ok_new : (World.new root : World H).Ok lossy := by
  have hnone : ∀ n : String, (∅ : Std.ExtTreeMap String OpenStore)[n]? = none := fun n =>
    Std.ExtTreeMap.getElem?_empty
  have hno : ∀ (n : String) (live : OpenStore), (Handle.new root).db.opened[n]? = some live → False := by
    intro n live h
    cases (hnone n).symm.trans h
  refine ⟨sound_empty, fun h => ⟨fun n live hn => (hno n live hn).elim, ?_, fun n live hn => (hno n live hn).elim, nofun,
    fun n _ live _ hn => (hno n live hn).elim⟩, ?_⟩
  · rintro i ⟨n, live, hn, -⟩
    exact (hno n live hn).elim
  · rintro h h' i ⟨n, live, hn, -⟩
    exact (hno n live hn).elim

/-- The step of `h`, as the others see it. -/
theorem World.Ok.stepOk (hw : w.Ok lossy) (hcare : w.Careful h a) : StepOk lossy w.Opening (w.handles h) w.fs
    ((w.handles h).step p lossy w.fs a).1 (w.step p lossy h a).fs :=
  (w.handles h).step_ok hw.sound (hw.handles h) a hcare

theorem handles_step_self : (w.step p lossy h a).handles h = ((w.handles h).step p lossy w.fs a).1 :=
  Function.update_self ..

theorem handles_step_of_ne (hne : h' ≠ h) : (w.step p lossy h a).handles h' = w.handles h' :=
  Function.update_of_ne hne _ _

/-- **Step.** -/
theorem World.Ok.step (hw : w.Ok lossy) (hcare : w.Careful h a) : (w.step p lossy h a).Ok lossy := by
  have hstep := hw.stepOk (p := p) hcare
  -- a lock that `h` gains is none of the others'
  have hgained : ∀ h' ≠ h, ∀ i, (w.handles h').Owns i → ¬ ((w.step p lossy h a).handles h).Owns i := by
    intro h' hne i hi hi'
    rw [handles_step_self] at hi'
    rcases hstep.gained i hi' with hi' | hfree
    · exact hne (hw.apart h' h i hi hi')
    · rw [(hw.handles h').locked i hi] at hfree
      cases hfree
  refine ⟨hstep.sound, fun h' => ?_, fun h₁ h₂ i hi₁ hi₂ => ?_⟩
  · by_cases hne : h' = h
    · subst hne
      rw [handles_step_self]
      exact hstep.ok
    · rw [handles_step_of_ne hne]
      have hown : ∀ i, (w.handles h').Owns i → ¬ (w.handles h).Owns i := fun i hi hi' =>
        hne (hw.apart h' h i hi hi')
      have hx := hw.handles h'
      refine { hx with
        lockAt := fun n live hn => ?_
        locked := fun i hi => hstep.locked i (hx.locked i hi) (hown i hi)
        opening := fun n i hi => hstep.lockAt _ i (hx.opening n i hi) (Or.inr ⟨h', n, hi⟩) }
      have hi := Handle.owns_of_opened hn
      exact hstep.lockAt _ _ (hx.lockAt n live hn) (Or.inl ⟨hx.locked _ hi, hown _ hi⟩)
  · by_cases hne₁ : h₁ = h
    · by_cases hne₂ : h₂ = h
      · rw [hne₁, hne₂]
      · subst hne₁
        rw [handles_step_of_ne hne₂] at hi₂
        exact absurd hi₁ (hgained h₂ hne₂ i hi₂)
    · rw [handles_step_of_ne hne₁] at hi₁
      by_cases hne₂ : h₂ = h
      · subst hne₂
        exact absurd hi₂ (hgained h₁ hne₁ i hi₁)
      · rw [handles_step_of_ne hne₂] at hi₂
        exact hw.apart h₁ h₂ i hi₁ hi₂

/-- **Run.** -/
theorem World.Reached.ok (hw : World.Reached p lossy root w) : w.Ok lossy := by
  induction hw with
  | new => exact ok_new
  | step _ hcare ih => exact ih.step hcare

/-- No two stores are open on one path. -/
def World.Alone (lossy : Path → String) (w : World H) : Prop :=
  ∀ (h h' : H) (name name' : String) (live live' : OpenStore),
    (w.handles h).db.opened[name]? = some live → (w.handles h').db.opened[name']? = some live' →
      (w.handles h).db.storePath lossy name = (w.handles h').db.storePath lossy name' → h = h' ∧ name = name'

/-- The step of `h` leaves the directory of every table that another handle has open where it is, and its
files as they are. -/
def World.Untouched (p : Prost) (lossy : Path → String) (w : World H) (h : H) (a : Action) : Prop :=
  ∀ (h' : H) (name : String) (live : OpenStore), h' ≠ h → (w.handles h').db.opened[name]? = some live →
    ∃ dir, w.fs.dirs[(w.handles h').db.storePath lossy name]? = some dir ∧
      (w.step p lossy h a).fs.dirs[(w.handles h').db.storePath lossy name]? = some dir ∧
      (w.step p lossy h a).fs.files dir = w.fs.files dir

/-- One writer for each table, now and in the next step. -/
structure World.OneWriter (p : Prost) (lossy : Path → String) (w : World H) : Prop where
  alone : w.Alone lossy
  untouched : ∀ h a, w.Careful h a → w.Untouched p lossy h a

omit [DecidableEq H] in
theorem World.Ok.alone (hw : w.Ok lossy) : w.Alone lossy := by
  intro h h' name name' live live' hlive hlive' hpath
  have hlock := (hw.handles h).lockAt name live hlive
  rw [hpath] at hlock
  have heq := hlock.unique ((hw.handles h').lockAt name' live' hlive')
  have hown : (w.handles h).Owns live'.lock := ⟨name, live, hlive, heq⟩
  obtain rfl := hw.apart h h' _ hown (Handle.owns_of_opened hlive')
  exact ⟨rfl, (hw.handles h).apart name name' live live' hlive hlive' heq⟩

theorem World.Ok.untouched (hw : w.Ok lossy) (hcare : w.Careful h a) : w.Untouched p lossy h a := by
  intro h' name live hne hlive
  have hown := Handle.owns_of_opened hlive
  have hlock := (hw.handles h').lockAt name live hlive
  obtain ⟨dir, f, hdir, -⟩ := (hw.handles h').lockAt name live hlive
  obtain ⟨hdir', hfiles⟩ := (hw.stepOk (p := p) hcare).files _ live.lock dir hlock ((hw.handles h').locked _ hown)
    (fun hi => hne (hw.apart h' h _ hown hi)) hdir
  exact ⟨dir, hdir, hdir', hfiles⟩

/-- **One writer**, as long as no table is deleted that another handle has open or is opening. -/
theorem one_writer (hw : World.Reached p lossy root w) : w.OneWriter p lossy where
  alone := hw.ok.alone
  untouched _ _ hcare := hw.ok.untouched hcare

end World

/-! ## Two handles -/

/-- `to_string_lossy` of an ASCII path. -/
def asciiString (path : Path) : String := String.ofList (path.map fun b => Char.ofNat b.toNat)

/-- Two handles on one root take steps. -/
def twoHandles (steps : List (Bool × Action)) : World Bool :=
  World.run Prost.wire asciiString (World.new (pathOf "db")) steps

theorem twoHandles_append (steps steps' : List (Bool × Action)) : twoHandles (steps ++ steps') =
    World.run Prost.wire asciiString (twoHandles steps) steps' := List.foldl_append

def openSteps (h : Bool) (name : String) : List (Bool × Action) :=
  [(h, .table name), (h, .advance), (h, .advance), (h, .load Env.quiet 0)]

/-- The steps of `delete_table` before the first file is removed. -/
def deleteSteps (h : Bool) (name : String) : List (Bool × Action) :=
  [(h, .deleteTable name), (h, .advance), (h, .advance)]

/-- A run in which no file is removed is careful. -/
theorem reached_run {w : World Bool} {root : Path} (hw : World.Reached p lossy root w)
    {steps : List (Bool × Action)} (hsteps : ∀ e ∈ steps, ∀ file, e.2 ≠ .unlink file) :
    World.Reached p lossy root (World.run p lossy w steps) := by
  induction steps generalizing w with
  | nil => exact hw
  | cons e steps ih =>
    refine ih (.step hw fun _ _ file _ _ ha => ?_) fun e' he' => hsteps e' (List.mem_cons_of_mem _ he')
    exact absurd ha (hsteps e (List.mem_cons_self ..) file)

/-- One handle has a table open, the other opens a second one and deletes it again. -/
theorem one_writer_two_handles : ∃ w : World Bool, World.Reached Prost.wire asciiString (pathOf "db") w ∧
    (w.handles false).db.opened.contains "t" = true ∧ w.fs.dirs.contains (pathOf "db/u") = false ∧
    w.OneWriter Prost.wire asciiString := by
  let steps := openSteps false "t" ++ openSteps true "u" ++ deleteSteps true "u"
  have hbefore : World.Reached Prost.wire asciiString (pathOf "db") (twoHandles steps) :=
    reached_run .new (by simp [steps, openSteps, deleteSteps])
  have hidle : ((twoHandles steps).handles false).phase = .idle := by decide +kernel
  have hphase : ((twoHandles steps).handles true).phase = .unlink "u" 2 := by decide +kernel
  have hfree : (twoHandles steps).fs.locked ((twoHandles steps).fs.lock 2) = false := by decide +kernel
  have hcare : (twoHandles steps).Careful true (.unlink "LOCK") := by
    intro name dir file f hdir _ _
    rw [hphase] at hdir
    cases hdir
    refine ⟨hfree, ?_⟩
    rintro - ⟨h, name, hopening⟩
    cases h with
    | false => rw [hidle] at hopening; cases hopening
    | true => rw [hphase] at hopening; cases hopening
  have hafter : World.Reached Prost.wire asciiString (pathOf "db")
      (twoHandles (steps ++ [(true, .unlink "LOCK"), (true, .advance)])) := by
    rw [twoHandles_append]
    have hstep : World.Reached Prost.wire asciiString (pathOf "db")
        ((twoHandles steps).step Prost.wire asciiString true (.unlink "LOCK")) := .step hbefore hcare
    have hlast : ∀ e ∈ [((true, .advance) : Bool × Action)], ∀ file, e.2 ≠ .unlink file := by simp
    exact reached_run hstep hlast
  exact ⟨_, hafter, by decide +kernel, by decide +kernel, one_writer hafter⟩

/-- A handle opens a table and puts a pair. -/
def liveSteps : List (Bool × Action) :=
  openSteps false "t" ++ [(false, .access "t" (.put [1] [2]) Env.quiet 0)]

/-- The other one deletes the table, but for its last file. -/
def removeSteps : List (Bool × Action) := deleteSteps true "t" ++ [(true, .unlink "LOCK")]

/-- It removes that file and the directory, and opens the table. -/
def reopenSteps : List (Bool × Action) :=
  [(true, .unlink walName), (true, .advance)] ++ openSteps true "t"

/-- A handle removes the log of a table that the other has open, and in the end both have it open. -/
theorem two_writers :
    ¬ (twoHandles (liveSteps ++ removeSteps)).Untouched Prost.wire asciiString true (.unlink walName) ∧
      ¬ (twoHandles (liveSteps ++ removeSteps ++ reopenSteps)).Alone asciiString := by
  constructor
  · have hopen : ((twoHandles (liveSteps ++ removeSteps)).handles false).db.opened.contains "t" = true := by
      decide +kernel
    have hdir : (twoHandles (liveSteps ++ removeSteps)).fs.dirs[
        ((twoHandles (liveSteps ++ removeSteps)).handles false).db.storePath asciiString "t"]? = some 0 := by
      decide +kernel
    have hbefore : ((twoHandles (liveSteps ++ removeSteps)).fs.files 0).contains walName = true := by
      decide +kernel
    have hafter : (((twoHandles (liveSteps ++ removeSteps)).step Prost.wire asciiString true
        (.unlink walName)).fs.files 0).contains walName = false := by decide +kernel
    intro huntouched
    rw [Std.ExtTreeMap.contains_eq_isSome_getElem?, Option.isSome_iff_exists] at hopen
    obtain ⟨live, hlive⟩ := hopen
    obtain ⟨dir, hdir', -, hfiles⟩ := huntouched false "t" live nofun hlive
    rw [hdir] at hdir'
    cases hdir'
    rw [hfiles, hbefore] at hafter
    cases hafter
  · have hfirst : ((twoHandles (liveSteps ++ removeSteps ++ reopenSteps)).handles false).db.opened.contains "t" = true := by
      decide +kernel
    have hsecond : ((twoHandles (liveSteps ++ removeSteps ++ reopenSteps)).handles true).db.opened.contains "t" = true := by
      decide +kernel
    have hpath : ((twoHandles (liveSteps ++ removeSteps ++ reopenSteps)).handles false).db.storePath asciiString "t" =
        ((twoHandles (liveSteps ++ removeSteps ++ reopenSteps)).handles true).db.storePath asciiString "t" := by
      decide +kernel
    intro halone
    rw [Std.ExtTreeMap.contains_eq_isSome_getElem?, Option.isSome_iff_exists] at hfirst hsecond
    obtain ⟨live, hlive⟩ := hfirst
    obtain ⟨live', hlive'⟩ := hsecond
    cases (halone false true "t" "t" live live' hlive hlive' hpath).1

end FerrumDB
