import FerrumDB.Calls

/-!
# Programs that do not panic

A program is `Calm` from a receiver and a disk if no environment makes it panic: it returns, or stops
with an error or a crash. An I/O call is always calm, since a fault is an error or a crash; what is left
are the panics of the code itself, at an overflow, a bad slice or an allocation that is too large.
-/

namespace FerrumDB

variable {σ α β : Type} {a : σ} {d : Disk} {Q : α → σ → Disk → Prop}

/-- In no environment does the program panic, and when it returns, it returns with `Q`. -/
def Calm (c : Prog σ α) (a : σ) (d : Disk) (Q : α → σ → Disk → Prop) : Prop :=
  ∀ env, Does env c a d Q fun e _ _ => e ≠ .panic

/-- No environment makes the program panic. -/
abbrev NeverPanics (c : Prog σ α) (a : σ) (d : Disk) : Prop := Calm c a d fun _ _ _ => True

theorem Calm.mono {c : Prog σ α} {Q' : α → σ → Disk → Prop} (h : Calm c a d Q)
    (hQ : ∀ r a' d', Q r a' d' → Q' r a' d') : Calm c a d Q' :=
  fun env => (h env).mono hQ fun _ _ _ he => he

/-- A calm program that stops under some environment does not stop with a panic. -/
theorem Calm.not_panics {c : Prog σ α} (h : Calm c a d Q)
    (hpanic : Does Env.quiet c a d (fun _ _ _ => False) fun e _ _ => e = .panic) : False := by
  have hboth := Does.and (h Env.quiet) hpanic
  obtain ⟨e, x, -, -, hne, he⟩ := ((hboth 0).mono (fun _ _ hq => hq.2.2) fun _ _ he => he).stops
  exact hne he

/-! ## Program constructors -/

theorem Calm.pure {r : α} (h : Q r a d) : Calm (pure r) a d Q := fun _ => .pure h

theorem Calm.bind {c : Prog σ β} {f : β → Prog σ α}
    (h : Calm c a d fun r a' d' => Calm (f r) a' d' Q) : Calm (c >>= f) a d Q :=
  fun env => Does.bind ((h env).mono (fun _ _ _ hf => hf env) fun _ _ _ he => he)

theorem Calm.withSelf {f : σ → Prog σ α} (h : Calm (f a) a d Q) : Calm (self >>= f) a d Q :=
  fun env => .withSelf (h env)

theorem Calm.setSelf {b : σ} {Q : PUnit → σ → Disk → Prop} (h : Q ⟨⟩ b d) : Calm (setSelf b) a d Q :=
  fun _ => .setSelf h

theorem Calm.ofStop {x : Except Stop α} (hok : ∀ r, x = .ok r → Q r a d) (herr : x ≠ .error .panic) :
    Calm (ofStop x) a d Q :=
  fun _ => .ofStop hok fun e he hpanic => herr (by rw [he, hpanic])

theorem Calm.ofExcept {x : Except AppError α} (hok : ∀ r, x = .ok r → Q r a d) :
    Calm (ofExcept x) a d Q :=
  fun _ => .ofExcept hok fun _ _ => nofun

theorem Calm.ignoreErr {c : Prog σ α} {Q : Unit → σ → Disk → Prop} {I : σ → Disk → Prop}
    (h : ∀ env, Does env c a d (fun _ a' d' => I a' d') fun e a' d' => e ≠ .panic ∧ I a' d')
    (hQ : ∀ a' d', I a' d' → Q () a' d') : Calm (ignoreErr c) a d Q := by
  intro env
  refine .ignoreErr ((h env).mono (fun _ a' d' hI => hQ a' d' hI) fun e a' d' he => ?_)
  cases e with
  | err e => exact hQ a' d' he.2
  | panic => exact absurd rfl he.1
  | crash => exact he.1

theorem Calm.loop {f : β → Prog σ PUnit} (I : σ → Disk → Prop) (l : List β)
    (step : ∀ x ∈ l, ∀ a d, I a d → Calm (f x) a d fun _ a' d' => I a' d') (h : I a d) :
    Calm (forM l f) a d fun _ a' d' => I a' d' :=
  fun env => .loop I l (fun x hx a d hI => step x hx a d hI env) h

/-! ## Calls -/

/-- A fault is not a panic. -/
theorem Fault.stop_ne_panic (f : Fault) : f.stop ≠ .panic := by
  cases f <;> nofun

theorem not_faults_panic {env : Env} {P : IoCall → Prop} {stop : Stop} (h : env.Faults P stop) : stop ≠ .panic := by
  rcases h.cases with ⟨msg, rfl⟩ | rfl <;> nofun

/-- **Every I/O call is calm.** -/
theorem Calm.ioCall {c : IoCall} {torn : TornEffect} {act : Disk → Except String α × Disk}
    (hQ : ∀ r d', act d = (.ok r, d') → Q r a d') : Calm (ioCall c torn act) a d Q := by
  intro env
  refine .ioCall ?_ fun n f _ => f.stop_ne_panic
  cases hact : act d with
  | mk r d' =>
    cases r with
    | ok r => exact hQ r d' hact
    | error msg => exact nofun

theorem calm_openRead {name : FileName} {Q : Unit → σ → Disk → Prop} (hQ : Q () a d) :
    Calm (openRead name) a d Q :=
  .ioCall fun r d' h => by
    cases congrArg Prod.snd h
    exact hQ

end FerrumDB
