import FerrumDB.Calls

/-!
# The I/O calls of a program

`Runs env c a d calls Q` says which calls a program makes, in order: it returns with `Q` when none of them
fails, and stops with the fault of the first that does (`Env.firstFault`). The rules follow the program, and
the lists are appended along it. What a program then leaves is known from its rule for `Does` (`Runs.and`).

A program `Fails` on a list if it stops with an error exactly when the first fault of the list is one; what
comes after the calls of the list may crash, but raises no error.
-/

namespace FerrumDB

open CrashLogic

variable {σ τ α β : Type} {env : Env} {a : σ} {d : Disk} {calls calls' : List IoCall} {n : ℕ}

/-! ## The first fault of a list -/

/-- The fault of the first of the calls that does not succeed, when they are made from the `n`-th on. -/
def Env.firstFault (env : Env) : ℕ → List IoCall → Option Fault
  | _, [] => none
  | n, c :: calls => (env n c).or (env.firstFault (n + 1) calls)

theorem Env.firstFault_append (env : Env) (n : ℕ) (calls calls' : List IoCall) :
    env.firstFault n (calls ++ calls') = (env.firstFault n calls).or (env.firstFault (n + calls.length) calls') := by
  induction calls generalizing n with
  | nil => rfl
  | cons c calls ih =>
    rw [List.cons_append, Env.firstFault, ih, Env.firstFault, List.length_cons, Option.or_assoc,
      show n + 1 + calls.length = n + (calls.length + 1) by omega]

/-- The first of the calls that does not succeed fails with an error. -/
def Env.FailsIn (env : Env) (n : ℕ) (calls : List IoCall) : Prop :=
  ∃ msg written, env.firstFault n calls = some (.error msg written)

theorem Env.not_failsIn_of_none (h : env.firstFault n calls = none) : ¬ env.FailsIn n calls := by
  rintro ⟨msg, written, hf⟩
  rw [h] at hf
  cases hf

theorem Env.failsIn_append_of_none (h : env.firstFault n calls = none) :
    env.FailsIn n (calls ++ calls') ↔ env.FailsIn (n + calls.length) calls' := by
  unfold Env.FailsIn
  rw [env.firstFault_append, h, Option.none_or]

/-- The fault of the first call decides. -/
theorem Env.failsIn_append_of_some {f : Fault} (h : env.firstFault n calls = some f) :
    env.FailsIn n (calls ++ calls') ↔ ∃ e, f.stop = .err e := by
  unfold Env.FailsIn
  rw [env.firstFault_append, h, Option.some_or]
  cases f with
  | error msg written => exact ⟨fun _ => ⟨_, rfl⟩, fun _ => ⟨msg, written, rfl⟩⟩
  | crash written => exact ⟨fun ⟨_, _, hf⟩ => (by cases hf), fun ⟨_, hf⟩ => (by cases hf)⟩

theorem Env.FailsIn.append (h : env.FailsIn n calls) (calls' : List IoCall) : env.FailsIn n (calls ++ calls') := by
  obtain ⟨msg, written, hf⟩ := h
  exact (Env.failsIn_append_of_some hf).2 ⟨_, rfl⟩

/-! ## Programs -/

/-- The program makes these calls: it returns with `Q` when none of them fails, and stops with the first that
does. -/
def Runs (env : Env) (c : Prog σ α) (a : σ) (d : Disk) (calls : List IoCall) (Q : α → σ → Disk → Prop) : Prop :=
  ∀ n, wp c ⟨a, d, env, n⟩
    (fun r x => (x.env = env ∧ x.clock = n + calls.length ∧ env.firstFault n calls = none) ∧ Q r x.self x.disk)
    fun e _ => ∃ f, env.firstFault n calls = some f ∧ e = f.stop

variable {c : Prog σ α} {Q : α → σ → Disk → Prop}

theorem Runs.mono {Q' : α → σ → Disk → Prop} (h : Runs env c a d calls Q) (hQ : ∀ r a' d', Q r a' d' → Q' r a' d') :
    Runs env c a d calls Q' :=
  fun n => (h n).mono (fun _ _ hq => ⟨hq.1, hQ _ _ _ hq.2⟩) fun _ _ he => he

/-- What else is known of its returns. -/
theorem Runs.and {Q' : α → σ → Disk → Prop} {E : Stop → σ → Disk → Prop} (h : Runs env c a d calls Q)
    (h' : Does env c a d Q' E) : Runs env c a d calls fun r a' d' => Q r a' d' ∧ Q' r a' d' :=
  fun n => ((h n).and (h' n)).mono (fun _ _ hq => ⟨hq.1.1, hq.1.2, hq.2.2⟩) fun _ _ he => he.1

theorem Runs.pure {r : α} (h : Q r a d) : Runs env (pure r) a d [] Q := fun _ => ⟨⟨rfl, rfl, rfl⟩, h⟩

theorem Runs.setSelf {b : σ} {Q : PUnit → σ → Disk → Prop} (h : Q ⟨⟩ b d) : Runs env (setSelf b) a d [] Q :=
  fun _ => ⟨⟨rfl, rfl, rfl⟩, h⟩

theorem Runs.modifySelf {f : σ → σ} {Q : PUnit → σ → Disk → Prop} (h : Q ⟨⟩ (f a) d) :
    Runs env (modifySelf f) a d [] Q := fun _ => ⟨⟨rfl, rfl, rfl⟩, h⟩

/-- **Sequence.** The calls of the two parts, in order. -/
theorem Runs.bind {f : α → Prog σ β} {Q' : β → σ → Disk → Prop} (h : Runs env c a d calls Q)
    (hf : ∀ r a' d', Q r a' d' → Runs env (f r) a' d' calls' Q') : Runs env (c >>= f) a d (calls ++ calls') Q' := by
  intro n
  refine (wp_bind c f _ _ _).2 ((h n).mono ?_ ?_)
  · rintro r ⟨a', d', env', n'⟩ ⟨⟨rfl, rfl, hnone⟩, hq⟩
    refine (hf r a' d' hq (n + calls.length)).mono ?_ ?_
    · rintro r' y ⟨⟨henv, hclock, hnone'⟩, hq'⟩
      have hclock : y.clock = n + calls.length + calls'.length := hclock
      refine ⟨⟨henv, by rw [hclock, List.length_append, Nat.add_assoc], ?_⟩, hq'⟩
      rw [Env.firstFault_append, hnone, Option.none_or]
      exact hnone'
    · rintro e y ⟨f', hf', rfl⟩
      refine ⟨f', ?_, rfl⟩
      rw [Env.firstFault_append, hnone, Option.none_or]
      exact hf'
  · rintro e y ⟨f', hf', rfl⟩
    refine ⟨f', ?_, rfl⟩
    rw [Env.firstFault_append, hf', Option.some_or]

/-- A first part of one call. -/
theorem Runs.cons {call : IoCall} {f : α → Prog σ β} {Q' : β → σ → Disk → Prop} (h : Runs env c a d [call] Q)
    (hf : ∀ r a' d', Q r a' d' → Runs env (f r) a' d' calls Q') : Runs env (c >>= f) a d (call :: calls) Q' :=
  Runs.bind h hf

/-- A first part without calls. -/
theorem Runs.seq {f : α → Prog σ β} {Q' : β → σ → Disk → Prop} (h : Runs env c a d [] Q)
    (hf : ∀ r a' d', Q r a' d' → Runs env (f r) a' d' calls Q') : Runs env (c >>= f) a d calls Q' :=
  Runs.bind h hf

/-- A last part without calls. -/
theorem Runs.last {f : α → Prog σ β} {Q' : β → σ → Disk → Prop} (h : Runs env c a d calls Q)
    (hf : ∀ r a' d', Q r a' d' → Runs env (f r) a' d' [] Q') : Runs env (c >>= f) a d calls Q' := by
  have hbind := Runs.bind h hf
  rwa [List.append_nil] at hbind

/-- Reading the receiver before going on. -/
theorem Runs.withSelf {f : σ → Prog σ α} (h : Runs env (f a) a d calls Q) : Runs env (self >>= f) a d calls Q := by
  have hself : Runs env self a d [] fun r a' d' => r = a ∧ a' = a ∧ d' = d := fun _ => ⟨⟨rfl, rfl, rfl⟩, rfl, rfl, rfl⟩
  refine hself.seq ?_
  rintro _ _ _ ⟨rfl, rfl, rfl⟩
  exact h

theorem Runs.ofStop {x : Except Stop α} {r : α} (hx : x = .ok r) (h : Q r a d) : Runs env (ofStop x) a d [] Q := by
  rw [hx]
  exact .pure h

theorem Runs.ofExcept {x : Except AppError α} {r : α} (hx : x = .ok r) (h : Q r a d) :
    Runs env (ofExcept x) a d [] Q := by
  rw [hx]
  exact .pure h

theorem Runs.onField {get : σ → τ} {put : τ → σ → σ} {c : Prog τ α}
    (h : Runs env c (get a) d calls fun r t d' => Q r (put t a) d') : Runs env (onField get put c) a d calls Q :=
  fun n => (wp_zoom _ _ _ _ _ _).2 (h n)

/-- One call, which succeeds unless the environment makes it fail. -/
theorem Runs.ioCall {call : IoCall} {torn : TornEffect} {act : Disk → Except String α × Disk} {r : α} {b : Disk}
    (hact : act d = (.ok r, b)) (h : Q r a b) : Runs env (ioCall call torn act) a d [call] Q := by
  intro n
  unfold wp FerrumDB.ioCall Env.firstFault
  dsimp only
  cases henv : env n call with
  | none =>
    dsimp only
    rw [hact]
    exact ⟨⟨rfl, rfl, rfl⟩, h⟩
  | some f =>
    cases f with
    | error msg written => exact ⟨_, rfl, rfl⟩
    | crash written => exact ⟨_, rfl, rfl⟩

variable {name : FileName} {f : File}

theorem runs_openRead (hd : d.files[name]? = some f) : Runs env (openRead name) a d [⟨.openRead, name⟩]
    fun _ a' d' => a' = a ∧ d' = d := by
  refine .ioCall (r := ()) (b := d) ?_ ⟨rfl, rfl⟩
  rw [if_pos (Std.ExtTreeMap.contains_iff_mem.2 (Std.ExtTreeMap.mem_iff_isSome_getElem?.2 (by rw [hd]; rfl)))]

theorem runs_readExactAt (hd : d.files[name]? = some f) {offset len : ℕ} {bs : Bytes}
    (hread : f.readAt offset len = .ok bs) : Runs env (readExactAt name offset len) a d [⟨.read, name⟩]
      fun r a' d' => r = bs ∧ a' = a ∧ d' = d := by
  refine .ioCall (r := bs) (b := d) ?_ ⟨rfl, rfl, rfl⟩
  unfold File.readAt at hread
  rw [hd]
  dsimp only
  split_ifs at hread ⊢
  cases hread
  rfl

theorem runs_writeAll (hd : d.files[name]? = some f) {bs : Bytes} (hroom : f.bytes.length + bs.length ≤ maxFileLen) :
    Runs env (writeAll name bs) a d [⟨.write, name⟩] fun _ a' d' => a' = a ∧ d' = d.put name (f.append bs) := by
  refine .ioCall (r := ()) (b := d.append name bs) ?_ ⟨rfl, Disk.append_of_some hd⟩
  rw [hd]
  exact if_pos hroom

theorem runs_syncAll (hd : d.files[name]? = some f) :
    Runs env (syncAll name) a d [⟨.sync, name⟩] fun _ a' _ => a' = a :=
  .ioCall (r := ()) (b := d.put name f.sync) (by rw [hd]) rfl

/-! ## Errors -/

/-- The program stops with an error exactly if the first of these calls that does not succeed fails with one. -/
def Fails (env : Env) (c : Prog σ α) (a : σ) (d : Disk) (calls : List IoCall) : Prop :=
  ∀ n, wp c ⟨a, d, env, n⟩ (fun _ _ => ¬ env.FailsIn n calls) fun e _ => (∃ err, e = .err err) ↔ env.FailsIn n calls

theorem Fails.iff (h : Fails env c a d calls) (n : ℕ) :
    (∃ err x, c ⟨a, d, env, n⟩ = .error (.err err) x) ↔ env.FailsIn n calls := by
  have hn := h n
  constructor
  · rintro ⟨err, x, hc⟩
    exact (hn.of_error hc).1 ⟨err, rfl⟩
  · intro hfails
    cases hc : c ⟨a, d, env, n⟩ with
    | ok r x => exact absurd hfails (hn.of_ok hc)
    | error e x =>
      obtain ⟨err, rfl⟩ := (hn.of_error hc).2 hfails
      exact ⟨err, x, rfl⟩

/-- A program that raises no error. -/
theorem Fails.nil (h : ∀ n, wp c ⟨a, d, env, n⟩ (fun _ _ => True) fun e _ => ∀ err, e ≠ .err err) :
    Fails env c a d [] :=
  fun n => (h n).mono (fun _ _ _ => Env.not_failsIn_of_none rfl)
    fun _ _ he => iff_of_false (fun ⟨err, herr⟩ => he err herr) (Env.not_failsIn_of_none rfl)

theorem Fails.pure {r : α} : Fails env (Pure.pure r) a d [] := .nil fun _ => trivial

/-- The calls of the first part, and what the second part fails on. -/
theorem Runs.fails {f : α → Prog σ β} (h : Runs env c a d calls Q)
    (hf : ∀ r a' d', Q r a' d' → Fails env (f r) a' d' calls') : Fails env (c >>= f) a d (calls ++ calls') := by
  intro n
  refine (wp_bind c f _ _ _).2 ((h n).mono ?_ ?_)
  · rintro r ⟨a', d', env', n'⟩ ⟨⟨rfl, rfl, hnone⟩, hq⟩
    exact (hf r a' d' hq (n + calls.length)).mono (fun _ _ hno hin => hno ((Env.failsIn_append_of_none hnone).1 hin))
      fun _ _ he => he.trans (Env.failsIn_append_of_none hnone).symm
  · rintro e y ⟨f', hf', rfl⟩
    exact (Env.failsIn_append_of_some hf').symm

theorem Fails.withSelf {f : σ → Prog σ α} (h : Fails env (f a) a d calls) : Fails env (self >>= f) a d calls := h

end FerrumDB
